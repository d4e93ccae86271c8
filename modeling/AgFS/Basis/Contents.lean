import Mathlib.Data.List.Basic

/-! The contents of a file as a list: parts of it read, and new contents laid over it. -/
namespace Contents
variable {α : Type}

/-- At most `n` elements from the offset on. -/
def slice (old : List α) (offset n : Nat) : List α := (old.drop offset).take n

theorem slice_zero (old : List α) (offset : Nat) : slice old offset 0 = [] := List.take_zero

theorem slice_past {old : List α} {offset : Nat} (h : old.length ≤ offset) (n : Nat) :
    slice old offset n = [] := by
  rw [slice, List.drop_eq_nil_of_le h, List.take_nil]

theorem slice_length (old : List α) (offset n : Nat) :
    (slice old offset n).length = min n (old.length - offset) := by
  rw [slice, List.length_take, List.length_drop]

theorem slice_append {old bs : List α} {offset n : Nat} (h : bs <+: old.drop offset)
    (hn : bs.length ≤ n) :
    bs ++ slice old (offset + bs.length) (n - bs.length) = slice old offset n := by
  obtain ⟨rest, hrest⟩ := h
  have hdrop : old.drop (offset + bs.length) = rest := by
    rw [← List.drop_drop, ← hrest, List.drop_left]
  rw [slice, hdrop, slice, ← hrest, List.take_append, List.take_of_length_le hn]

variable (zero : α)

/-- What is in front of the offset, with zeros from the end of the contents on. -/
def padded (old : List α) (offset : Nat) : List α :=
  (old ++ List.replicate (offset - old.length) zero).take offset

/-- New contents from the offset on. Where there are none, nothing changes. -/
def layOver (old : List α) (offset : Nat) (bs : List α) : List α :=
  if bs = [] then old else padded zero old offset ++ bs ++ old.drop (offset + bs.length)

@[simp] theorem padded_length (old : List α) (offset : Nat) :
    (padded zero old offset).length = offset := by
  rw [padded, List.length_take, List.length_append, List.length_replicate]
  omega

theorem padded_of_le {old : List α} {offset : Nat} (h : offset ≤ old.length) :
    padded zero old offset = old.take offset := by
  rw [padded, List.take_append_of_le_length h]

@[simp] theorem layOver_nil (old : List α) (offset : Nat) : layOver zero old offset [] = old :=
  if_pos rfl

theorem layOver_of_ne {bs : List α} (h : bs ≠ []) (old : List α) (offset : Nat) :
    layOver zero old offset bs = padded zero old offset ++ bs ++ old.drop (offset + bs.length) :=
  if_neg h

theorem slice_layOver {offset place n : Nat} {bs : List α} (h : offset ≤ place) (hn : place + n ≤ offset + bs.length)
    (old : List α) : slice (layOver zero old offset bs) place n = slice bs (place - offset) n := by
  by_cases hb : bs = []
  · obtain rfl : n = 0 := by
      rw [hb, List.length_nil] at hn
      omega
    rw [slice_zero, slice_zero]
  · have hfront : place = (padded zero old offset).length + (place - offset) := by
      rw [padded_length]
      omega
    have hdrop : (layOver zero old offset bs).drop place =
        bs.drop (place - offset) ++ (old.drop (offset + bs.length)).drop (place - offset - bs.length) := by
      rw [layOver_of_ne zero hb, List.append_assoc, hfront, ← List.drop_drop, List.drop_left, List.drop_append,
        padded_length, Nat.add_sub_cancel_left]
    rw [slice, hdrop, slice, List.take_append_of_le_length]
    rw [List.length_drop]
    omega

theorem layOver_append (old : List α) (offset : Nat) (as bs : List α) :
    layOver zero (layOver zero old offset as) (offset + as.length) bs =
      layOver zero old offset (as ++ bs) := by
  by_cases ha : as = []
  · simp [ha]
  by_cases hb : bs = []
  · simp [hb]
  have hab : as ++ bs ≠ [] := by simp [ha]
  have hfront : (padded zero old offset ++ as).length = offset + as.length := by simp
  rw [layOver_of_ne zero hb, layOver_of_ne zero ha, layOver_of_ne zero hab]
  rw [padded_of_le zero (by simp), ← hfront, List.take_left, ← List.drop_drop, List.drop_left,
    List.drop_drop, List.length_append]
  simp [Nat.add_assoc]

end Contents
