import AgFS.Basis.Contents

/-! Contents that come in pieces, of each of which only the front may be kept. -/
namespace Contents
variable {α : Type}

/-- What is kept of pieces of a payload, by the length of each and of what is kept of it, is
what stands in the payload where the kept parts so far end. -/
def Lined (payload : List α) : Nat → Nat → List (Nat × Nat) → Prop
  | _, _, [] => True
  | taken, kept, (length, count) :: rest =>
    slice payload taken count = slice payload kept count ∧
      Lined payload (taken + length) (kept + count) rest

def keptParts (pieces : List (List α × Nat)) : List α := pieces.flatMap fun p => p.1.take p.2

def keptLength : List (List α × Nat) → Nat
  | [] => 0
  | (_, count) :: rest => count + keptLength rest

theorem slice_add (old : List α) (offset n m : Nat) :
    slice old offset (n + m) = slice old offset n ++ slice old (offset + n) m := by
  rw [slice, List.take_add, List.drop_drop]
  rfl

theorem keptParts_cons (p : List α × Nat) (rest : List (List α × Nat)) :
    keptParts (p :: rest) = p.1.take p.2 ++ keptParts rest := List.flatMap_cons

theorem keptLength_cons (p : List α × Nat) (rest : List (List α × Nat)) :
    keptLength (p :: rest) = p.2 + keptLength rest := rfl

section Kept
variable {pieces : List (List α × Nat)}

theorem keptParts_length (h : ∀ p ∈ pieces, p.2 ≤ p.1.length) :
    (keptParts pieces).length = keptLength pieces := by
  induction pieces with
  | nil => rfl
  | cons p rest ih =>
    obtain ⟨hfirst, hrest⟩ := List.forall_mem_cons.mp h
    rw [keptParts_cons, keptLength_cons, List.length_append, ih hrest, List.length_take,
      Nat.min_eq_left hfirst]

theorem keptLength_le (h : ∀ p ∈ pieces, p.2 ≤ p.1.length) :
    keptLength pieces ≤ (pieces.flatMap Prod.fst).length := by
  induction pieces with
  | nil => exact Nat.zero_le _
  | cons p rest ih =>
    obtain ⟨hfirst, hrest⟩ := List.forall_mem_cons.mp h
    rw [keptLength_cons, List.flatMap_cons, List.length_append]
    exact Nat.add_le_add hfirst (ih hrest)

/-- The kept parts are the front of the payload exactly when each is where the last ends. -/
theorem keptParts_eq_iff {payload : List α} {taken kept : Nat}
    (hpayload : pieces.flatMap Prod.fst <+: payload.drop taken)
    (hkept : ∀ p ∈ pieces, p.2 ≤ p.1.length) (hle : kept ≤ taken) :
    keptParts pieces = slice payload kept (keptLength pieces) ↔
      Lined payload taken kept (pieces.map fun p => (p.1.length, p.2)) := by
  induction pieces generalizing taken kept with
  | nil => exact iff_of_true (slice_zero payload kept).symm trivial
  | cons p rest ih =>
    obtain ⟨hfirst, hrest⟩ := List.forall_mem_cons.mp hkept
    obtain ⟨after, hafter⟩ := hpayload
    rw [List.flatMap_cons, List.append_assoc] at hafter
    have hpiece : p.1.take p.2 = slice payload taken p.2 := by
      rw [slice, ← hafter, List.take_append_of_le_length hfirst]
    have hpayload' : rest.flatMap Prod.fst <+: payload.drop (taken + p.1.length) := by
      rw [← List.drop_drop, ← hafter, List.drop_left]
      exact List.prefix_append _ _
    have hlength : (slice payload taken p.2).length = (slice payload kept p.2).length := by
      have htake := congrArg List.length hpiece
      rw [List.length_take, Nat.min_eq_left hfirst, slice_length] at htake
      rw [slice_length, slice_length]
      omega
    rw [keptParts_cons, keptLength_cons, slice_add, hpiece, List.map_cons, Lined,
      ← ih hpayload' hrest (Nat.add_le_add hle hfirst)]
    constructor
    · exact fun h => List.append_inj h hlength
    · rintro ⟨hfront, hback⟩
      rw [hfront, hback]

end Kept

theorem layOver_inj (zero : α) {offset offset' : Nat} {bs bs' : List α} (hlen : bs.length = bs'.length) :
    (∀ old, layOver zero old offset bs = layOver zero old offset' bs') ↔
      bs = bs' ∧ (bs = [] ∨ offset = offset') := by
  constructor
  · intro h
    by_cases hb : bs = []
    · subst hb
      exact ⟨(List.length_eq_zero_iff.mp hlen.symm).symm, .inl rfl⟩
    · have hb' : bs' ≠ [] := fun hb' => hb (List.length_eq_zero_iff.mp (by rw [hlen, hb']; rfl))
      have hnil := h []
      rw [layOver_of_ne zero hb, layOver_of_ne zero hb', List.drop_nil, List.drop_nil,
        List.append_nil, List.append_nil] at hnil
      obtain ⟨hfront, hback⟩ := List.append_inj' hnil hlen
      have hoffset := congrArg List.length hfront
      rw [padded_length, padded_length] at hoffset
      exact ⟨hback, .inr hoffset⟩
  · rintro ⟨rfl, rfl | rfl⟩ old
    · rw [layOver_nil, layOver_nil]
    · rfl

end Contents
