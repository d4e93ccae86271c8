import Mathlib.Data.List.Infix
import Mathlib.Data.Nat.Find

/-! Where a pattern occurs in a string, and where it occurs first. -/
namespace Search
variable {α : Type} {pattern s a b : List α} {n m : Nat}

def At (pattern s : List α) (n : Nat) : Prop := pattern <+: s.drop n

def First (pattern s : List α) (n : Nat) : Prop :=
  At pattern s n ∧ ∀ m < n, ¬ At pattern s m

/-- Two occurrences of the pattern never overlap. -/
def Unbordered (pattern : List α) : Prop :=
  ∀ k, 0 < k → k < pattern.length → ¬ pattern.drop k <+: pattern

theorem unbordered_pair {x y : α} (h : x ≠ y) : Unbordered [x, y] := by
  intro k hpos hlt hborder
  have hk : k = 1 := by simp only [List.length_cons, List.length_nil] at hlt; omega
  subst hk
  exact h (List.cons_prefix_cons.mp hborder).1.symm

theorem At.le_length (h : At pattern s n) (hp : pattern ≠ []) : n + pattern.length ≤ s.length := by
  have hlen := h.length_le
  have hpos := List.length_pos_iff.mpr hp
  rw [List.length_drop] at hlen
  omega

theorem At.split (h : At pattern s n) : s = s.take n ++ pattern ++ s.drop (n + pattern.length) := by
  obtain ⟨rest, hrest⟩ := h
  have hdrop : s.drop (n + pattern.length) = rest := by
    rw [← List.drop_drop, ← hrest, List.drop_left]
  rw [hdrop, List.append_assoc, hrest, List.take_append_drop]

theorem At.getElem? (h : At pattern s n) {k : Nat} (hk : k < pattern.length) :
    s[n + k]? = pattern[k]? := by
  obtain ⟨rest, hrest⟩ := h
  rw [← List.getElem?_drop, ← hrest, List.getElem?_append_left hk]

theorem at_pair {x y : α} : At [x, y] s n ↔ s[n]? = some x ∧ s[n + 1]? = some y := by
  constructor
  · intro h
    exact ⟨h.getElem? (k := 0) (by simp), h.getElem? (k := 1) (by simp)⟩
  · rintro ⟨hx, hy⟩
    obtain ⟨hn, hx⟩ := List.getElem?_eq_some_iff.mp hx
    obtain ⟨hn', hy⟩ := List.getElem?_eq_some_iff.mp hy
    rw [At, List.drop_eq_getElem_cons hn, List.drop_eq_getElem_cons hn', hx, hy]
    exact ⟨_, rfl⟩

theorem infix_iff : pattern <:+: s ↔ ∃ n, At pattern s n := by
  constructor
  · rintro ⟨a, b, rfl⟩
    refine ⟨a.length, b, ?_⟩
    rw [List.append_assoc, List.drop_left]
  · rintro ⟨n, h⟩
    exact h.isInfix.trans (List.drop_suffix n s).isInfix

theorem First.unique (h : First pattern s n) (h' : First pattern s m) : n = m := by
  rcases Nat.lt_trichotomy n m with hlt | heq | hgt
  · exact absurd h.1 (h'.2 n hlt)
  · exact heq
  · exact absurd h'.1 (h.2 m hgt)

theorem first_cons_succ {x : α} (h : ¬ pattern <+: x :: s) :
    First pattern (x :: s) (n + 1) ↔ First pattern s n := by
  constructor
  · intro hfirst
    exact ⟨hfirst.1, fun m hm => hfirst.2 (m + 1) (Nat.succ_lt_succ hm)⟩
  · rintro ⟨hat, hbefore⟩
    refine ⟨hat, fun m hm => ?_⟩
    cases m with
    | zero => exact h
    | succ m => exact hbefore m (Nat.lt_of_succ_lt_succ hm)

theorem infix_iff_first : pattern <:+: s ↔ ∃ n, First pattern s n := by
  classical
  constructor
  · intro h
    have hsome := infix_iff.mp h
    exact ⟨Nat.find hsome, Nat.find_spec hsome, fun m => Nat.find_min hsome⟩
  · rintro ⟨n, hn⟩
    exact infix_iff.mpr ⟨n, hn.1⟩

theorem First.drop (h : First pattern s n) (hm : m ≤ n) : First pattern (s.drop m) (n - m) := by
  constructor
  · rw [At, List.drop_drop, Nat.add_sub_cancel' hm]
    exact h.1
  · intro k hk hat
    rw [At, List.drop_drop] at hat
    exact h.2 (m + k) (by omega) hat

theorem first_append (hp : Unbordered pattern) (ha : ¬ pattern <:+: a) :
    First pattern (a ++ pattern ++ b) a.length := by
  refine ⟨⟨b, by rw [List.append_assoc, List.drop_left]⟩, fun m hm hat => ?_⟩
  obtain ⟨rest, hrest⟩ := hat
  rw [List.append_assoc, List.drop_append_of_le_length (Nat.le_of_lt hm)] at hrest
  by_cases hfit : pattern.length ≤ (a.drop m).length
  · -- within the part before
    refine ha (infix_iff.mpr ⟨m, ?_⟩)
    exact List.prefix_of_prefix_length_le ⟨rest, hrest⟩ (List.prefix_append _ _) hfit
  · -- across its end
    have hk : (a.drop m).length < pattern.length := Nat.lt_of_not_le hfit
    have hpos : 0 < (a.drop m).length := by rw [List.length_drop]; omega
    refine hp _ hpos hk ?_
    have htail : pattern.drop (a.drop m).length ++ rest = pattern ++ b := by
      have hcut := congrArg (List.drop (a.drop m).length) hrest
      rwa [List.drop_append_of_le_length (Nat.le_of_lt hk), List.drop_left] at hcut
    refine List.prefix_of_prefix_length_le ⟨rest, htail⟩ (List.prefix_append _ _) ?_
    rw [List.length_drop]
    omega

end Search
