import AgFS.Interaction.Prog
import Mathlib.Data.List.Infix

/-! Deterministic stream machines. What a machine does next depends on the unread
input only through the bytes it takes from it. -/
namespace Interaction

abbrev Bytes := List UInt8

/-- Bytes of a stream, each marked with the kind of transfer that carries it. -/
abbrev Marked (κ : Type) := List (κ × UInt8)

section Marks
variable {κ : Type}

def mark (m : κ) (bs : Bytes) : Marked κ := bs.map fun b => (m, b)

def unmark (xs : Marked κ) : Bytes := xs.map Prod.snd

@[simp] theorem unmark_mark (m : κ) (bs : Bytes) : unmark (mark m bs) = bs := by
  simp [unmark, mark, Function.comp_def]

@[simp] theorem unmark_nil : unmark ([] : Marked κ) = [] := rfl

@[simp] theorem unmark_append (xs ys : Marked κ) : unmark (xs ++ ys) = unmark xs ++ unmark ys :=
  List.map_append

@[simp] theorem unmark_length (xs : Marked κ) : (unmark xs).length = xs.length := by
  simp [unmark]

@[simp] theorem mark_nil (m : κ) : mark m [] = [] := rfl

@[simp] theorem mark_append (m : κ) (as bs : Bytes) : mark m (as ++ bs) = mark m as ++ mark m bs :=
  List.map_append

@[simp] theorem mark_length (m : κ) (bs : Bytes) : (mark m bs).length = bs.length := by
  simp [mark]

end Marks

/-- The effect of one call: the next state, the bytes taken and the bytes sent. -/
structure Turn (κ σ : Type) where
  next : σ
  heard : Marked κ
  sent : Marked κ

/-- A machine either has no turn on the present input (it waits or has ended), or one
that is fixed by the bytes it takes. -/
structure Machine (κ : Type) where
  State : Type
  step : State → Bytes → Option (Turn κ State)
  heard_prefix {q : State} {inp : Bytes} {t : Turn κ State} :
    step q inp = some t → unmark t.heard <+: inp
  step_congr {q : State} {inp inp' : Bytes} {t : Turn κ State} :
    step q inp = some t → unmark t.heard <+: inp' → step q inp' = some t

namespace Machine
variable {κ : Type} {A : Machine κ}

/-- `Reaches q i o r`: the machine goes from `q` to `r`, taking exactly `i` and
sending exactly `o`. -/
inductive Reaches (A : Machine κ) : A.State → Marked κ → Marked κ → A.State → Prop
  | refl (q : A.State) : Reaches A q [] [] q
  | step {q r : A.State} {i o : Marked κ} (t : Turn κ A.State)
      (h : A.step q (unmark t.heard) = some t) (rest : Reaches A t.next i o r) :
      Reaches A q (t.heard ++ i) (t.sent ++ o) r

theorem Reaches.trans {p q r : A.State} {i j o u : Marked κ}
    (h : Reaches A p i o q) (h' : Reaches A q j u r) : Reaches A p (i ++ j) (o ++ u) r := by
  induction h with
  | refl => exact h'
  | step t ht _ ih =>
    rw [List.append_assoc, List.append_assoc]
    exact .step t ht (ih h')

theorem Reaches.single {q : A.State} {inp : Bytes} {t : Turn κ A.State}
    (h : A.step q inp = some t) : Reaches A q t.heard t.sent t.next := by
  have hs := A.step_congr h (List.prefix_refl _)
  simpa using Reaches.step t hs (.refl t.next)

theorem Reaches.first {q r : A.State} {i o : Marked κ} (h : Reaches A q i o r) (hne : q ≠ r) :
    ∃ inp t i' o', A.step q inp = some t ∧ i = t.heard ++ i' ∧ o = t.sent ++ o' ∧
      Reaches A t.next i' o' r := by
  cases h with
  | refl => exact absurd rfl hne
  | step t ht rest => exact ⟨_, t, _, _, ht, rfl, rfl, rest⟩

theorem Reaches.of_stuck {q r : A.State} {i o : Marked κ} (h : Reaches A q i o r)
    (hq : ∀ inp, A.step q inp = none) : r = q ∧ i = [] ∧ o = [] := by
  cases h with
  | refl => exact ⟨rfl, rfl, rfl⟩
  | step t ht => simp [hq] at ht

theorem Reaches.map {B : Machine κ} (f : A.State → B.State)
    (hf : ∀ {q inp} {t : Turn κ A.State}, A.step q inp = some t →
      B.step (f q) inp = some ⟨f t.next, t.heard, t.sent⟩)
    {q r : A.State} {i o : Marked κ} (h : Reaches A q i o r) : Reaches B (f q) i o (f r) := by
  induction h with
  | refl q => exact .refl (f q)
  | step t ht _ ih => exact .step ⟨f t.next, t.heard, t.sent⟩ (hf ht) ih

/-- Two turns taken from one state on inputs that agree are the same turn. -/
theorem step_unique {q : A.State} {inp inp' x : Bytes} {t u : Turn κ A.State}
    (ht : A.step q inp = some t) (hu : A.step q inp' = some u)
    (hx : inp <+: x) (hx' : inp' <+: x) : t = u := by
  have h₁ := A.step_congr ht ((A.heard_prefix ht).trans hx)
  have h₂ := A.step_congr hu ((A.heard_prefix hu).trans hx')
  exact Option.some.inj (h₁.symm.trans h₂)

/-- A turn taken on the way to a known later state is the first turn of that way. -/
theorem Reaches.follow {q r : A.State} {i o : Marked κ} (h : Reaches A q i o r) {inp x : Bytes}
    {t : Turn κ A.State} (ht : A.step q inp = some t) (hx : inp <+: x) (hi : unmark i <+: x) :
    q = r ∧ i = [] ∧ o = [] ∨
      ∃ i' o', i = t.heard ++ i' ∧ o = t.sent ++ o' ∧ Reaches A t.next i' o' r := by
  cases h with
  | refl => exact .inl ⟨rfl, rfl, rfl⟩
  | @step _ _ i' o' u hu rest =>
    have hp : unmark u.heard <+: x := by
      rw [unmark_append] at hi
      exact (List.prefix_append _ _).trans hi
    have he : t = u := step_unique ht hu hx hp
    subst he
    exact .inr ⟨i', o', rfl, rfl, rest⟩

/-- Of two ways from one state on inputs that agree, one is the beginning of the other. -/
theorem Reaches.along {q r r' : A.State} {i i' o o' : Marked κ} (h : Reaches A q i o r)
    (h' : Reaches A q i' o' r') {x : Bytes} (hi : unmark i <+: x) (hi' : unmark i' <+: x) :
    (∃ j u, i' = i ++ j ∧ o' = o ++ u ∧ Reaches A r j u r') ∨
      ∃ j u, i = i' ++ j ∧ o = o' ++ u ∧ Reaches A r' j u r := by
  induction h generalizing i' o' x with
  | refl q => exact .inl ⟨i', o', rfl, rfl, h'⟩
  | @step q r i o t ht rest ih =>
    obtain ⟨y, rfl⟩ := hi
    rw [unmark_append, List.append_assoc] at hi'
    rcases h'.follow ht (List.prefix_append _ _) hi' with ⟨rfl, rfl, rfl⟩ | ⟨i₁, o₁, rfl, rfl, rest'⟩
    · exact .inr ⟨_, _, rfl, rfl, .step t ht rest⟩
    · rw [unmark_append, List.prefix_append_right_inj] at hi'
      rcases ih rest' (List.prefix_append _ _) hi' with ⟨j, u, rfl, rfl, hr⟩ | ⟨j, u, rfl, rfl, hr⟩
      · exact .inl ⟨j, u, (List.append_assoc ..).symm, (List.append_assoc ..).symm, hr⟩
      · exact .inr ⟨j, u, (List.append_assoc ..).symm, (List.append_assoc ..).symm, hr⟩

end Machine
end Interaction
