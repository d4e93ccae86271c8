import AgFS.Interaction.Machine
import Mathlib.Logic.Relation

/-! Two machines joined by a stream in each direction, under every interleaving. -/
namespace Interaction

/-- Both machines with the bytes in flight: `up` from left to right, `down` back. -/
structure Net {κ : Type} (A B : Machine κ) where
  left : A.State
  right : B.State
  up : Bytes
  down : Bytes

namespace Net
variable {κ : Type} {A B : Machine κ}

/-- Either side takes its turn on the bytes that have arrived. -/
inductive Step : Net A B → Net A B → Prop
  | left {a : A.State} {b : B.State} {up down : Bytes} {t : Turn κ A.State}
      (h : A.step a down = some t) :
      Step ⟨a, b, up, down⟩ ⟨t.next, b, up ++ unmark t.sent, down.drop t.heard.length⟩
  | right {a : A.State} {b : B.State} {up down : Bytes} {t : Turn κ B.State}
      (h : B.step b up = some t) :
      Step ⟨a, b, up, down⟩ ⟨a, t.next, up.drop t.heard.length, down ++ unmark t.sent⟩

/-- Any number of turns, in any order of the two sides. -/
abbrev Leads : Net A B → Net A B → Prop := Relation.ReflTransGen Step

/-- Neither side has a turn. -/
def AtRest (n : Net A B) : Prop := A.step n.left n.down = none ∧ B.step n.right n.up = none

theorem AtRest.no_step {n m : Net A B} (h : n.AtRest) : ¬ Step n m := by
  rintro ⟨ht⟩ <;> simp_all [AtRest]

private theorem drop_append {inp x : Bytes} {xs : Marked κ} (h : unmark xs <+: inp) :
    (inp ++ x).drop xs.length = inp.drop xs.length ++ x := by
  have hl := h.length_le
  rw [unmark_length] at hl
  exact List.drop_append_of_le_length hl

/-- Turns of the two sides commute: each only adds to what the other can read. -/
theorem Step.diamond {n m m' : Net A B} (h : Step n m) (h' : Step n m') :
    m = m' ∨ ∃ k, Step m k ∧ Step m' k := by
  have comm {a : A.State} {b : B.State} {up down : Bytes} {t : Turn κ A.State}
      {u : Turn κ B.State} (ht : A.step a down = some t) (hu : B.step b up = some u) :
      ∃ k : Net A B,
        Step ⟨t.next, b, up ++ unmark t.sent, down.drop t.heard.length⟩ k ∧
        Step ⟨a, u.next, up.drop u.heard.length, down ++ unmark u.sent⟩ k := by
    have hp := A.heard_prefix ht
    have hq := B.heard_prefix hu
    have ht' := A.step_congr ht (hp.trans (List.prefix_append down (unmark u.sent)))
    have hu' := B.step_congr hu (hq.trans (List.prefix_append up (unmark t.sent)))
    refine ⟨_, .right hu', ?_⟩
    rw [drop_append hq, ← drop_append hp]
    exact .left ht'
  cases h with
  | left ht =>
    cases h' with
    | left ht' =>
      obtain rfl := Option.some.inj (ht.symm.trans ht')
      exact .inl rfl
    | right hu => exact .inr (comm ht hu)
  | right hu =>
    cases h' with
    | left ht =>
      obtain ⟨k, hk, hk'⟩ := comm ht hu
      exact .inr ⟨k, hk', hk⟩
    | right hu' =>
      obtain rfl := Option.some.inj (hu.symm.trans hu')
      exact .inl rfl

/-- A run of exactly so many turns. -/
inductive LeadsIn : Nat → Net A B → Net A B → Prop
  | refl (n : Net A B) : LeadsIn 0 n n
  | head {k : Nat} {n m l : Net A B} (h : Step n m) (rest : LeadsIn k m l) : LeadsIn (k + 1) n l

theorem Leads.exact {n m : Net A B} (h : Leads n m) : ∃ k, LeadsIn k n m := by
  induction h using Relation.ReflTransGen.head_induction_on with
  | refl => exact ⟨0, .refl _⟩
  | head hs _ ih =>
    obtain ⟨k, hk⟩ := ih
    exact ⟨k + 1, .head hs hk⟩

theorem LeadsIn.leads {k : Nat} {n m : Net A B} (h : LeadsIn k n m) : Leads n m := by
  induction h with
  | refl => exact .refl
  | head hs _ ih => exact .head hs ih

private theorem LeadsIn.strip {k : Nat} {n m l : Net A B} (h : LeadsIn k n l) (hl : l.AtRest)
    (hs : Step n m) : ∃ j, k = j + 1 ∧ LeadsIn j m l := by
  induction h generalizing m with
  | refl => exact absurd hs hl.no_step
  | @head k n m' l hs' rest ih =>
    rcases hs.diamond hs' with rfl | ⟨c, hc, hc'⟩
    · exact ⟨k, rfl, rest⟩
    · obtain ⟨j, rfl, hj⟩ := ih hl hc'
      exact ⟨j + 1, rfl, .head hc hj⟩

/-- Where one interleaving comes to rest, all of them do, after the same number of
turns: no run deadlocks elsewhere or goes on for ever. -/
theorem LeadsIn.confluent {k j : Nat} {n m l : Net A B} (h : LeadsIn k n l) (hl : l.AtRest)
    (h' : LeadsIn j n m) : j ≤ k ∧ LeadsIn (k - j) m l := by
  induction h' generalizing k with
  | refl => exact ⟨Nat.zero_le k, h⟩
  | head hs _ ih =>
    obtain ⟨i, rfl, hi⟩ := h.strip hl hs
    obtain ⟨hle, hrest⟩ := ih hi
    exact ⟨by omega, by rwa [Nat.add_sub_add_right]⟩

/-- A side that has no turn on any input stays where it is. -/
theorem Leads.right_stuck {n m : Net A B} (h : Leads n m) (hn : ∀ inp, B.step n.right inp = none) :
    m.right = n.right := by
  induction h with
  | refl => rfl
  | tail _ hs ih =>
    cases hs with
    | left _ => exact ih
    | @right _ b up _ _ hu =>
      have hb := hn up
      rw [← ih, hu] at hb
      cases hb

theorem leads_left {a a' : A.State} {i o : Marked κ} (h : A.Reaches a i o a') (b : B.State)
    (up down : Bytes) : Leads ⟨a, b, up, unmark i ++ down⟩ ⟨a', b, up ++ unmark o, down⟩ := by
  induction h generalizing up with
  | refl => simpa using Relation.ReflTransGen.refl
  | @step q r i o t ht _ ih =>
    have hs := A.step_congr ht (List.prefix_append (unmark t.heard) (unmark i ++ down))
    refine .head (.left (t := t) (by simpa using hs)) ?_
    have hd : (unmark (t.heard ++ i) ++ down).drop t.heard.length = unmark i ++ down := by
      rw [unmark_append, List.append_assoc, ← unmark_length t.heard, List.drop_left]
    rw [hd, unmark_append, ← List.append_assoc]
    exact ih _

theorem leads_right {b b' : B.State} {i o : Marked κ} (h : B.Reaches b i o b') (a : A.State)
    (up down : Bytes) : Leads ⟨a, b, unmark i ++ up, down⟩ ⟨a, b', up, down ++ unmark o⟩ := by
  induction h generalizing down with
  | refl => simpa using Relation.ReflTransGen.refl
  | @step q r i o t ht _ ih =>
    have hs := B.step_congr ht (List.prefix_append (unmark t.heard) (unmark i ++ up))
    refine .head (.right (t := t) (by simpa using hs)) ?_
    have hd : (unmark (t.heard ++ i) ++ up).drop t.heard.length = unmark i ++ up := by
      rw [unmark_append, List.append_assoc, ← unmark_length t.heard, List.drop_left]
    rw [hd, unmark_append, ← List.append_assoc]
    exact ih _

end Net
end Interaction
