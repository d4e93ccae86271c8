import AgFS.Interaction.Process
import Mathlib.Data.List.Forall2

/-! Runs that differ only in what fresh memory held, and what of them can be told apart. -/
namespace Interaction

/-- Along one trace a program returns once, and with one result. -/
theorem Runs.ret_prefix {S : Signature} {α : Type} {p : Prog S α} {t t' u u' : List (Event S)} {a b : α}
    (h : Runs p t (.ret a)) (h' : Runs p t' (.ret b)) (heq : t ++ u = t' ++ u') :
    t = t' ∧ a = b ∧ u = u' := by
  induction p generalizing t t' with
  | ret c =>
    obtain ⟨rfl, hb⟩ := Runs.ret_iff.mp h
    obtain ⟨rfl, hb'⟩ := Runs.ret_iff.mp h'
    cases hb
    cases hb'
    exact ⟨rfl, rfl, heq⟩
  | call c k ih =>
    obtain ⟨r, v, rfl, hv⟩ := Runs.call_ret_iff.mp h
    obtain ⟨r', v', rfl, hv'⟩ := Runs.call_ret_iff.mp h'
    obtain ⟨hev, hrest⟩ := List.cons.inj heq
    cases hev
    obtain ⟨rfl, hab, hu⟩ := ih r hv hv' hrest
    exact ⟨rfl, hab, hu⟩

theorem Runs.ret_unique {S : Signature} {α : Type} {p : Prog S α} {t : List (Event S)} {a b : α}
    (h : Runs p t (.ret a)) (h' : Runs p t (.ret b)) : a = b :=
  (h.ret_prefix h' (u := []) rfl).2.1

/-- What is left of a program makes no other calls. -/
theorem Prog.Only.rest {S : Signature} {α : Type} {P : S.Call → Prop} {p q : Prog S α} {t : List (Event S)}
    (h : p.Only P) (ht : Runs p t q) : q.Only P := by
  induction ht with
  | refl => exact h
  | step r _ ih => exact ih (h.2 r)

def Prog.returned {S : Signature} {α : Type} : Prog S α → Option α
  | .ret a => some a
  | .call _ _ => none

theorem Prog.returned_eq_some {S : Signature} {α : Type} {p : Prog S α} {a : α} :
    p.returned = some a ↔ p = .ret a := by
  cases p with
  | ret b => simp [returned]
  | call c k => simp [returned]

namespace Sock
variable {κ : Type} {L : Signature} {α β : Type}

/-- Events that differ at most in the contents of fresh memory. -/
inductive MemoryApart : Event (Sock κ L) → Event (Sock κ L) → Prop
  | same (ev : Event (Sock κ L)) : MemoryApart ev ev
  | malloc {n : Nat} (block block' : Block n) :
      MemoryApart ⟨.malloc n, some block⟩ ⟨.malloc n, some block'⟩
  | scratch {n : Nat} (block block' : Block n) : MemoryApart ⟨.scratch n, block⟩ ⟨.scratch n, block'⟩

/-- Traces with the same calls and the same answers, up to the contents of fresh memory. -/
abbrev SameButMemory : List (Event (Sock κ L)) → List (Event (Sock κ L)) → Prop :=
  List.Forall₂ MemoryApart

/-- In any two runs that differ from a trace only in memory, what is seen at their ends is the same. -/
def MemoryFree (p : Prog (Sock κ L) α) (see : Prog (Sock κ L) α → Option β)
    (t : List (Event (Sock κ L))) : Prop :=
  ∀ u u' q q' v v', SameButMemory t u → SameButMemory t u' → Runs p u q → Runs p u' q' →
    see q = some v → see q' = some v' → v = v'

section Apart
variable {t u : List (Event (Sock κ L))}

theorem SameButMemory.refl (t : List (Event (Sock κ L))) : SameButMemory t t := by
  induction t with
  | nil => exact .nil
  | cons ev t ih => exact .cons (.same ev) ih

theorem apart_recv {m : κ} {fd : Fd} {n : Nat} {r : ReadReply n}
    (h : SameButMemory (⟨.recv m fd n, r⟩ :: t) u) :
    ∃ u', u = ⟨.recv m fd n, r⟩ :: u' ∧ SameButMemory t u' := by
  obtain ⟨ev, u', hev, hrest, rfl⟩ := List.forall₂_cons_left_iff.mp h
  cases hev
  exact ⟨u', rfl, hrest⟩

theorem apart_scratch {n : Nat} {block : Block n} (h : SameButMemory (⟨.scratch n, block⟩ :: t) u) :
    ∃ block' u', u = ⟨.scratch n, block'⟩ :: u' ∧ SameButMemory t u' := by
  obtain ⟨ev, u', hev, hrest, rfl⟩ := List.forall₂_cons_left_iff.mp h
  cases hev with
  | same => exact ⟨_, u', rfl, hrest⟩
  | scratch _ block' => exact ⟨block', u', rfl, hrest⟩

theorem apart_malloc {n : Nat} {block : Block n} (h : SameButMemory (⟨.malloc n, some block⟩ :: t) u) :
    ∃ block' u', u = ⟨.malloc n, some block'⟩ :: u' ∧ SameButMemory t u' := by
  obtain ⟨ev, u', hev, hrest, rfl⟩ := List.forall₂_cons_left_iff.mp h
  cases hev with
  | same => exact ⟨_, u', rfl, hrest⟩
  | malloc _ block' => exact ⟨block', u', rfl, hrest⟩

theorem apart_append {t₁ t₂ : List (Event (Sock κ L))} (h : SameButMemory (t₁ ++ t₂) u) :
    ∃ u₁ u₂, u = u₁ ++ u₂ ∧ SameButMemory t₁ u₁ ∧ SameButMemory t₂ u₂ := by
  refine ⟨u.take t₁.length, u.drop t₁.length, (List.take_append_drop _ u).symm, ?_, ?_⟩
  · have htake := List.forall₂_take t₁.length h
    rwa [List.take_left] at htake
  · have hdrop := List.forall₂_drop t₁.length h
    rwa [List.drop_left] at hdrop

/-- Calls that are no requests for memory. -/
def Remembering : SockCall κ L → Prop
  | .malloc _ => False
  | .scratch _ => False
  | _ => True

theorem SameButMemory.eq (h : SameButMemory t u) (ht : ∀ ev ∈ t, Remembering ev.call) : u = t := by
  induction h with
  | nil => rfl
  | cons hev _ ih =>
    obtain ⟨hcall, hrest⟩ := List.forall_mem_cons.mp ht
    cases hev with
    | same ev => rw [ih hrest]
    | malloc block block' => exact hcall.elim
    | scratch block block' => exact hcall.elim

end Apart
end Sock
end Interaction
