import AgFS.Interaction.Prog
import Mathlib.Logic.Relation

/-! A loop of passes, step by step, under what its environment is held to. -/
namespace Interaction

/-- A loop at work: the traces of the passes so far, that of the pass under way, and what is
left of it. -/
structure Course (S : Signature) (ι ω : Type) where
  passed : List (List (Event S))
  current : List (Event S)
  now : Prog S (ι ⊕ ω)

namespace Course
variable {S : Signature} {ι ω : Type}

def trace (s : Course S ι ω) : List (Event S) := s.passed.flatten ++ s.current

def start (body : ι → Prog S (ι ⊕ ω)) (i : ι) : Course S ι ω := ⟨[], [], body i⟩

/-- A call is answered such that the whole trace fits, or the next pass begins. -/
inductive Step (body : ι → Prog S (ι ⊕ ω)) (Fits : List (Event S) → Prop) :
    Course S ι ω → Course S ι ω → Prop
  | event {ts : List (List (Event S))} {t : List (Event S)} {c : S.Call}
      {k : S.Reply c → Prog S (ι ⊕ ω)} (r : S.Reply c) (fits : Fits (ts.flatten ++ (t ++ [⟨c, r⟩]))) :
      Step body Fits ⟨ts, t, .call c k⟩ ⟨ts, t ++ [⟨c, r⟩], k r⟩
  | again {ts : List (List (Event S))} {t : List (Event S)} {i : ι} :
      Step body Fits ⟨ts, t, .ret (.inl i)⟩ ⟨ts ++ [t], [], body i⟩

/-- What the loop may come to. -/
def Reaches (body : ι → Prog S (ι ⊕ ω)) (Fits : List (Event S) → Prop) :
    Course S ι ω → Course S ι ω → Prop :=
  Relation.ReflTransGen (Step body Fits)

/-- Nothing more can happen. -/
def Stuck (body : ι → Prog S (ι ⊕ ω)) (Fits : List (Event S) → Prop) (s : Course S ι ω) : Prop :=
  ∀ s', ¬ Step body Fits s s'

/-- However the environment acts, it comes to an end with this loop. -/
def Ends (body : ι → Prog S (ι ⊕ ω)) (Fits : List (Event S) → Prop) (s : Course S ι ω) : Prop :=
  Acc (fun s' s => Step body Fits s s') s

section Loop
variable {body : ι → Prog S (ι ⊕ ω)} {Fits : List (Event S) → Prop} {s s' : Course S ι ω}

theorem trace_again (ts : List (List (Event S))) (t : List (Event S)) (p q : Prog S (ι ⊕ ω)) :
    trace ⟨ts ++ [t], [], p⟩ = trace ⟨ts, t, q⟩ := by
  simp [trace]

/-- Step of the invariant: the trace goes on fitting. -/
theorem Step.fits (h : Step body Fits s s') (hs : Fits s.trace) : Fits s'.trace := by
  cases h with
  | event r fits => exact fits
  | again =>
    rw [trace_again]
    exact hs

theorem Reaches.fits (h : Reaches body Fits s s') (hs : Fits s.trace) : Fits s'.trace := by
  induction h with
  | refl => exact hs
  | tail _ hstep ih => exact hstep.fits ih

/-- A pass may go on as its program allows, as long as the trace fits. -/
theorem reaches_of_runs (hshorter : ∀ t u, Fits (t ++ u) → Fits t) {p q : Prog S (ι ⊕ ω)}
    {t : List (Event S)} (h : Runs p t q) {ts : List (List (Event S))} {begun : List (Event S)}
    (hfits : Fits (ts.flatten ++ (begun ++ t))) :
    Reaches body Fits ⟨ts, begun, p⟩ ⟨ts, begun ++ t, q⟩ := by
  induction h generalizing begun with
  | refl p =>
    rw [List.append_nil]
    exact .refl
  | @step c k t q r _ ih =>
    have hsplit : begun ++ ⟨c, r⟩ :: t = begun ++ [⟨c, r⟩] ++ t := (List.append_cons ..)
    rw [hsplit] at hfits ⊢
    rw [← List.append_assoc] at hfits
    exact (ih (List.append_assoc .. ▸ hfits)).head (.event r (hshorter _ _ hfits))

/-- A loop whose passes are bounded in number ends: each pass is a finite tree of calls. -/
theorem ends_of_bounded {bound : Nat} (h : ∀ s', Reaches body Fits s s' → s'.passed.length ≤ bound) :
    Ends body Fits s := by
  -- the induction is on the passes that are left, and within one on what is left of it
  suffices hrest : ∀ n s', Reaches body Fits s s' → bound < s'.passed.length + n → Ends body Fits s' from
    hrest (bound + 1) s .refl (by omega)
  intro n
  induction n with
  | zero =>
    intro s' hs' hn
    exact absurd (h s' hs') (by omega)
  | succ n ih =>
    rintro ⟨ts, t, p⟩ hs' hn
    induction p generalizing t with
    | ret res =>
      refine Acc.intro _ fun next hnext => ?_
      cases hnext with
      | again =>
        refine ih _ (hs'.tail .again) ?_
        rw [List.length_append, List.length_singleton]
        dsimp only at hn
        omega
    | call c k ihk =>
      refine Acc.intro _ fun next hnext => ?_
      cases hnext with
      | event r fits => exact ihk r _ (hs'.tail (.event r fits)) hn

end Loop
end Course
end Interaction
