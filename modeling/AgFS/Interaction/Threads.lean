import AgFS.Interaction.Protocol
import Mathlib.Logic.Function.Basic
import Mathlib.Logic.Relation

/-! Threads that share a state. Each runs one program after the other; a step is a single
call of one of them, so every interleaving of the calls is a run. -/
namespace Interaction

/-- How calls act on the shared state, and what each thread may run. -/
structure Threads (S : Signature) (ι σ : Type) where
  Does : ι → σ → (c : S.Call) → S.Reply c → σ → Prop
  Starts : ι → Prog S Bool → Prop

namespace Threads
variable {S : Signature} {ι σ : Type} [DecidableEq ι]

/-- A program that has returned `true` may be followed by another one of the same thread. -/
structure State (S : Signature) (ι σ : Type) where
  shared : σ
  running : ι → Prog S Bool

/-- A step in which the call of a thread satisfies `C`. -/
inductive Step (sys : Threads S ι σ) (C : σ → ι → Event S → Prop) : State S ι σ → State S ι σ → Prop
  | start {s : State S ι σ} {i : ι} {p : Prog S Bool} (idle : s.running i = .ret true)
      (starts : sys.Starts i p) : Step sys C s ⟨s.shared, Function.update s.running i p⟩
  | call {s : State S ι σ} {i : ι} {c : S.Call} {k : S.Reply c → Prog S Bool} {r : S.Reply c} {t : σ}
      (next : s.running i = .call c k) (does : sys.Does i s.shared c r t) (meets : C s.shared i ⟨c, r⟩) :
      Step sys C s ⟨t, Function.update s.running i (k r)⟩

/-- Runs all of whose calls satisfy `C`. -/
abbrev Run (sys : Threads S ι σ) (C : σ → ι → Event S → Prop) :
    State S ι σ → State S ι σ → Prop := Relation.ReflTransGen (sys.Step C)

/-- A thread that only waits to start its first program. -/
def State.idle (s : σ) : State S ι σ := ⟨s, fun _ => .ret true⟩

variable {sys : Threads S ι σ} {C : σ → ι → Event S → Prop} {φ : Type}

/-- The threads are in phases of their protocols that agree with the shared state. -/
structure Phased (M : ι → Moves S φ) (Q : ι → φ → Bool → Prop) (Inv : σ → (ι → φ) → Prop)
    (s : State S ι σ) (x : ι → φ) : Prop where
  inv : Inv s.shared x
  follows (i : ι) : (s.running i).Follows (M i) (Q i) (x i)

/-- What every move of every thread preserves holds throughout a run. -/
theorem Run.phased {M : ι → Moves S φ} {Q : ι → φ → Bool → Prop} {Inv : σ → (ι → φ) → Prop}
    (hstarts : ∀ {i p x}, sys.Starts i p → Q i x true → p.Follows (M i) (Q i) x)
    (hmove : ∀ {i s x c r y t}, Inv s x → M i (x i) c r y → sys.Does i s c r t → C s i ⟨c, r⟩ →
      Inv t (Function.update x i y))
    {s t : State S ι σ} (hrun : sys.Run C s t) {x : ι → φ} (h : Phased M Q Inv s x) :
    ∃ y, Phased M Q Inv t y := by
  induction hrun with
  | refl => exact ⟨x, h⟩
  | tail _ hstep ih =>
    obtain ⟨y, hinv, hfollows⟩ := ih
    cases hstep with
    | @start i p idle starts =>
      have hrest := hfollows i
      rw [idle] at hrest
      refine ⟨y, hinv, fun j => ?_⟩
      by_cases hj : j = i
      · subst hj
        simpa using hstarts starts hrest
      · simpa [hj] using hfollows j
    | @call i c k r t next does meets =>
      have hcall := hfollows i
      rw [next] at hcall
      obtain ⟨z, hz, hk⟩ := hcall r
      refine ⟨Function.update y i z, hmove hinv hz does meets, fun j => ?_⟩
      by_cases hj : j = i
      · subst hj
        simpa using hk
      · simpa [hj] using hfollows j

omit [DecidableEq ι] in
/-- The move a thread is about to make. -/
theorem Phased.moves {M : ι → Moves S φ} {Q : ι → φ → Bool → Prop} {Inv : σ → (ι → φ) → Prop}
    {s : State S ι σ} {x : ι → φ} (h : Phased M Q Inv s x) {i : ι} {c : S.Call}
    {k : S.Reply c → Prog S Bool} (hnext : s.running i = .call c k) (r : S.Reply c) :
    ∃ y, M i (x i) c r y := by
  have hcall := h.follows i
  rw [hnext] at hcall
  obtain ⟨y, hy, -⟩ := hcall r
  exact ⟨y, hy⟩

/-- Calls of one thread, each of them a step `D`, while no other thread makes any. -/
inductive Acts (D : σ → (c : S.Call) → S.Reply c → σ → Prop) : σ → List (Event S) → σ → Prop
  | nil (s : σ) : Acts D s [] s
  | cons {s t u : σ} {c : S.Call} {r : S.Reply c} {events : List (Event S)} (does : D s c r t)
      (rest : Acts D t events u) : Acts D s (⟨c, r⟩ :: events) u

theorem Acts.append_iff {D : σ → (c : S.Call) → S.Reply c → σ → Prop} {s u : σ}
    {events events' : List (Event S)} :
    Acts D s (events ++ events') u ↔ ∃ t, Acts D s events t ∧ Acts D t events' u := by
  induction events generalizing s with
  | nil =>
    constructor
    · exact fun h => ⟨s, .nil s, h⟩
    · rintro ⟨t, ⟨⟩, h⟩
      exact h
  | cons ev events ih =>
    constructor
    · rintro (_ | ⟨does, rest⟩)
      obtain ⟨t, h, h'⟩ := ih.mp rest
      exact ⟨t, .cons does h, h'⟩
    · rintro ⟨t, _ | ⟨does, rest⟩, h'⟩
      exact .cons does (ih.mpr ⟨t, rest, h'⟩)

/-- A program that nobody interrupts leads from one state to another, with a result. -/
structure Alone {α : Type} (D : σ → (c : S.Call) → S.Reply c → σ → Prop) (s : σ) (p : Prog S α)
    (events : List (Event S)) (a : α) (t : σ) : Prop where
  runs : Runs p events (.ret a)
  acts : Acts D s events t

namespace Alone
variable {α β : Type} {D : σ → (c : S.Call) → S.Reply c → σ → Prop} {s t : σ} {events : List (Event S)}
  {a b : α}

theorem ret (h : Alone D s (.ret a) events b t) : events = [] ∧ b = a ∧ t = s := by
  obtain ⟨rfl, hb⟩ := Runs.ret_iff.mp h.runs
  cases h.acts
  cases hb
  exact ⟨rfl, rfl, rfl⟩

theorem call {c : S.Call} {k : S.Reply c → Prog S α} (h : Alone D s (.call c k) events a t) :
    ∃ r u m, events = ⟨c, r⟩ :: u ∧ D s c r m ∧ Alone D m (k r) u a t := by
  obtain ⟨r, u, rfl, hrest⟩ := Runs.call_ret_iff.mp h.runs
  cases h.acts with
  | cons does rest => exact ⟨r, u, _, rfl, does, hrest, rest⟩

theorem bind {p : Prog S α} {f : α → Prog S β} {b : β} (h : Alone D s (p >>= f) events b t) :
    ∃ u v a m, events = u ++ v ∧ Alone D s p u a m ∧ Alone D m (f a) v b t := by
  obtain ⟨u, v, a, rfl, hfirst, hrest⟩ := Runs.bind_ret_iff.mp h.runs
  obtain ⟨m, hu, hv⟩ := Acts.append_iff.mp h.acts
  exact ⟨u, v, a, m, rfl, ⟨hfirst, hu⟩, ⟨hrest, hv⟩⟩

/-- What each call of a kind preserves, a program that makes only such calls preserves. -/
theorem only {p : Prog S α} {P : S.Call → Prop} {R : σ → σ → Prop} (h : Alone D s p events a t)
    (hp : p.Only P) (hrefl : ∀ s, R s s) (htrans : ∀ {s t u}, R s t → R t u → R s u)
    (hcall : ∀ {s c r t}, P c → D s c r t → R s t) : R s t := by
  induction p generalizing s events with
  | ret b =>
    obtain ⟨-, -, rfl⟩ := h.ret
    exact hrefl _
  | call c k ih =>
    obtain ⟨r, u, m, rfl, does, hrest⟩ := h.call
    exact htrans (hcall hp.1 does) (ih r hrest (hp.2 r))

end Alone

theorem Run.acts {s : State S ι σ} {i : ι} {p q : Prog S Bool} {events : List (Event S)} {t : σ}
    (hp : s.running i = p) (hruns : Runs p events q)
    (hacts : Acts (fun s c r t => sys.Does i s c r t ∧ C s i ⟨c, r⟩) s.shared events t) :
    sys.Run C s ⟨t, Function.update s.running i q⟩ := by
  induction hruns generalizing s with
  | refl p =>
    cases hacts
    rw [← hp, Function.update_eq_self]
  | step r _ ih =>
    cases hacts with
    | cons does rest =>
      have hstep := Step.call hp does.1 does.2
      have hrest := ih (s := ⟨_, Function.update s.running i _⟩) (Function.update_self ..) rest
      rw [Function.update_idem] at hrest
      exact .head hstep hrest

theorem Run.plays {s : State S ι σ} {i : ι} {p q : Prog S Bool} {events : List (Event S)} {t : σ}
    (hidle : s.running i = .ret true) (hstarts : sys.Starts i p) (hruns : Runs p events q)
    (hacts : Acts (fun s c r t => sys.Does i s c r t ∧ C s i ⟨c, r⟩) s.shared events t) :
    sys.Run C s ⟨t, Function.update s.running i q⟩ := by
  have hrest := Run.acts (s := ⟨s.shared, Function.update s.running i p⟩)
    (Function.update_self ..) hruns hacts
  rw [Function.update_idem] at hrest
  exact .head (.start hidle hstarts) hrest

end Threads
end Interaction
