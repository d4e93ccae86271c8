import AgFS.Interaction.Protocol
import Mathlib.Logic.Function.Basic
import Mathlib.Logic.Relation

/-! Processes that run programs over and over, and may fork: a child begins with a copy of what belongs to
its parent. Every interleaving of the calls of all processes is a run. -/
namespace Interaction

/-- What processes run, what tells a child from its parent, and what other calls do to what is shared and to
what belongs to the process. Processes are numbered. -/
structure Forks (S : Signature) (ι ω σ δ : Type) where
  body : ι → Prog S (ι ⊕ ω)
  fork : S.Call
  child : S.Reply fork
  Forked : S.Reply fork → Prop
  Does : Nat → σ → δ → (c : S.Call) → S.Reply c → σ → δ → Prop

/-- A process: what belongs to it, the program it began with, what it has called since, and what is left. -/
structure Proc (S : Signature) (ι ω δ : Type) where
  own : δ
  began : Prog S (ι ⊕ ω)
  calls : List (Event S)
  left : Prog S (ι ⊕ ω)

/-- A process that begins with a program. -/
def Proc.start {S : Signature} {ι ω δ : Type} (own : δ) (p : Prog S (ι ⊕ ω)) : Proc S ι ω δ := ⟨own, p, [], p⟩

theorem Loops.call {S : Signature} {ι ω : Type} {body : ι → Prog S (ι ⊕ ω)} {p : Prog S (ι ⊕ ω)}
    {t : List (Event S)} {c : S.Call} {k : S.Reply c → Prog S (ι ⊕ ω)} (h : Loops body p t (.call c k))
    (r : S.Reply c) : Loops body p (t ++ [⟨c, r⟩]) (k r) := by
  generalize hq : Prog.call c k = q at h
  induction h with
  | within h =>
    subst hq
    exact .within (h.trans (.step r (.refl _)))
  | again h _ ih =>
    rw [List.append_assoc]
    exact .again h (ih hq)

theorem Loops.next {S : Signature} {ι ω : Type} {body : ι → Prog S (ι ⊕ ω)} {p : Prog S (ι ⊕ ω)}
    {t : List (Event S)} {i : ι} (h : Loops body p t (.ret (.inl i))) : Loops body p t (body i) := by
  generalize hq : (Prog.ret (.inl i) : Prog S (ι ⊕ ω)) = q at h
  induction h with
  | @within _ _ t h =>
    subst hq
    rw [← List.append_nil t]
    exact .again h (.within (.refl _))
  | again h _ ih => exact .again h (ih hq)

namespace Forks
variable {S : Signature} {ι ω σ δ φ : Type}

structure State (S : Signature) (ι ω σ δ : Type) where
  shared : σ
  next : Nat
  procs : Nat → Option (Proc S ι ω δ)

/-- A step of one process. -/
inductive Step (sys : Forks S ι ω σ δ) : State S ι ω σ δ → State S ι ω σ δ → Prop
  | again {s : State S ι ω σ δ} {n : Nat} {p : Proc S ι ω δ} {i : ι} (runs : s.procs n = some p)
      (ended : p.left = .ret (.inl i)) :
      Step sys s { s with procs := Function.update s.procs n (some { p with left := sys.body i }) }
  | call {s : State S ι ω σ δ} {n : Nat} {p : Proc S ι ω δ} {c : S.Call} {k : S.Reply c → Prog S (ι ⊕ ω)}
      {r : S.Reply c} {t : σ} {own : δ} (runs : s.procs n = some p) (next : p.left = .call c k)
      (does : sys.Does n s.shared p.own c r t own) :
      Step sys s ⟨t, s.next, Function.update s.procs n (some ⟨own, p.began, p.calls ++ [⟨c, r⟩], k r⟩)⟩
  | fork {s : State S ι ω σ δ} {n : Nat} {p : Proc S ι ω δ} {k : S.Reply sys.fork → Prog S (ι ⊕ ω)}
      {r : S.Reply sys.fork} (runs : s.procs n = some p) (next : p.left = .call sys.fork k)
      (forked : sys.Forked r) :
      Step sys s ⟨s.shared, s.next + 1, Function.update
        (Function.update s.procs n (some ⟨p.own, p.began, p.calls ++ [⟨sys.fork, r⟩], k r⟩)) s.next
        (some (.start p.own (k sys.child)))⟩
  | ends {s : State S ι ω σ δ} {n : Nat} {p : Proc S ι ω δ} (runs : s.procs n = some p) :
      Step sys s { s with procs := Function.update s.procs n none }

abbrev Run (sys : Forks S ι ω σ δ) : State S ι ω σ δ → State S ι ω σ δ → Prop := Relation.ReflTransGen sys.Step

/-- One process, which begins with a program. -/
def State.init (s : σ) (own : δ) (p : Prog S (ι ⊕ ω)) : State S ι ω σ δ :=
  ⟨s, 1, Function.update (fun _ => none) 0 (some (.start own p))⟩

def State.own (s : State S ι ω σ δ) : Nat → Option δ := Option.map Proc.own ∘ s.procs

variable {sys : Forks S ι ω σ δ} {s t : State S ι ω σ δ} {s₀ : σ} {own₀ : δ} {p₀ : Prog S (ι ⊕ ω)}

theorem update_some {α : Type} {f : Nat → Option α} {m n : Nat} {q : Option α} {p : α}
    (h : Function.update f m q n = some p) : (n = m ∧ q = some p) ∨ (n ≠ m ∧ f n = some p) := by
  by_cases hn : n = m
  · subst hn
    rw [Function.update_self] at h
    exact .inl ⟨rfl, h⟩
  · rw [Function.update_of_ne hn] at h
    exact .inr ⟨hn, h⟩

theorem update_forall {α : Type} {P : Nat → α → Prop} {f : Nat → Option α} {m : Nat} {q : α}
    (h : ∀ n p, f n = some p → P n p) (hq : P m q) (n : Nat) (p : α)
    (hp : Function.update f m (some q) n = some p) : P n p := by
  rcases update_some hp with ⟨rfl, hq'⟩ | ⟨-, hp⟩
  · cases hq'
    exact hq
  · exact h n p hp

/-- What holds of the first process, is kept by what a process does, and passes on to its children, holds of all
processes. -/
theorem Run.each {P : Nat → Proc S ι ω δ → Prop} (hfirst : P 0 (.start own₀ p₀))
    (hagain : ∀ {n p i}, P n p → p.left = .ret (.inl i) → P n { p with left := sys.body i })
    (hcall : ∀ {n p c k}, P n p → p.left = .call c k → ∀ (own : δ) (r : S.Reply c),
      P n ⟨own, p.began, p.calls ++ [⟨c, r⟩], k r⟩)
    (hfork : ∀ {n p k}, P n p → p.left = .call sys.fork k → ∀ m ≠ 0, P m (.start p.own (k sys.child)))
    (h : sys.Run (.init s₀ own₀ p₀) s) : 0 < s.next ∧ ∀ n p, s.procs n = some p → P n p := by
  induction h with
  | refl => exact ⟨Nat.one_pos, update_forall (fun _ _ => nofun) hfirst⟩
  | tail _ step ih =>
    obtain ⟨hnext, heach⟩ := ih
    cases step with
    | again runs ended => exact ⟨hnext, update_forall heach (hagain (heach _ _ runs) ended)⟩
    | call runs next does => exact ⟨hnext, update_forall heach (hcall (heach _ _ runs) next _ _)⟩
    | fork runs next forked =>
      refine ⟨Nat.succ_pos _, update_forall (update_forall heach ?_) ?_⟩
      · exact hcall (heach _ _ runs) next _ _
      · exact hfork (heach _ _ runs) next _ (Nat.pos_iff_ne_zero.mp hnext)
    | ends runs =>
      refine ⟨hnext, fun n p hp => ?_⟩
      rcases update_some hp with ⟨-, hp⟩ | ⟨-, hp⟩
      · cases hp
      · exact heach n p hp

/-- Every process has done what the program does with which it began, and the bodies after it. -/
theorem Run.loops (h : sys.Run (.init s₀ own₀ p₀) s) {n : Nat} {p : Proc S ι ω δ} (hp : s.procs n = some p) :
    Loops sys.body p.began p.calls p.left := by
  refine (Run.each (P := fun _ p => Loops sys.body p.began p.calls p.left) ?_ ?_ ?_ ?_ h).2 n p hp
  · exact .within (.refl p₀)
  · intro n p i hloops hleft
    rw [hleft] at hloops
    exact hloops.next
  · intro n p c k hloops hleft own r
    rw [hleft] at hloops
    exact hloops.call r
  · exact fun _ _ _ _ => .within (.refl _)

/-- Children that a program forks begin with programs `B`. -/
def Spawns (sys : Forks S ι ω σ δ) (B : Prog S (ι ⊕ ω) → Prop) : Prog S (ι ⊕ ω) → Prop
  | .ret _ => True
  | .call c k => (∀ h : sys.fork = c, B (k (h ▸ sys.child))) ∧ ∀ r, sys.Spawns B (k r)

theorem Spawns.of_only {B : Prog S (ι ⊕ ω) → Prop} {p : Prog S (ι ⊕ ω)} (h : p.Only fun c => sys.fork ≠ c) :
    sys.Spawns B p := by
  induction p with
  | ret a => trivial
  | call c k ih => exact ⟨fun hc => absurd hc h.1, fun r => ih r (h.2 r)⟩

/-- Process 0 has begun with its program, and every other with one that a child begins with. -/
theorem Run.began {B : Prog S (ι ⊕ ω) → Prop} (hp₀ : sys.Spawns B p₀) (hbody : ∀ i, sys.Spawns B (sys.body i))
    (hB : ∀ p, B p → sys.Spawns B p) (h : sys.Run (.init s₀ own₀ p₀) s) {n : Nat} {p : Proc S ι ω δ}
    (hp : s.procs n = some p) : (n = 0 ∧ p.began = p₀) ∨ (n ≠ 0 ∧ B p.began) := by
  refine ((Run.each (P := fun n p => ((n = 0 ∧ p.began = p₀) ∨ (n ≠ 0 ∧ B p.began)) ∧ sys.Spawns B p.left)
    ?_ ?_ ?_ ?_ h).2 n p hp).1
  · exact ⟨.inl ⟨rfl, rfl⟩, hp₀⟩
  · exact fun ⟨hbegan, _⟩ _ => ⟨hbegan, hbody _⟩
  · rintro n p c k ⟨hbegan, hleft⟩ hcall own r
    rw [hcall] at hleft
    exact ⟨hbegan, hleft.2 r⟩
  · rintro n p k ⟨-, hleft⟩ hcall m hm
    rw [hcall] at hleft
    have hchild := hleft.1 rfl
    exact ⟨.inr ⟨hm, hchild⟩, hB _ hchild⟩

/-- The processes are in phases `x` of a protocol, which agree with what is shared and what belongs to each. -/
structure Phased (M : Moves S φ) (Q : φ → ι ⊕ ω → Prop) (Inv : σ → Nat → (Nat → Option δ) → (Nat → φ) → Prop)
    (s : State S ι ω σ δ) (x : Nat → φ) : Prop where
  inv : Inv s.shared s.next s.own x
  follows (n : Nat) (p : Proc S ι ω δ) (runs : s.procs n = some p) : p.left.Follows M Q (x n)

theorem follows_update {M : Moves S φ} {Q : φ → ι ⊕ ω → Prop} {f : Nat → Option (Proc S ι ω δ)} {x : Nat → φ}
    {m : Nat} {y : φ} {q : Proc S ι ω δ} (h : ∀ n p, f n = some p → p.left.Follows M Q (x n))
    (hq : q.left.Follows M Q y) (n : Nat) (p : Proc S ι ω δ) (hp : Function.update f m (some q) n = some p) :
    p.left.Follows M Q (Function.update x m y n) := by
  rcases update_some hp with ⟨rfl, hq'⟩ | ⟨hne, hp⟩
  · cases hq'
    rwa [Function.update_self]
  · rw [Function.update_of_ne hne]
    exact h n p hp

/-- What every move of every process preserves holds throughout a run. -/
theorem Run.phased {M : Moves S φ} {Q : φ → ι ⊕ ω → Prop} {Inv : σ → Nat → (Nat → Option δ) → (Nat → φ) → Prop}
    (hbody : ∀ {i y}, Q y (.inl i) → (sys.body i).Follows M Q y)
    (hcall : ∀ {s next own x n d c r t d' y}, Inv s next own x → own n = some d → M (x n) c r y →
      sys.Does n s d c r t d' → Inv t next (Function.update own n (some d')) (Function.update x n y))
    (hfork : ∀ {s next own x n d r y z}, Inv s next own x → own n = some d → M (x n) sys.fork r y →
      sys.Forked r → M (x n) sys.fork sys.child z → Inv s (next + 1) (Function.update own next (some d))
        (Function.update (Function.update x n y) next z))
    (hends : ∀ {s next own x n}, Inv s next own x → Inv s next (Function.update own n none) x)
    {x : Nat → φ} (h : Phased M Q Inv s x) (hrun : sys.Run s t) : ∃ y, Phased M Q Inv t y := by
  have same {s : State S ι ω σ δ} {n : Nat} {p : Proc S ι ω δ} (runs : s.procs n = some p) :
      Function.update s.own n (some p.own) = s.own :=
    Function.update_eq_self_iff.mpr (congrArg (Option.map Proc.own) runs.symm)
  induction hrun with
  | refl => exact ⟨x, h⟩
  | @tail s _ _ step ih =>
    obtain ⟨x, hinv, hfollows⟩ := ih
    cases step with
    | @again n p i runs ended =>
      have hleft := hfollows n p runs
      rw [ended] at hleft
      refine ⟨x, ?_, ?_⟩
      · rw [State.own, Function.comp_update]
        exact (same runs).symm ▸ hinv
      · have hnext := follows_update (m := n) hfollows (q := { p with left := sys.body i }) (hbody hleft)
        rwa [Function.update_eq_self] at hnext
    | @call n p c k r u own runs next does =>
      have hleft := hfollows n p runs
      rw [next] at hleft
      obtain ⟨y, hy, hk⟩ := hleft r
      refine ⟨Function.update x n y, ?_, follows_update hfollows hk⟩
      rw [State.own, Function.comp_update]
      exact hcall hinv (congrArg (Option.map Proc.own) runs) hy does
    | @fork n p k r runs next forked =>
      have hleft := hfollows n p runs
      rw [next] at hleft
      obtain ⟨y, hy, hk⟩ := hleft r
      obtain ⟨z, hz, hchild⟩ := hleft sys.child
      refine ⟨Function.update (Function.update x n y) s.next z, ?_, ?_⟩
      · have hforked := hfork hinv (congrArg (Option.map Proc.own) runs) hy forked hz
        rw [← same runs] at hforked
        rw [State.own, Function.comp_update, Function.comp_update]
        exact hforked
      · exact follows_update (follows_update hfollows hk) hchild
    | @ends n p runs =>
      refine ⟨x, ?_, fun m q hq => ?_⟩
      · rw [State.own, Function.comp_update]
        exact hends hinv
      · rcases update_some hq with ⟨-, hq⟩ | ⟨-, hq⟩
        · cases hq
        · exact hfollows m q hq

end Forks
end Interaction
