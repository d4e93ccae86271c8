import AgFS.Interaction.Prog

/-! Programs that keep to a protocol: what they may call next depends on what they have
called so far, and on the answers. -/
namespace Interaction

/-- The moves of a protocol: `M x c r y` if in phase `x` the call `c` with the answer `r`
leads to phase `y`. -/
abbrev Moves (S : Signature) (φ : Type) := φ → (c : S.Call) → S.Reply c → φ → Prop

/-- From phase `x` on every call is a move, and the program ends in a phase of the kind `Q`. -/
def Prog.Follows {S : Signature} {φ α : Type} (M : Moves S φ) (Q : φ → α → Prop) :
    φ → Prog S α → Prop
  | x, .ret a => Q x a
  | x, .call c k => ∀ r, ∃ y, M x c r y ∧ (k r).Follows M Q y

namespace Prog.Follows
variable {S : Signature} {φ α β : Type} {M : Moves S φ} {Q : φ → α → Prop} {R : φ → β → Prop} {x : φ}

theorem bind {p : Prog S α} (h : p.Follows M Q x) {f : α → Prog S β}
    (hf : ∀ y a, Q y a → (f a).Follows M R y) : (p >>= f).Follows M R x := by
  induction p generalizing x with
  | ret a => exact hf x a h
  | call c k ih =>
    intro r
    obtain ⟨y, hy, hr⟩ := h r
    exact ⟨y, hy, ih r hr⟩

theorem mono {p : Prog S α} (h : p.Follows M Q x) {Q' : φ → α → Prop}
    (hQ : ∀ y a, Q y a → Q' y a) : p.Follows M Q' x := by
  induction p generalizing x with
  | ret a => exact hQ x a h
  | call c k ih =>
    intro r
    obtain ⟨y, hy, hr⟩ := h r
    exact ⟨y, hy, ih r hr⟩

theorem ite {c : Prop} [Decidable c] {p q : Prog S α} (hp : c → p.Follows M Q x)
    (hq : ¬ c → q.Follows M Q x) : (if c then p else q).Follows M Q x := by
  split
  · exact hp ‹_›
  · exact hq ‹_›

theorem of_only {p : Prog S α} (h : p.Only fun c => ∀ r, M x c r x) :
    p.Follows M (fun y _ => y = x) x := by
  induction p with
  | ret a => rfl
  | call c k ih => exact fun r => ⟨x, h.1 r, ih r (h.2 r)⟩

end Prog.Follows
end Interaction
