import Mathlib.Tactic.TypeStar

/-! Programs as trees of calls to an interface, and their labelled runs. -/
namespace Interaction

/-- The calls a program can make, each with the type of its answer. -/
structure Signature where
  Call : Type
  Reply : Call → Type

/-- A program has either finished, or makes a call and goes on with the answer. -/
inductive Prog (S : Signature) (α : Type) where
  | ret : α → Prog S α
  | call : (c : S.Call) → (S.Reply c → Prog S α) → Prog S α

namespace Prog
variable {S : Signature} {α β γ : Type}

protected def bind : Prog S α → (α → Prog S β) → Prog S β
  | .ret a, f => f a
  | .call c k, f => .call c fun r => (k r).bind f

instance : Monad (Prog S) where
  pure := .ret
  bind := Prog.bind

@[simp] theorem pure_eq (a : α) : (pure a : Prog S α) = .ret a := rfl

@[simp] theorem ret_bind (a : α) (f : α → Prog S β) : (Prog.ret a >>= f) = f a := rfl

@[simp] theorem call_bind (c : S.Call) (k : S.Reply c → Prog S α) (f : α → Prog S β) :
    (Prog.call c k >>= f) = .call c fun r => k r >>= f := rfl

private theorem bind_ret (p : Prog S α) : (p >>= Prog.ret) = p := by
  induction p with
  | ret a => rfl
  | call c k ih => simp only [call_bind, ih]

private theorem bind_bind (p : Prog S α) (f : α → Prog S β) (g : β → Prog S γ) :
    (p >>= f >>= g) = p >>= fun a => f a >>= g := by
  induction p with
  | ret a => rfl
  | call c k ih => simp only [call_bind, ih]

instance : LawfulMonad (Prog S) :=
  LawfulMonad.mk' (Prog S) (fun p => bind_ret p) (fun _ _ => rfl) bind_bind

end Prog

/-- One call together with the answer it got. -/
structure Event (S : Signature) where
  call : S.Call
  reply : S.Reply call

/-- `Runs p t q`: the calls and answers `t` take the program from `p` to `q`. -/
inductive Runs {S : Signature} {α : Type} : Prog S α → List (Event S) → Prog S α → Prop
  | refl (p : Prog S α) : Runs p [] p
  | step {c : S.Call} {k : S.Reply c → Prog S α} {t : List (Event S)} {q : Prog S α}
      (r : S.Reply c) (h : Runs (k r) t q) : Runs (.call c k) (⟨c, r⟩ :: t) q

namespace Runs
variable {S : Signature} {α β : Type}

theorem ret_iff {a : α} {t : List (Event S)} {q : Prog S α} :
    Runs (.ret a) t q ↔ t = [] ∧ q = .ret a := by
  constructor
  · rintro ⟨⟩
    exact ⟨rfl, rfl⟩
  · rintro ⟨rfl, rfl⟩
    exact .refl _

theorem call_ret_iff {c : S.Call} {k : S.Reply c → Prog S α} {t : List (Event S)} {a : α} :
    Runs (.call c k) t (.ret a) ↔ ∃ r u, t = ⟨c, r⟩ :: u ∧ Runs (k r) u (.ret a) := by
  constructor
  · rintro ⟨⟩
    exact ⟨_, _, rfl, ‹_›⟩
  · rintro ⟨r, u, rfl, h⟩
    exact .step r h

theorem call_cases {c : S.Call} {k : S.Reply c → Prog S α} {t : List (Event S)} {q : Prog S α}
    (h : Runs (.call c k) t q) :
    (t = [] ∧ q = .call c k) ∨ ∃ r u, t = ⟨c, r⟩ :: u ∧ Runs (k r) u q := by
  cases h with
  | refl => exact .inl ⟨rfl, rfl⟩
  | step r h => exact .inr ⟨r, _, rfl, h⟩

theorem trans {p q r : Prog S α} {t u : List (Event S)} (h : Runs p t q) (h' : Runs q u r) :
    Runs p (t ++ u) r := by
  induction h with
  | refl => exact h'
  | step a _ ih => exact .step a (ih h')

theorem bind {p q : Prog S α} {t : List (Event S)} (h : Runs p t q) (f : α → Prog S β) :
    Runs (p >>= f) t (q >>= f) := by
  induction h with
  | refl => exact .refl _
  | step a _ ih => exact .step a ih

theorem bind_ret_iff {p : Prog S α} {f : α → Prog S β} {t : List (Event S)} {b : β} :
    Runs (p >>= f) t (.ret b) ↔
      ∃ t₁ t₂ a, t = t₁ ++ t₂ ∧ Runs p t₁ (.ret a) ∧ Runs (f a) t₂ (.ret b) := by
  constructor
  · intro h
    induction p generalizing t with
    | ret a => exact ⟨[], t, a, rfl, .refl _, h⟩
    | call c k ih =>
      obtain ⟨r, u, rfl, hu⟩ := call_ret_iff.mp h
      obtain ⟨t₁, t₂, a, rfl, h₁, h₂⟩ := ih r hu
      exact ⟨_, t₂, a, rfl, .step r h₁, h₂⟩
  · rintro ⟨t₁, t₂, a, rfl, h₁, h₂⟩
    exact (h₁.bind f).trans h₂

theorem bind_cases {p : Prog S α} {f : α → Prog S β} {t : List (Event S)} {q : Prog S β}
    (h : Runs (p >>= f) t q) :
    (∃ r, Runs p t r ∧ q = r >>= f) ∨
      ∃ t₁ t₂ a, t = t₁ ++ t₂ ∧ Runs p t₁ (.ret a) ∧ Runs (f a) t₂ q := by
  induction p generalizing t with
  | ret a => exact .inr ⟨[], t, a, rfl, .refl _, h⟩
  | call c k ih =>
    cases h with
    | refl => exact .inl ⟨_, .refl _, rfl⟩
    | step r h =>
      rcases ih r h with ⟨p', hp', hq⟩ | ⟨t₁, t₂, a, rfl, h₁, h₂⟩
      · exact .inl ⟨p', .step r hp', hq⟩
      · exact .inr ⟨_, t₂, a, rfl, .step r h₁, h₂⟩

theorem bind_rest {p : Prog S α} {f : α → Prog S β} {t u : List (Event S)} {a : α} {q : Prog S β}
    (h : Runs p t (.ret a)) (h' : Runs (p >>= f) (t ++ u) q) : Runs (f a) u q := by
  induction p generalizing t with
  | ret b =>
    obtain ⟨rfl, hb⟩ := ret_iff.mp h
    cases hb
    exact h'
  | call c k ih =>
    obtain ⟨r, t', rfl, ht⟩ := call_ret_iff.mp h
    cases h' with
    | step _ hrest => exact ih r ht hrest

end Runs

/-- Runs of a body that is started over while it returns on the left. -/
inductive Loops {S : Signature} {ι ω : Type} (body : ι → Prog S (ι ⊕ ω)) :
    Prog S (ι ⊕ ω) → List (Event S) → Prog S (ι ⊕ ω) → Prop
  | within {p q : Prog S (ι ⊕ ω)} {t : List (Event S)} (h : Runs p t q) : Loops body p t q
  | again {p q : Prog S (ι ⊕ ω)} {i : ι} {t u : List (Event S)} (h : Runs p t (.ret (.inl i)))
      (rest : Loops body (body i) u q) : Loops body p (t ++ u) q

/-- Every call that a program may come to make satisfies `P`. -/
def Prog.Only {S : Signature} {α : Type} (P : S.Call → Prop) : Prog S α → Prop
  | .ret _ => True
  | .call c k => P c ∧ ∀ r, (k r).Only P

namespace Prog.Only
variable {S : Signature} {α β ι ω : Type} {P : S.Call → Prop}

theorem bind {p : Prog S α} (h : p.Only P) {f : α → Prog S β} (hf : ∀ a, (f a).Only P) :
    (p >>= f).Only P := by
  induction p with
  | ret a => exact hf a
  | call c k ih => exact ⟨h.1, fun r => ih r (h.2 r)⟩

theorem ite {c : Prop} [Decidable c] {p q : Prog S α} (hp : p.Only P) (hq : q.Only P) :
    (if c then p else q).Only P := by
  split
  · exact hp
  · exact hq

theorem runs {p q : Prog S α} {t : List (Event S)} (h : p.Only P) (ht : Runs p t q) :
    ∀ ev ∈ t, P ev.call := by
  induction ht with
  | refl => simp
  | step r _ ih =>
    intro ev hev
    rcases List.mem_cons.mp hev with rfl | hev
    · exact h.1
    · exact ih (h.2 r) ev hev

/-- A loop whose passes lead from states of the kind `I` to such states again. -/
theorem loops {body : ι → Prog S (ι ⊕ ω)} {I : ι → Prop} (hbody : ∀ i, I i → (body i).Only P)
    (hnext : ∀ i t j, I i → Runs (body i) t (.ret (.inl j)) → I j) {p q : Prog S (ι ⊕ ω)}
    {t : List (Event S)} (h : p.Only P) (hfirst : ∀ t j, Runs p t (.ret (.inl j)) → I j)
    (ht : Loops body p t q) : ∀ ev ∈ t, P ev.call := by
  induction ht with
  | within ht => exact h.runs ht
  | again ht _ ih =>
    have hi := hfirst _ _ ht
    intro ev hev
    rcases List.mem_append.mp hev with hev | hev
    · exact h.runs ht ev hev
    · exact ih (hbody _ hi) (fun t j => hnext _ t j hi) ev hev

end Prog.Only

/-- Every result a program may come to satisfies `P`. -/
def Prog.Ends {S : Signature} {α : Type} (P : α → Prop) : Prog S α → Prop
  | .ret a => P a
  | .call _ k => ∀ r, (k r).Ends P

namespace Prog.Ends
variable {S : Signature} {α β : Type} {P : β → Prop}

theorem bind (p : Prog S α) {f : α → Prog S β} (hf : ∀ a, (f a).Ends P) : (p >>= f).Ends P := by
  induction p with
  | ret a => exact hf a
  | call c k ih => exact fun r => ih r

theorem ite {c : Prop} [Decidable c] {p q : Prog S β} (hp : c → p.Ends P) (hq : ¬ c → q.Ends P) :
    (if c then p else q).Ends P := by
  split
  · exact hp ‹_›
  · exact hq ‹_›

theorem runs {p : Prog S β} {t : List (Event S)} {b : β} (h : p.Ends P) (ht : Runs p t (.ret b)) :
    P b := by
  induction p generalizing t with
  | ret a =>
    obtain ⟨-, hb⟩ := Runs.ret_iff.mp ht
    cases hb
    exact h
  | call c k ih =>
    obtain ⟨r, u, -, hu⟩ := Runs.call_ret_iff.mp ht
    exact ih r (h r) hu

end Prog.Ends

/-- As long as every answer satisfies `A`, every call satisfies `P`, and the result `Q`. -/
def Prog.Meets {S : Signature} {α : Type} (A : (c : S.Call) → S.Reply c → Prop) (P : S.Call → Prop)
    (Q : α → Prop) : Prog S α → Prop
  | .ret a => Q a
  | .call c k => P c ∧ ∀ r, A c r → (k r).Meets A P Q

namespace Prog.Meets
variable {S : Signature} {α β : Type} {A : (c : S.Call) → S.Reply c → Prop} {P : S.Call → Prop}
  {Q : α → Prop} {R : β → Prop}

theorem bind {p : Prog S α} (h : p.Meets A P Q) {f : α → Prog S β}
    (hf : ∀ a, Q a → (f a).Meets A P R) : (p >>= f).Meets A P R := by
  induction p with
  | ret a => exact hf a h
  | call c k ih => exact ⟨h.1, fun r hr => ih r (h.2 r hr)⟩

theorem ite {c : Prop} [Decidable c] {p q : Prog S α} (hp : c → p.Meets A P Q)
    (hq : ¬ c → q.Meets A P Q) : (if c then p else q).Meets A P Q := by
  split
  · exact hp ‹_›
  · exact hq ‹_›

theorem mono {p : Prog S α} {Q' : α → Prop} (h : p.Meets A P Q) (hQ : ∀ a, Q a → Q' a) :
    p.Meets A P Q' := by
  induction p with
  | ret a => exact hQ a h
  | call c k ih => exact ⟨h.1, fun r hr => ih r (h.2 r hr)⟩

theorem of_only {p : Prog S α} (h : p.Only P) : p.Meets A P fun _ => True := by
  induction p with
  | ret a => trivial
  | call c k ih => exact ⟨h.1, fun r _ => ih r (h.2 r)⟩

theorem runs {p q : Prog S α} {t : List (Event S)} (h : p.Meets A P Q) (ht : Runs p t q)
    (hA : ∀ ev ∈ t, A ev.call ev.reply) : ∀ ev ∈ t, P ev.call := by
  induction ht with
  | refl => exact nofun
  | step r _ ih =>
    have hr := hA _ List.mem_cons_self
    intro ev hev
    rcases List.mem_cons.mp hev with rfl | hev
    · exact h.1
    · exact ih (h.2 r hr) (fun ev hev => hA ev (List.mem_cons_of_mem _ hev)) ev hev

theorem rest {p q : Prog S α} {t : List (Event S)} (h : p.Meets A P Q) (ht : Runs p t q)
    (hA : ∀ ev ∈ t, A ev.call ev.reply) : q.Meets A P Q := by
  induction ht with
  | refl => exact h
  | step r _ ih =>
    obtain ⟨hr, hrest⟩ := List.forall_mem_cons.mp hA
    exact ih (h.2 r hr) hrest

theorem result {p : Prog S α} {t : List (Event S)} {a : α} (h : p.Meets A P Q)
    (ht : Runs p t (.ret a)) (hA : ∀ ev ∈ t, A ev.call ev.reply) : Q a := by
  induction p generalizing t with
  | ret b =>
    obtain ⟨-, hb⟩ := Runs.ret_iff.mp ht
    cases hb
    exact h
  | call c k ih =>
    obtain ⟨r, u, rfl, hu⟩ := Runs.call_ret_iff.mp ht
    have hr := hA _ List.mem_cons_self
    exact ih r (h.2 r hr) hu fun ev hev => hA ev (List.mem_cons_of_mem _ hev)

end Prog.Meets

/-- A program whose calls are carried out by programs over another interface. -/
def Prog.handle {S T : Signature} {α : Type} (h : (c : S.Call) → Prog T (S.Reply c)) :
    Prog S α → Prog T α
  | .ret a => .ret a
  | .call c k => h c >>= fun r => (k r).handle h

theorem Prog.handle_bind {S T : Signature} {α β : Type} (h : (c : S.Call) → Prog T (S.Reply c))
    (p : Prog S α) (f : α → Prog S β) :
    (p >>= f).handle h = p.handle h >>= fun a => (f a).handle h := by
  induction p with
  | ret a => rfl
  | call c k ih =>
    simp only [Prog.call_bind, Prog.handle, ih, bind_assoc]

/-! Programs whose calls all have answers that are fixed in advance. -/

namespace Prog
variable {S : Signature} {α β : Type} (answer : (c : S.Call) → S.Reply c)

def eval : Prog S α → α
  | .ret a => a
  | .call c k => (k (answer c)).eval

/-- The calls that a program makes, in order. -/
def calls : Prog S α → List S.Call
  | .ret _ => []
  | .call c k => c :: (k (answer c)).calls

@[simp] theorem eval_ret (a : α) : (Prog.ret a : Prog S α).eval answer = a := rfl

@[simp] theorem calls_ret (a : α) : (Prog.ret a : Prog S α).calls answer = [] := rfl

@[simp] theorem eval_call (c : S.Call) (k : S.Reply c → Prog S α) :
    (Prog.call c k).eval answer = (k (answer c)).eval answer := rfl

@[simp] theorem calls_call (c : S.Call) (k : S.Reply c → Prog S α) :
    (Prog.call c k).calls answer = c :: (k (answer c)).calls answer := rfl

@[simp] theorem eval_bind (p : Prog S α) (f : α → Prog S β) :
    (p >>= f).eval answer = (f (p.eval answer)).eval answer := by
  induction p with
  | ret a => rfl
  | call c k ih => exact ih (answer c)

@[simp] theorem calls_bind (p : Prog S α) (f : α → Prog S β) :
    (p >>= f).calls answer = p.calls answer ++ (f (p.eval answer)).calls answer := by
  induction p with
  | ret a => rfl
  | call c k ih => exact congrArg (c :: ·) (ih (answer c))

@[simp] theorem eval_ite {c : Prop} [Decidable c] (p q : Prog S α) :
    (if c then p else q).eval answer = if c then p.eval answer else q.eval answer :=
  apply_ite (eval answer) c p q

@[simp] theorem calls_ite {c : Prop} [Decidable c] (p q : Prog S α) :
    (if c then p else q).calls answer = if c then p.calls answer else q.calls answer :=
  apply_ite (calls answer) c p q

theorem runs_eval (p : Prog S α) :
    Runs p ((p.calls answer).map fun c => ⟨c, answer c⟩) (.ret (p.eval answer)) := by
  induction p with
  | ret a => exact .refl _
  | call c k ih => exact .step _ (ih (answer c))

theorem eq_eval_of_runs {p : Prog S α} {t : List (Event S)} {a : α} (h : Runs p t (.ret a))
    (ht : ∀ ev ∈ t, ev.reply = answer ev.call) :
    a = p.eval answer ∧ t.map Event.call = p.calls answer := by
  induction p generalizing t with
  | ret b =>
    obtain ⟨rfl, hb⟩ := Runs.ret_iff.mp h
    cases hb
    exact ⟨rfl, rfl⟩
  | call c k ih =>
    obtain ⟨r, u, rfl, hu⟩ := Runs.call_ret_iff.mp h
    have hr : r = answer c := ht _ List.mem_cons_self
    subst hr
    obtain ⟨ha, hcalls⟩ := ih _ hu fun ev hev => ht ev (List.mem_cons_of_mem _ hev)
    exact ⟨ha, congrArg (c :: ·) hcalls⟩

end Prog
end Interaction
