import AgFS.Interaction.Completed

/-! Objects whose operations hold a monitor: whatever the interleaving of the calls of the threads that work on
them, these stand where threads could stand for which every operation is a single step. -/
namespace Interaction

variable {S A : Signature} {ι σ K : Type}

/-- Objects that threads share: what calls do to one of them, and the operations on it. Some operations are `Guarded`
by the monitor of the object, others look at it. -/
structure Objects (S A : Signature) (ι σ K : Type) where
  does : K → ι → σ → (c : S.Call) → S.Reply c → σ → Prop
  code : (c : K × A.Call) → Prog S (A.Reply c.2)
  Guarded : A.Call → Prop
  Looks : A.Call → Prop
  lock : S.Call
  unlock : S.Call
  holder : K → σ → Option ι

/-- Where a thread stands: what is left of its program over `S`, and over `A`, and the operation it is in the
middle of. -/
inductive Alongside (code : (c : A.Call) → Prog S (A.Reply c)) :
    Prog S Bool → Prog A Bool → Option (Task code) → Prop
  | between (q : Prog A Bool) : Alongside code (q.handle code) q none
  | within (task : Task code) (f : A.Reply task.op → Prog A Bool) (undone : ∀ a, task.left ≠ .ret a) :
      Alongside code (task.left >>= fun a => (f a).handle code) (.call task.op f) (some task)

namespace Alongside
variable {code : (c : A.Call) → Prog S (A.Reply c)} {q : Prog A Bool} {o : Option (Task code)}

theorem call (hbegins : ∀ c, ∃ c' f, code c = .call c' f) {c : S.Call} {k : S.Reply c → Prog S Bool}
    (h : Alongside code (.call c k) q o) :
    ∃ (task : Task code) (f : A.Reply task.op → Prog A Bool) (k' : S.Reply c → Prog S (A.Reply task.op)),
      task.Under o ∧ q = .call task.op f ∧ task.left = .call c k' ∧
        k = fun r => k' r >>= fun a => (f a).handle code := by
  generalize hp : Prog.call c k = p at h
  cases h with
  | between q =>
    cases q with
    | ret b => cases hp
    | call op f =>
      obtain ⟨c', k', hop⟩ := hbegins op
      rw [Prog.handle, hop] at hp
      cases hp
      exact ⟨⟨op, [], code op, .refl _⟩, f, k', .inr ⟨rfl, rfl⟩, rfl, hop, rfl⟩
  | within task f undone =>
    cases hleft : task.left with
    | ret a => exact absurd hleft (undone a)
    | call c' k' =>
      rw [hleft] at hp
      cases hp
      exact ⟨task, f, k', .inl rfl, rfl, hleft, rfl⟩

theorem idle (hbegins : ∀ c, ∃ c' f, code c = .call c' f) {b : Bool} (h : Alongside code (.ret b) q o) :
    q = .ret b ∧ o = none := by
  generalize hp : Prog.ret b = p at h
  cases h with
  | between q =>
    cases q with
    | ret b' =>
      cases hp
      exact ⟨rfl, rfl⟩
    | call op f =>
      obtain ⟨c', k', hop⟩ := hbegins op
      rw [Prog.handle, hop] at hp
      cases hp
  | within task f undone =>
    cases hleft : task.left with
    | ret a => exact absurd hleft (undone a)
    | call c' k' =>
      rw [hleft] at hp
      cases hp

end Alongside

namespace Threads

/-- Threads that work on the objects of a table. -/
def table [DecidableEq K] (does : K → ι → σ → (c : S.Call) → S.Reply c → σ → Prop)
    (Starts : ι → Prog (S.table K) Bool → Prop) : Threads (S.table K) ι (K → σ) where
  Does i s c r t := ∃ u, does c.1 i (s c.1) c.2 r u ∧ t = Function.update s c.1 u
  Starts := Starts

/-- Threads whose calls may come to anything. -/
def free (Starts : ι → Prog A Bool → Prop) : Threads A ι Unit := ⟨fun _ _ _ _ _ => True, Starts⟩

end Threads

namespace Objects
open Threads

/-- An operation on an object of the table. -/
def carry (O : Objects S A ι σ K) (c : (A.table K).Call) : Prog (S.table K) ((A.table K).Reply c) :=
  (O.code c).upon c.1

/-- Threads that run programs made of operations. -/
def threads [DecidableEq K] (O : Objects S A ι σ K) (Starts : ι → Prog (A.table K) Bool → Prop) :
    Threads (S.table K) ι (K → σ) :=
  table O.does fun i p => ∃ q, Starts i q ∧ p = q.handle O.carry

variable (O : Objects S A ι σ K) (L : K → Prop) (Gets : (c : A.Call) → A.Reply c → Prop) (Joins : ι → Prop)

/-- The monitor of an object of the kind `L` works, guarded operations hold it from their first call to their last, and
looking at an object is a single call that comes to what is in `Gets`. -/
structure Fenced (C : K → σ → ι → Event S → Prop) : Prop where
  begins (c : K × A.Call) : ∃ c' f, O.code c = .call c' f
  guarded {c : K × A.Call} : L c.1 → O.Guarded c.2 → (O.code c).Locked O.lock O.unlock
  looks {c : K × A.Call} : L c.1 → O.Looks c.2 → ∃ (c' : S.Call) (g : S.Reply c' → A.Reply c.2),
    O.code c = .call c' (fun r => .ret (g r)) ∧ c' ≠ O.lock ∧ c' ≠ O.unlock ∧
      ∀ {i s u r}, O.does c.1 i s c' r u → C c.1 s i ⟨c', r⟩ → Gets c.2 (g r)
  locks {k : K} {i : ι} {s u : σ} {r : S.Reply O.lock} :
    L k → O.does k i s O.lock r u → O.holder k s = none ∧ O.holder k u = some i
  unlocks {k : K} {i : ι} {s u : σ} {r : S.Reply O.unlock} :
    L k → O.does k i s O.unlock r u → O.holder k u = none
  others {k : K} {i : ι} {s u : σ} {c : S.Call} {r : S.Reply c} :
    L k → O.does k i s c r u → c ≠ O.lock → c ≠ O.unlock → O.holder k u = O.holder k s

/-- The condition on calls: they are made by threads that join, and those on objects of the kind `L` meet `C`. -/
def Calm (C : K → σ → ι → Event S → Prop) (s : K → σ) (i : ι) (ev : Event (S.table K)) : Prop :=
  Joins i ∧ (L ev.call.1 → C ev.call.1 (s ev.call.1) i ev.bare)

/-- On an object of the kind `L` only operations of the two kinds are performed, and only one thread at a time is in
the middle of one, which is guarded. -/
def Fair (middle : ι → Option (Task O.carry)) (i : ι) (op : K × A.Call) : Prop :=
  L op.1 → O.Looks op.2 ∨ O.Guarded op.2 ∧ ∀ j task, middle j = some task → task.op.1 = op.1 → j = i

/-- A program that performs only such operations on these objects, as long as what it looks at is in `Gets`. -/
def Proper (q : Prog (A.table K) Bool) : Prop :=
  q.Meets (fun (c : K × A.Call) (r : A.Reply c.2) => L c.1 → O.Looks c.2 → Gets c.2 r)
    (fun c : K × A.Call => L c.1 → O.Guarded c.2 ∨ O.Looks c.2) fun _ => True

variable [DecidableEq ι] [DecidableEq K]

/-- Threads beside those for which every operation is a single step. -/
structure Abreast (Starts : ι → Prog (A.table K) Bool → Prop) (t : State (S.table K) ι (K → σ))
    (u : State (A.table K) ι Unit) (log : List (ι × Event (S.table K))) (finished : List (ι × Completed O.carry))
    (middle : ι → Option (Task O.carry)) : Prop where
  told : Finishes O.carry (O.Fair L) log finished middle
  logs : (free Starts).Logs (fun _ _ _ => True) (.idle ()) (finished.map fun x => (x.1, x.2.event)) u
  stands (i : ι) : Alongside O.carry (t.running i) (u.running i) (middle i)
  proper (i : ι) : Joins i → O.Proper L Gets (u.running i)
  looked {x : ι × Completed O.carry} :
    x ∈ finished → L x.2.op.1 → O.Looks x.2.op.2 → Gets x.2.op.2 x.2.result
  holds {i : ι} {task : Task O.carry} : middle i = some task → L task.op.1 → O.Guarded task.op.2 ∧
    O.holder task.op.1 (t.shared task.op.1) = some i ∧
      task.left.Inside (S := S.table K) (task.op.1, O.lock) (task.op.1, O.unlock)

section Abreast
variable {O L Gets Joins} {C : K → σ → ι → Event S → Prop} {Starts : ι → Prog (A.table K) Bool → Prop}
  {t : State (S.table K) ι (K → σ)} {u : State (A.table K) ι Unit} {log : List (ι × Event (S.table K))}
  {finished : List (ι × Completed O.carry)} {middle : ι → Option (Task O.carry)} {i : ι}

omit [DecidableEq ι] [DecidableEq K] in
theorem Fenced.carry_begins (hfenced : O.Fenced L Gets C) (c : (A.table K).Call) :
    ∃ c' f, O.carry c = .call c' f := by
  obtain ⟨c', f, hc⟩ := hfenced.begins c
  exact ⟨(c.1, c'), _, by rw [carry, hc, Prog.upon]⟩

omit [DecidableEq ι] [DecidableEq K] in
theorem next_upon {task : Task O.carry} {c : K × S.Call} {k : S.Reply c.2 → Prog (S.table K) (A.Reply task.op.2)}
    (next : task.left = .call c k) (r : S.Reply c.2) : c.1 = task.op.1 :=
  (Prog.only_upon task.op.1 (O.code task.op)).runs (task.goOn (c := c) next r).runs ⟨c, r⟩
    (List.mem_append_right _ List.mem_cons_self)

omit [DecidableEq ι] [DecidableEq K] in
theorem Fenced.looks_step (hfenced : O.Fenced L Gets C) {task : Task O.carry} (hlisted : L task.op.1)
    (hlooks : O.Looks task.op.2) {c : S.Call} {k : S.Reply c → Prog (S.table K) (A.Reply task.op.2)}
    (next : task.left = .call (task.op.1, c) k) {s v : σ} {r : S.Reply c} (does : O.does task.op.1 i s c r v)
    (hmeets : C task.op.1 s i ⟨c, r⟩) :
    ∃ a, k r = .ret a ∧ O.holder task.op.1 v = O.holder task.op.1 s ∧ Gets task.op.2 a := by
  obtain ⟨c', g, hcode, hlock, hunlock, hgets⟩ := hfenced.looks hlisted hlooks
  have hruns := task.runs
  rw [carry, hcode, Prog.upon, next] at hruns
  rcases hruns.call_cases with ⟨-, hcall⟩ | ⟨r', u, -, hrest⟩
  · cases hcall
    exact ⟨g r, rfl, hfenced.others hlisted does hlock hunlock, hgets does hmeets⟩
  · cases (Runs.ret_iff.mp hrest).2

omit [DecidableEq ι] [DecidableEq K] in
theorem Fenced.guarded_step (hfenced : O.Fenced L Gets C) {task : Task O.carry} (hlisted : L task.op.1)
    (hguarded : O.Guarded task.op.2) {o : Option (Task O.carry)} (hunder : task.Under o) {s v : σ}
    (hholds : o = some task → O.holder task.op.1 s = some i ∧
      task.left.Inside (S := S.table K) (task.op.1, O.lock) (task.op.1, O.unlock))
    {c : S.Call} {k : S.Reply c → Prog (S.table K) (A.Reply task.op.2)} (next : task.left = .call (task.op.1, c) k)
    {r : S.Reply c} (does : O.does task.op.1 i s c r v) :
    (O.holder task.op.1 s = none ∨ O.holder task.op.1 s = some i) ∧ ((∃ a, k r = .ret a) ∨
      O.holder task.op.1 v = some i ∧ (k r).Inside (S := S.table K) (task.op.1, O.lock) (task.op.1, O.unlock)) := by
  rcases hunder with ho | ⟨-, hcalls⟩
  · obtain ⟨hholder, hinside⟩ := hholds ho
    rw [next] at hinside
    refine ⟨.inr hholder, ?_⟩
    rcases hinside with ⟨-, hret⟩ | ⟨hlock, hunlock, hrest⟩
    · exact .inl (hret r)
    · refine .inr ⟨?_, hrest r⟩
      rw [hfenced.others hlisted does (fun hc => hlock (hc ▸ rfl)) (fun hc => hunlock (hc ▸ rfl)), hholder]
  · obtain ⟨f, hcode, hinside⟩ := hfenced.guarded hlisted hguarded
    have hruns := task.runs
    rw [hcalls, carry, hcode, Prog.upon, next] at hruns
    cases hruns
    obtain ⟨hfree, hholder⟩ := hfenced.locks hlisted does
    exact ⟨.inl hfree, .inr ⟨hholder, Prog.inside_upon _ (hinside r)⟩⟩

omit [DecidableEq K] in
theorem Abreast.start (hfenced : O.Fenced L Gets C) (h : O.Abreast L Gets Joins Starts t u log finished middle)
    {q : Prog (A.table K) Bool} (idle : t.running i = .ret true) (starts : Starts i q)
    (hproper : Joins i → O.Proper L Gets q) :
    O.Abreast L Gets Joins Starts ⟨t.shared, Function.update t.running i (q.handle O.carry)⟩
      ⟨u.shared, Function.update u.running i q⟩ log finished middle := by
  have hstands := h.stands i
  rw [idle] at hstands
  obtain ⟨hidle, hmiddle⟩ := hstands.idle hfenced.carry_begins
  refine ⟨h.told, .start h.logs hidle starts, fun j => ?_, fun j hj => ?_, h.looked, h.holds⟩
  · by_cases hji : j = i
    · subst hji
      simpa [hmiddle] using Alongside.between q
    · simpa [hji] using h.stands j
  · by_cases hji : j = i
    · subst hji
      simpa using hproper hj
    · simpa [hji] using h.proper j hj

/-- Another thread that is in the middle of an operation still holds the monitor after a call. -/
theorem Abreast.kept (h : O.Abreast L Gets Joins Starts t u log finished middle) {x : K} {w : σ}
    (hsame : ∀ j ≠ i, ∀ task, middle j = some task → L x → task.op.1 = x → O.holder x w = some j) :
    ∀ j ≠ i, ∀ task, middle j = some task → L task.op.1 →
      O.holder task.op.1 (Function.update t.shared x w task.op.1) = some j := by
  intro j hji task hj hlisted
  by_cases hop : task.op.1 = x
  · rw [hop, Function.update_self]
    exact hsame j hji task hj (hop ▸ hlisted) hop
  · rw [Function.update_of_ne hop]
    exact (h.holds hj hlisted).2.1

/-- What the step of a thread in an operation depends on, what it leaves as it is, and where it leads. -/
theorem Abreast.step (hfenced : O.Fenced L Gets C) (h : O.Abreast L Gets Joins Starts t u log finished middle)
    {task : Task O.carry} {f : A.Reply task.op.2 → Prog (A.table K) Bool} (hunder : task.Under (middle i))
    (hq : u.running i = .call task.op f) {c : S.Call} {k : S.Reply c → Prog (S.table K) (A.Reply task.op.2)}
    (hleft : task.left = .call (task.op.1, c) k) {w : σ} {r : S.Reply c}
    (does : O.does task.op.1 i (t.shared task.op.1) c r w) (hjoins : Joins i)
    (hmeets : L task.op.1 → C task.op.1 (t.shared task.op.1) i ⟨c, r⟩) :
    O.Fair L middle i task.op ∧
      (∀ j ≠ i, ∀ task', middle j = some task' → L task'.op.1 →
        O.holder task'.op.1 (Function.update t.shared task.op.1 w task'.op.1) = some j) ∧
      (∀ a, k r = .ret a → O.Proper L Gets (f a) ∧ (L task.op.1 → O.Looks task.op.2 → Gets task.op.2 a)) ∧
      ((∀ a, k r ≠ .ret a) → L task.op.1 → O.Guarded task.op.2 ∧ O.holder task.op.1 w = some i ∧
        (k r).Inside (S := S.table K) (task.op.1, O.lock) (task.op.1, O.unlock)) := by
  have hproper := h.proper i hjoins
  rw [hq] at hproper
  obtain ⟨hallowed, hrest⟩ := hproper
  have hends (a : A.Reply task.op.2) (ha : k r = .ret a) :
      O.Proper L Gets (f a) ∧ (L task.op.1 → O.Looks task.op.2 → Gets task.op.2 a) := by
    have hlooked (hlisted : L task.op.1) (hlooks : O.Looks task.op.2) : Gets task.op.2 a := by
      obtain ⟨a', ha', -, hgets⟩ := hfenced.looks_step hlisted hlooks hleft does (hmeets hlisted)
      cases ha.symm.trans ha'
      exact hgets
    exact ⟨hrest a hlooked, hlooked⟩
  by_cases hlisted : L task.op.1
  · rcases hallowed hlisted with hguarded | hlooks
    · obtain ⟨hfree, hafter⟩ := hfenced.guarded_step hlisted hguarded hunder
        (fun ho => (h.holds ho hlisted).2) hleft does
      have hsole (j : ι) (task' : Task O.carry) (hj : middle j = some task') (hop : task'.op.1 = task.op.1) :
          j = i := by
        have hholder := (h.holds hj (hop ▸ hlisted)).2.1
        rw [hop] at hholder
        rcases hfree with hnone | hsome
        · exact nomatch hnone.symm.trans hholder
        · exact (Option.some.inj (hsome.symm.trans hholder)).symm
      refine ⟨fun _ => .inr ⟨hguarded, hsole⟩, ?_, hends, fun hundone _ => ⟨hguarded, ?_⟩⟩
      · exact h.kept fun j hji task' hj _ hop => absurd (hsole j task' hj hop) hji
      · exact hafter.resolve_left fun ⟨a, ha⟩ => hundone a ha
    · obtain ⟨a, ha, hholder, -⟩ := hfenced.looks_step hlisted hlooks hleft does (hmeets hlisted)
      refine ⟨fun _ => .inl hlooks, ?_, hends, fun hundone => absurd ha (hundone a)⟩
      refine h.kept fun j hji task' hj _ hop => ?_
      rw [hholder, ← hop]
      exact (h.holds hj (hop ▸ hlisted)).2.1
  · refine ⟨fun hl => absurd hl hlisted, ?_, hends, fun _ hl => absurd hl hlisted⟩
    exact h.kept fun _ _ _ _ hl => absurd hl hlisted

theorem Abreast.call (hfenced : O.Fenced L Gets C) (h : O.Abreast L Gets Joins Starts t u log finished middle)
    {c : K × S.Call} {k : S.Reply c.2 → Prog (S.table K) Bool} {r : S.Reply c.2} {v : K → σ}
    (next : t.running i = .call c k) (does : (O.threads Starts).Does i t.shared c r v)
    (hcalm : Calm L Joins C t.shared i ⟨c, r⟩) :
    ∃ finished' middle' u', O.Abreast L Gets Joins Starts ⟨v, Function.update t.running i (k r)⟩ u'
      (log ++ [(i, ⟨c, r⟩)]) finished' middle' := by
  have hstands := h.stands i
  rw [next] at hstands
  obtain ⟨task, f, k', hunder, hq, hleft, rfl⟩ := hstands.call hfenced.carry_begins
  obtain ⟨hjoins, hmeets⟩ := hcalm
  obtain ⟨w, does, rfl⟩ := does
  obtain ⟨x, c⟩ := c
  obtain rfl : x = task.op.1 := next_upon (c := (x, c)) hleft r
  obtain ⟨hfair, hkept, hends, hgoesOn⟩ := h.step hfenced hunder hq hleft does hjoins hmeets
  cases hresult : k' r with
  | ret a =>
    refine ⟨_, _, ⟨u.shared, Function.update u.running i (f a)⟩, .ends h.told hunder hfair hleft hresult, ?_,
      fun j => ?_, fun j hj => ?_, fun {x} hx => ?_, fun {j task'} hj hl => ?_⟩
    · rw [List.map_append, List.map_singleton]
      exact .call h.logs hq trivial trivial
    · by_cases hji : j = i
      · subst hji
        simpa [hresult] using Alongside.between (f a)
      · simpa [hji] using h.stands j
    · by_cases hji : j = i
      · subst hji
        simpa using (hends a hresult).1
      · simpa [hji] using h.proper j hj
    · rcases List.mem_append.mp hx with hx | hx
      · exact h.looked hx
      · obtain rfl := List.mem_singleton.mp hx
        exact (hends a hresult).2
    · by_cases hji : j = i
      · subst hji
        rw [Function.update_self] at hj
        cases hj
      · rw [Function.update_of_ne hji] at hj
        obtain ⟨hguarded, -, hinside⟩ := h.holds hj hl
        exact ⟨hguarded, hkept j hji task' hj hl, hinside⟩
  | call c' k'' =>
    have hundone (a : A.Reply task.op.2) : k' r ≠ .ret a := by
      rw [hresult]
      exact nofun
    refine ⟨_, _, u, .goesOn h.told hunder hfair hleft, h.logs, fun j => ?_, h.proper, h.looked,
      fun {j task'} hj hl => ?_⟩
    · by_cases hji : j = i
      · subst hji
        simp only [Function.update_self, hq]
        exact .within (task.goOn hleft r) f hundone
      · simpa [hji] using h.stands j
    · by_cases hji : j = i
      · subst hji
        rw [Function.update_self] at hj
        cases hj
        have hafter := hgoesOn hundone hl
        rwa [← Function.update_self (f := t.shared) task.op.1 w] at hafter
      · rw [Function.update_of_ne hji] at hj
        obtain ⟨hguarded, -, hinside⟩ := h.holds hj hl
        exact ⟨hguarded, hkept j hji task' hj hl, hinside⟩

/-- However the threads take turns, they stand where threads could stand for which every operation is a step. -/
theorem Fenced.abreast (hfenced : O.Fenced L Gets C)
    (hproper : ∀ {i q}, Joins i → Starts i q → O.Proper L Gets q) {s : K → σ}
    (hlog : (O.threads Starts).Logs (Calm L Joins C) (.idle s) log t) :
    ∃ finished middle u, O.Abreast L Gets Joins Starts t u log finished middle := by
  induction hlog with
  | nil =>
    refine ⟨[], fun _ => none, .idle (), .nil, .nil, fun i => ?_, fun i _ => trivial, nofun, nofun⟩
    exact Alongside.between (Prog.ret true)
  | start _ idle starts ih =>
    obtain ⟨finished, middle, u, h⟩ := ih
    obtain ⟨q, starts, rfl⟩ := starts
    exact ⟨finished, middle, _, h.start hfenced idle starts fun hjoins => hproper hjoins starts⟩
  | call _ next does meets ih =>
    obtain ⟨finished, middle, u, h⟩ := ih
    exact h.call hfenced next does meets

end Abreast
end Objects

namespace Threads

/-- Threads that may run more. -/
theorem Logs.starts_mono [DecidableEq ι] {does : ι → σ → (c : S.Call) → S.Reply c → σ → Prop}
    {Starts Starts' : ι → Prog S Bool → Prop} (hstarts : ∀ {i p}, Starts i p → Starts' i p)
    {C : σ → ι → Event S → Prop} {s t : State S ι σ} {log : List (ι × Event S)}
    (h : (⟨does, Starts⟩ : Threads S ι σ).Logs C s log t) :
    (⟨does, Starts'⟩ : Threads S ι σ).Logs C s log t := by
  induction h with
  | nil => exact .nil
  | start _ idle starts ih => exact ih.start idle (hstarts starts)
  | call _ next does meets ih => exact ih.call next does meets

variable [DecidableEq K]

def uponObject (k : K) (log : List (ι × Event (A.table K))) : List (Event A) :=
  (log.filter fun x => x.2.call.1 = k).map fun x => x.2.bare

theorem uponObject_cons (k : K) (x : ι × Event (A.table K)) (log : List (ι × Event (A.table K))) :
    uponObject k (x :: log) = (if x.2.call.1 = k then [x.2.bare] else []) ++ uponObject k log := by
  by_cases h : x.2.call.1 = k <;> simp [uponObject, h]

section Acts
variable {ρ : Type} {D : ρ → (c : A.Call) → A.Reply c → ρ → Prop} {s t : ρ}

theorem acts_nil (h : Acts D s [] t) : t = s := by
  cases h
  rfl

theorem acts_concat {events : List (Event A)} {c : A.Call} {r : A.Reply c}
    (h : Acts D s (events ++ [⟨c, r⟩]) t) : ∃ m, Acts D s events m ∧ D m c r t := by
  obtain ⟨m, hbefore, hlast⟩ := Acts.append_iff.mp h
  cases hlast with
  | cons does rest =>
    obtain rfl := acts_nil rest
    exact ⟨m, hbefore, does⟩

end Acts

variable [DecidableEq ι] {Starts : ι → Prog (A.table K) Bool → Prop}

/-- What may have come of the calls on each object, taken by itself, may have come of all the calls. -/
theorem Logs.realise {ρ : Type} {comes : K → ρ → (c : A.Call) → A.Reply c → ρ → Prop}
    {log : List (ι × Event (A.table K))} {u : State (A.table K) ι Unit}
    (h : (free Starts).Logs (fun _ _ _ => True) (.idle ()) log u) {s w : K → ρ}
    (hcomes : ∀ k, Acts (comes k) (s k) (uponObject k log) (w k)) :
    (table (fun k _ => comes k) Starts).Logs (fun _ _ _ => True) (.idle s) log ⟨w, u.running⟩ := by
  induction h generalizing w with
  | nil =>
    obtain rfl : w = s := funext fun k => acts_nil (hcomes k)
    exact .nil
  | start _ idle starts ih => exact .start (ih hcomes) idle starts
  | @call log u i c f r _ before next _ _ ih =>
    have hsame {k : K} (hk : c.1 ≠ k) : uponObject k (log ++ [(i, ⟨c, r⟩)]) = uponObject k log := by
      simp [uponObject, hk]
    have hlast : uponObject c.1 (log ++ [(i, ⟨c, r⟩)]) = uponObject c.1 log ++ [⟨c.2, r⟩] := by
      simp [uponObject, Event.bare]
    obtain ⟨m, hbefore, hdoes⟩ := acts_concat (hlast ▸ hcomes c.1)
    have hlog := ih (w := Function.update w c.1 m) fun k => by
      by_cases hk : c.1 = k
      · subst hk
        rw [Function.update_self]
        exact hbefore
      · rw [Function.update_of_ne (Ne.symm hk), ← hsame hk]
        exact hcomes k
    refine .call hlog next ⟨w c.1, ?_, ?_⟩ trivial
    · change comes c.1 (Function.update w c.1 m c.1) c.2 r (w c.1)
      rwa [Function.update_self]
    · rw [Function.update_idem, Function.update_eq_self]

end Threads
end Interaction
