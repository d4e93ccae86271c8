import AgFS.Interaction.Threads

/-! Threads whose operations hold a monitor from their first call to their last: whatever the
interleaving, the operations come one after the other. -/
namespace Interaction

variable {S : Signature} {α β : Type}

/-- What is left of an operation that holds the monitor: it goes on without it being acquired or
given back, and gives it back with its last call. -/
def Prog.Inside (lock unlock : S.Call) : Prog S α → Prop
  | .ret _ => False
  | .call c k => (c = unlock ∧ ∀ r, ∃ a, k r = .ret a) ∨
      (c ≠ lock ∧ c ≠ unlock ∧ ∀ r, (k r).Inside lock unlock)

/-- An operation that holds the monitor from its first call to its last. -/
def Prog.Locked (lock unlock : S.Call) (p : Prog S α) : Prop :=
  ∃ k : S.Reply lock → Prog S α, p = .call lock k ∧ ∀ r, (k r).Inside lock unlock

theorem Prog.inside_last {lock unlock : S.Call} {k : S.Reply unlock → Prog S α} (h : ∀ r, ∃ a, k r = .ret a) :
    (Prog.call unlock k).Inside lock unlock := .inl ⟨rfl, h⟩

theorem Prog.inside_bind {lock unlock : S.Call} {P : S.Call → Prop} (hlock : ¬ P lock) (hunlock : ¬ P unlock)
    {p : Prog S α} (hp : p.Only P) {f : α → Prog S β} (hf : ∀ a, (f a).Inside lock unlock) :
    (p >>= f).Inside lock unlock := by
  induction p with
  | ret a => exact hf a
  | call c k ih =>
    exact .inr ⟨fun hc => hlock (hc ▸ hp.1), fun hc => hunlock (hc ▸ hp.1), fun r => ih r (hp.2 r)⟩

theorem Prog.Only.imp {P Q : S.Call → Prop} {p : Prog S α} (h : p.Only P) (himp : ∀ c, P c → Q c) : p.Only Q := by
  induction p with
  | ret a => trivial
  | call c k ih => exact ⟨himp c h.1, fun r => ih r (h.2 r)⟩

variable {Op : Type} {Res : Op → Type}

/-- An operation, as far as it has come. -/
structure Task (code : (o : Op) → Prog S (Res o)) where
  op : Op
  calls : List (Event S)
  left : Prog S (Res op)
  runs : Runs (code op) calls left

namespace Task
variable {code : (o : Op) → Prog S (Res o)}

def Done (task : Task code) : Prop := ∃ a, task.left = .ret a

def goOn (task : Task code) {c : S.Call} {k : S.Reply c → Prog S (Res task.op)} (h : task.left = .call c k)
    (r : S.Reply c) : Task code where
  op := task.op
  calls := task.calls ++ [⟨c, r⟩]
  left := k r
  runs := task.runs.trans (h ▸ .step r (.refl _))

end Task

/-- A program made of operations, and of calls of the kind `Aside` between them. `Gets` tells which
answers it reckons with. -/
inductive Woven (code : (o : Op) → Prog S (Res o)) (Aside : S.Call → Prop)
    (Gets : (c : S.Call) → S.Reply c → Prop) : Prog S β → Prop
  | ret (b : β) : Woven code Aside Gets (.ret b)
  | out {c : S.Call} {k : S.Reply c → Prog S β} (aside : Aside c)
      (rest : ∀ r, Gets c r → Woven code Aside Gets (k r)) : Woven code Aside Gets (.call c k)
  | op (o : Op) {k : Res o → Prog S β} (rest : ∀ a, Woven code Aside Gets (k a)) :
      Woven code Aside Gets (code o >>= k)

theorem Woven.call_cases {code : (o : Op) → Prog S (Res o)} {Aside : S.Call → Prop}
    {Gets : (c : S.Call) → S.Reply c → Prop} {c : S.Call}
    {k : S.Reply c → Prog S β} (h : Woven code Aside Gets (.call c k)) :
    (Aside c ∧ ∀ r, Gets c r → Woven code Aside Gets (k r)) ∨
      ∃ (o : Op) (l : Res o → Prog S β), (code o >>= l) = .call c k ∧ ∀ a, Woven code Aside Gets (l a) := by
  generalize hp : Prog.call c k = p at h
  cases h with
  | ret b => cases hp
  | out aside rest =>
    cases hp
    exact .inl ⟨aside, rest⟩
  | op o rest => exact .inr ⟨o, _, rfl, rest⟩

theorem Woven.bind {γ : Type} {code : (o : Op) → Prog S (Res o)} {Aside : S.Call → Prop}
    {Gets : (c : S.Call) → S.Reply c → Prop} {p : Prog S β} (h : Woven code Aside Gets p) {f : β → Prog S γ}
    (hf : ∀ b, Woven code Aside Gets (f b)) : Woven code Aside Gets (p >>= f) := by
  induction h with
  | ret b => exact hf b
  | out aside rest ih => exact .out aside ih
  | op o rest ih =>
    rw [bind_assoc]
    exact .op o ih

/-- A log in which the operations lie one after the other, strewn with calls of the kind `Aside`. -/
inductive Weaves {ι : Type} (code : (o : Op) → Prog S (Res o)) (Aside : S.Call → Prop) :
    List (ι × Event S) → List (ι × Task code) → Prop
  | nil : Weaves code Aside [] []
  | out {log : List (ι × Event S)} {tasks : List (ι × Task code)} {i : ι} {ev : Event S}
      (before : Weaves code Aside log tasks) (aside : Aside ev.call) : Weaves code Aside (log ++ [(i, ev)]) tasks
  | begins {log : List (ι × Event S)} {tasks : List (ι × Task code)} {i : ι} {task : Task code} {ev : Event S}
      (before : Weaves code Aside log tasks) (idle : ∀ x ∈ tasks, x.2.Done) (calls : task.calls = [ev]) :
      Weaves code Aside (log ++ [(i, ev)]) (tasks ++ [(i, task)])
  | goesOn {log : List (ι × Event S)} {tasks : List (ι × Task code)} {i : ι} {task : Task code} {c : S.Call}
      {k : S.Reply c → Prog S (Res task.op)} {r : S.Reply c}
      (before : Weaves code Aside log (tasks ++ [(i, task)])) (next : task.left = .call c k) :
      Weaves code Aside (log ++ [(i, ⟨c, r⟩)]) (tasks ++ [(i, task.goOn next r)])

namespace Weaves
variable {ι : Type} {code : (o : Op) → Prog S (Res o)} {Aside : S.Call → Prop} {log : List (ι × Event S)}
  {tasks : List (ι × Task code)}

theorem done (h : Weaves code Aside log tasks) : ∀ x ∈ tasks.dropLast, x.2.Done := by
  induction h with
  | nil => exact nofun
  | out _ _ ih => exact ih
  | begins _ idle _ _ => rwa [List.dropLast_concat]
  | goesOn _ _ ih =>
    rw [List.dropLast_concat] at ih ⊢
    exact ih

theorem mem (h : Weaves code Aside log tasks) {i : ι} {task : Task code} (ht : (i, task) ∈ tasks) {ev : Event S}
    (hev : ev ∈ task.calls) : (i, ev) ∈ log := by
  induction h generalizing task with
  | nil => cases ht
  | out _ _ ih => exact List.mem_append_left _ (ih ht hev)
  | begins _ _ calls ih =>
    rcases List.mem_append.mp ht with ht | ht
    · exact List.mem_append_left _ (ih ht hev)
    · obtain ⟨rfl, rfl⟩ := Prod.mk.inj (List.mem_singleton.mp ht)
      rw [calls, List.mem_singleton] at hev
      exact hev ▸ List.mem_append_right _ List.mem_cons_self
  | @goesOn _ _ j task' _ _ _ _ _ ih =>
    rcases List.mem_append.mp ht with ht | ht
    · exact List.mem_append_left _ (ih (List.mem_append_left _ ht) hev)
    · obtain ⟨rfl, rfl⟩ := Prod.mk.inj (List.mem_singleton.mp ht)
      rcases List.mem_append.mp hev with hev | hev
      · exact List.mem_append_left _ (@ih task' (List.mem_append_right _ List.mem_cons_self) hev)
      · exact List.mem_append_right _ (List.mem_singleton.mp hev ▸ List.mem_cons_self)

/-- What does not show in the calls between the operations is that of the operations, in their order. -/
theorem flatMap (h : Weaves code Aside log tasks) {γ : Type} {f : Event S → List γ}
    (hf : ∀ ev : Event S, Aside ev.call → f ev = []) :
    log.flatMap (fun x => f x.2) = tasks.flatMap fun x => x.2.calls.flatMap f := by
  induction h with
  | nil => rfl
  | out _ aside ih =>
    rw [List.flatMap_append, List.flatMap_singleton, hf _ aside, List.append_nil]
    exact ih
  | begins _ _ calls ih =>
    rw [List.flatMap_append, List.flatMap_append, List.flatMap_singleton, List.flatMap_singleton, ih, calls,
      List.flatMap_singleton]
  | goesOn _ _ ih =>
    rw [List.flatMap_append, List.flatMap_singleton] at ih ⊢
    rw [ih, List.flatMap_append, List.flatMap_singleton, Task.goOn, List.flatMap_append, List.flatMap_singleton,
      List.append_assoc]

theorem thread [DecidableEq ι] (h : Weaves code Aside log tasks) (i : ι) :
    Weaves code Aside (log.filter fun x => x.1 = i) (tasks.filter fun x => x.1 = i) := by
  induction h with
  | nil => exact .nil
  | @out _ _ j _ _ aside ih =>
    by_cases hj : j = i
    · simpa [hj] using ih.out (i := j) aside
    · simpa [hj] using ih
  | @begins _ _ j _ _ _ idle calls ih =>
    by_cases hj : j = i
    · simpa [hj] using ih.begins (i := j) (fun x hx => idle x (List.mem_filter.mp hx).1) calls
    · simpa [hj] using ih
  | @goesOn _ _ j _ _ _ r _ next ih =>
    by_cases hj : j = i
    · simp only [List.filter_append, List.filter_cons, hj, decide_true, if_true, List.filter_nil] at ih ⊢
      exact ih.goesOn next
    · simpa [hj] using ih

end Weaves

namespace Threads
variable {ι σ : Type} [DecidableEq ι]

/-- The calls that have been made in a run, each with its thread. -/
inductive Logs (sys : Threads S ι σ) (C : σ → ι → Event S → Prop) (s : State S ι σ) :
    List (ι × Event S) → State S ι σ → Prop
  | nil : Logs sys C s [] s
  | start {log : List (ι × Event S)} {t : State S ι σ} {i : ι} {p : Prog S Bool} (before : Logs sys C s log t)
      (idle : t.running i = .ret true) (starts : sys.Starts i p) :
      Logs sys C s log ⟨t.shared, Function.update t.running i p⟩
  | call {log : List (ι × Event S)} {t : State S ι σ} {i : ι} {c : S.Call} {k : S.Reply c → Prog S Bool}
      {r : S.Reply c} {u : σ} (before : Logs sys C s log t) (next : t.running i = .call c k)
      (does : sys.Does i t.shared c r u) (meets : C t.shared i ⟨c, r⟩) :
      Logs sys C s (log ++ [(i, ⟨c, r⟩)]) ⟨u, Function.update t.running i (k r)⟩

variable {sys : Threads S ι σ} {C : σ → ι → Event S → Prop} {s t : State S ι σ} {log : List (ι × Event S)}

theorem run_iff_logs : sys.Run C s t ↔ ∃ log, sys.Logs C s log t := by
  constructor
  · intro h
    induction h with
    | refl => exact ⟨[], .nil⟩
    | tail _ step ih =>
      obtain ⟨log, hlog⟩ := ih
      cases step with
      | start idle starts => exact ⟨log, .start hlog idle starts⟩
      | call next does meets => exact ⟨_, .call hlog next does meets⟩
  · rintro ⟨log, h⟩
    induction h with
    | nil => exact .refl
    | start _ idle starts ih => exact ih.tail (.start idle starts)
    | call _ next does meets ih => exact ih.tail (.call next does meets)

/-- What every call preserves still holds, and every call was made while it held. -/
theorem Logs.keeps {I : σ → Prop} {P : ι → Event S → Prop} (h : sys.Logs C s log t)
    (hcall : ∀ {i s c r u}, I s → sys.Does i s c r u → C s i ⟨c, r⟩ → I u ∧ P i ⟨c, r⟩) (hs : I s.shared) :
    I t.shared ∧ ∀ x ∈ log, P x.1 x.2 := by
  induction h with
  | nil => exact ⟨hs, nofun⟩
  | start _ _ _ ih => exact ih
  | call _ _ does meets ih =>
    obtain ⟨hinv, hlog⟩ := ih
    obtain ⟨hnext, hev⟩ := hcall hinv does meets
    exact ⟨hnext, List.forall_mem_append.mpr ⟨hlog, List.forall_mem_singleton.mpr hev⟩⟩

theorem Logs.acts {i : ι} {p q : Prog S Bool} {events : List (Event S)} {u : σ} (h : sys.Logs C s log t)
    (hp : t.running i = p) (hruns : Runs p events q)
    (hacts : Acts (fun s c r t => sys.Does i s c r t ∧ C s i ⟨c, r⟩) t.shared events u) :
    sys.Logs C s (log ++ events.map fun ev => (i, ev)) ⟨u, Function.update t.running i q⟩ := by
  induction hruns generalizing log t with
  | refl p =>
    cases hacts
    rw [List.map_nil, List.append_nil, ← hp, Function.update_eq_self]
    exact h
  | step r _ ih =>
    cases hacts with
    | cons does rest =>
      have hrest := ih (h.call hp does.1 does.2) (Function.update_self ..) rest
      rw [List.append_assoc, Function.update_idem] at hrest
      exact hrest

theorem Logs.plays {i : ι} {p q : Prog S Bool} {events : List (Event S)} {u : σ} (h : sys.Logs C s log t)
    (hidle : t.running i = .ret true) (hstarts : sys.Starts i p) (hruns : Runs p events q)
    (hacts : Acts (fun s c r t => sys.Does i s c r t ∧ C s i ⟨c, r⟩) t.shared events u) :
    sys.Logs C s (log ++ events.map fun ev => (i, ev)) ⟨u, Function.update t.running i q⟩ := by
  have hrest := (h.start hidle hstarts).acts (Function.update_self ..) hruns hacts
  rwa [Function.update_idem] at hrest

/-- A program that a thread has started, as far as it has come. -/
structure Started (Starts : Prog S Bool → Prop) where
  program : Prog S Bool
  starts : Starts program
  calls : List (Event S)
  left : Prog S Bool
  runs : Runs program calls left

/-- The calls of a thread are those of the programs it has started, one after the other. -/
theorem Logs.started {s : σ} (h : sys.Logs C (.idle s) log t) (i : ι) :
    ∃ programs : List (Started (sys.Starts i)),
      (log.filter fun x => x.1 = i).map Prod.snd = programs.flatMap Started.calls ∧
      (∀ p ∈ programs.dropLast, p.left = .ret true) ∧
      (programs.getLast?.map Started.left).getD (.ret true) = t.running i := by
  induction h with
  | nil => exact ⟨[], rfl, nofun, rfl⟩
  | @start log t j p before idle starts ih =>
    obtain ⟨programs, hcalls, hdone, hlast⟩ := ih
    by_cases hj : j = i
    · subst hj
      refine ⟨programs ++ [⟨p, starts, [], p, .refl p⟩], by simpa using hcalls, ?_, by simp⟩
      rw [List.dropLast_concat]
      rcases List.eq_nil_or_concat programs with rfl | ⟨init, last, rfl⟩
      · exact nofun
      · rw [List.concat_eq_append, List.dropLast_concat] at hdone
        rw [List.concat_eq_append]
        refine List.forall_mem_append.mpr ⟨hdone, List.forall_mem_singleton.mpr ?_⟩
        simpa [idle] using hlast
    · exact ⟨programs, hcalls, hdone, by simpa [Function.update_of_ne (Ne.symm hj)] using hlast⟩
  | @call log t j c k r u before next does meets ih =>
    obtain ⟨programs, hcalls, hdone, hlast⟩ := ih
    by_cases hj : j = i
    · subst hj
      rcases List.eq_nil_or_concat programs with rfl | ⟨init, last, rfl⟩
      · rw [next] at hlast
        cases hlast
      · rw [List.concat_eq_append] at hcalls hdone hlast
        rw [List.dropLast_concat] at hdone
        have hleft : last.left = .call c k := by simpa [next] using hlast
        refine ⟨init ++ [⟨last.program, last.starts, last.calls ++ [⟨c, r⟩], k r,
          last.runs.trans (hleft ▸ .step r (.refl _))⟩], ?_, by rwa [List.dropLast_concat], by simp⟩
        simp [List.filter_append, hcalls]
    · refine ⟨programs, ?_, hdone, by simpa [Function.update_of_ne (Ne.symm hj)] using hlast⟩
      simpa [List.filter_append, hj] using hcalls

/-- The thread that holds the monitor can be read off the shared state. -/
structure Monitor (sys : Threads S ι σ) (lock unlock : S.Call) (holder : σ → Option ι) : Prop where
  locks {i : ι} {s u : σ} {r : S.Reply lock} : sys.Does i s lock r u → holder s = none ∧ holder u = some i
  unlocks {i : ι} {s u : σ} {r : S.Reply unlock} : sys.Does i s unlock r u → holder u = none
  others {i : ι} {s u : σ} {c : S.Call} {r : S.Reply c} :
    sys.Does i s c r u → c ≠ lock → c ≠ unlock → holder u = holder s

/-- What threads do that have their operations, and what lies between them, in common. -/
structure Sectioned (sys : Threads S ι σ) (C : σ → ι → Event S → Prop) (code : (o : Op) → Prog S (Res o))
    (Aside : S.Call → Prop) (Gets : (c : S.Call) → S.Reply c → Prop) (Joins : ι → Prop) (lock unlock : S.Call) :
    Prop where
  locked (o : Op) : (code o).Locked lock unlock
  asideLock : ¬ Aside lock
  asideUnlock : ¬ Aside unlock
  joins {s : σ} {i : ι} {ev : Event S} : C s i ev → Joins i
  starts {i : ι} {p : Prog S Bool} : Joins i → sys.Starts i p → Woven code Aside Gets p
  gets {i : ι} {s u : σ} {c : S.Call} {r : S.Reply c} : Aside c → sys.Does i s c r u → C s i ⟨c, r⟩ → Gets c r

/-- Where the threads stand: the one that holds the monitor is in the middle of the last operation, and
the others are between two operations. -/
structure Standing (code : (o : Op) → Prog S (Res o)) (Aside : S.Call → Prop)
    (Gets : (c : S.Call) → S.Reply c → Prop) (Joins : ι → Prop) (lock unlock : S.Call)
    (holder : Option ι) (running : ι → Prog S Bool) (tasks : List (ι × Task code)) : Prop where
  free : holder = none → ∀ x ∈ tasks, x.2.Done
  held (i : ι) : holder = some i → ∃ (before : List (ι × Task code)) (task : Task code)
    (k : Res task.op → Prog S Bool), tasks = before ++ [(i, task)] ∧ task.left.Inside lock unlock ∧
      running i = task.left >>= k ∧ ∀ a, Woven code Aside Gets (k a)
  others (i : ι) : Joins i → holder ≠ some i → Woven code Aside Gets (running i)

variable {code : (o : Op) → Prog S (Res o)} {Aside : S.Call → Prop} {Gets : (c : S.Call) → S.Reply c → Prop}
  {Joins : ι → Prop} {lock unlock : S.Call} {holder : Option ι} {running : ι → Prog S Bool}
  {tasks : List (ι × Task code)}

namespace Standing

theorem start (h : Standing code Aside Gets Joins lock unlock holder running tasks) {i : ι} {p : Prog S Bool}
    (idle : running i = .ret true) (hp : Joins i → Woven code Aside Gets p) :
    Standing code Aside Gets Joins lock unlock holder (Function.update running i p) tasks where
  free := h.free
  held j hj := by
    obtain ⟨before, task, k, htasks, hinside, hrunning, hk⟩ := h.held j hj
    have hne : j ≠ i := by
      rintro rfl
      rw [idle] at hrunning
      cases hleft : task.left with
      | ret a => exact (hleft ▸ hinside : (Prog.ret a).Inside lock unlock).elim
      | call c l =>
        rw [hleft] at hrunning
        cases hrunning
    exact ⟨before, task, k, htasks, hinside, by rwa [Function.update_of_ne hne], hk⟩
  others j hjoins hj := by
    by_cases hji : j = i
    · subst hji
      rw [Function.update_self]
      exact hp hjoins
    · rw [Function.update_of_ne hji]
      exact h.others j hjoins hj

theorem out (h : Standing code Aside Gets Joins lock unlock holder running tasks) {i : ι} (hi : holder ≠ some i)
    {p : Prog S Bool} (hp : Woven code Aside Gets p) :
    Standing code Aside Gets Joins lock unlock holder (Function.update running i p) tasks where
  free := h.free
  held j hj := by
    obtain ⟨before, task, k, htasks, hinside, hrunning, hk⟩ := h.held j hj
    have hne : j ≠ i := fun hji => hi (hji ▸ hj)
    exact ⟨before, task, k, htasks, hinside, by rwa [Function.update_of_ne hne], hk⟩
  others j hjoins hj := by
    by_cases hji : j = i
    · subst hji
      rwa [Function.update_self]
    · rw [Function.update_of_ne hji]
      exact h.others j hjoins hj

theorem hold (h : Standing code Aside Gets Joins lock unlock holder running tasks) {i : ι}
    (hfree : holder = none ∨ holder = some i) {before : List (ι × Task code)} (task : Task code)
    {k : Res task.op → Prog S Bool} (hinside : task.left.Inside lock unlock) (hk : ∀ a, Woven code Aside Gets (k a)) :
    Standing code Aside Gets Joins lock unlock (some i) (Function.update running i (task.left >>= k))
      (before ++ [(i, task)]) where
  free := nofun
  held j hj := by
    obtain rfl := Option.some.inj hj
    exact ⟨before, task, k, rfl, hinside, Function.update_self .., hk⟩
  others j hjoins hj := by
    have hji : j ≠ i := fun hji => hj (hji ▸ rfl)
    rw [Function.update_of_ne hji]
    refine h.others j hjoins fun hholder => ?_
    rcases hfree with hnone | hsome
    · exact nomatch hnone.symm.trans hholder
    · exact hji (Option.some.inj (hholder.symm.trans hsome))

theorem release (h : Standing code Aside Gets Joins lock unlock (some i) running tasks)
    {tasks' : List (ι × Task code)} (hdone : ∀ x ∈ tasks', x.2.Done) {p : Prog S Bool}
    (hp : Woven code Aside Gets p) :
    Standing code Aside Gets Joins lock unlock none (Function.update running i p) tasks' where
  free _ := hdone
  held j hj := nomatch hj
  others j hjoins _ := by
    by_cases hji : j = i
    · subst hji
      rwa [Function.update_self]
    · rw [Function.update_of_ne hji]
      exact h.others j hjoins fun hij => hji (Option.some.inj hij).symm

end Standing

theorem Sectioned.call {holder : σ → Option ι} (hm : Monitor sys lock unlock holder)
    (h : Sectioned sys C code Aside Gets Joins lock unlock) {i : ι} {s u : σ} {c : S.Call} {r : S.Reply c}
    {k : S.Reply c → Prog S Bool} (hweaves : Weaves code Aside log tasks)
    (hstanding : Standing code Aside Gets Joins lock unlock (holder s) running tasks)
    (hnext : running i = .call c k) (hdoes : sys.Does i s c r u) (hmeets : C s i ⟨c, r⟩) :
    ∃ tasks', Weaves code Aside (log ++ [(i, ⟨c, r⟩)]) tasks' ∧
      Standing code Aside Gets Joins lock unlock (holder u) (Function.update running i (k r)) tasks' := by
  by_cases hi : holder s = some i
  · obtain ⟨before, task, l, rfl, hinside, hrunning, hl⟩ := hstanding.held i hi
    rw [hnext] at hrunning
    cases hleft : task.left with
    | ret a => exact (hleft ▸ hinside : (Prog.ret a).Inside lock unlock).elim
    | call c' k' =>
      rw [hleft] at hrunning hinside
      cases hrunning
      refine ⟨before ++ [(i, task.goOn hleft r)], hweaves.goesOn hleft, ?_⟩
      rcases hinside with ⟨rfl, hret⟩ | ⟨hlock, hunlock, hinside⟩
      · obtain ⟨a, ha⟩ := hret r
        have hdone : ∀ x ∈ before ++ [(i, task.goOn hleft r)], x.2.Done := by
          refine List.forall_mem_append.mpr ⟨?_, List.forall_mem_singleton.mpr ⟨a, ha⟩⟩
          simpa using hweaves.done
        rw [hm.unlocks hdoes]
        rw [hi] at hstanding
        refine hstanding.release hdone ?_
        change Woven code Aside Gets ((k' r).bind l)
        rw [ha]
        exact hl a
      · rw [hm.others hdoes hlock hunlock, hi]
        exact hstanding.hold (.inr hi) (task.goOn hleft r) (hinside r) hl
  · have hjoins := h.joins hmeets
    rcases (hnext ▸ hstanding.others i hjoins hi : Woven code Aside Gets (.call c k)).call_cases with
      ⟨haside, hrest⟩ | ⟨o, l, ho, hl⟩
    · have hlock : c ≠ lock := fun heq => h.asideLock (heq ▸ haside)
      have hunlock : c ≠ unlock := fun heq => h.asideUnlock (heq ▸ haside)
      rw [hm.others hdoes hlock hunlock]
      exact ⟨tasks, hweaves.out haside, hstanding.out hi (hrest r (h.gets haside hdoes hmeets))⟩
    · obtain ⟨k', hcode, hinside⟩ := h.locked o
      rw [hcode] at ho
      cases ho
      obtain ⟨hfree, hholder⟩ := hm.locks hdoes
      have hruns : Runs (code o) [⟨lock, r⟩] (k' r) := hcode ▸ .step r (.refl _)
      refine ⟨tasks ++ [(i, ⟨o, _, _, hruns⟩)], hweaves.begins (hstanding.free hfree) rfl, ?_⟩
      rw [hholder]
      exact hstanding.hold (.inl hfree) ⟨o, _, _, hruns⟩ (hinside r) hl

/-- However the threads take turns, their operations have been performed one after the other. -/
theorem Logs.weaves {holder : σ → Option ι} (hm : Monitor sys lock unlock holder)
    (h : Sectioned sys C code Aside Gets Joins lock unlock) {s : σ} (hfree : holder s = none)
    (hlog : sys.Logs C (.idle s) log t) :
    ∃ tasks, Weaves code Aside log tasks ∧
      Standing code Aside Gets Joins lock unlock (holder t.shared) t.running tasks := by
  induction hlog with
  | nil =>
    refine ⟨[], .nil, fun _ => nofun, fun i hi => ?_, fun i _ _ => .ret true⟩
    exact nomatch hfree.symm.trans hi
  | start _ idle starts ih =>
    obtain ⟨tasks, hweaves, hstanding⟩ := ih
    exact ⟨tasks, hweaves, hstanding.start idle fun hjoins => h.starts hjoins starts⟩
  | call _ next does meets ih =>
    obtain ⟨tasks, hweaves, hstanding⟩ := ih
    exact h.call hm hweaves hstanding next does meets

end Threads
end Interaction
