import AgFS.Interaction.Sections

/-! Threads that work on the objects of a table: every operation on an object is carried out by calls of
the object's own interface. What the threads have done is told by their operations as single steps. -/
namespace Interaction

variable {S A : Signature} {ι σ K α β : Type}

/-- Calls on the objects of a table. -/
abbrev Signature.table (K : Type) (S : Signature) : Signature := ⟨K × S.Call, fun c => S.Reply c.2⟩

/-- A program on one object of the table. -/
def Prog.upon (k : K) : Prog S α → Prog (S.table K) α
  | .ret a => .ret a
  | .call c f => .call (k, c) fun r => (f r).upon k

/-- The same calls, whatever the object is that they are made on. -/
def Prog.bare : Prog (S.table K) α → Prog S α
  | .ret a => .ret a
  | .call c f => .call c.2 fun r => (f r).bare

def Event.bare (ev : Event (S.table K)) : Event S := ⟨ev.call.2, ev.reply⟩

def Event.upon (k : K) (ev : Event S) : Event (S.table K) := ⟨(k, ev.call), ev.reply⟩

theorem Runs.upon {p q : Prog S α} {t : List (Event S)} (h : Runs p t q) (k : K) :
    Runs (p.upon k) (t.map (Event.upon k)) (q.upon k) := by
  induction h with
  | refl p => exact .refl _
  | @step c f _ _ r _ ih => exact Runs.step (S := S.table K) (c := (k, c)) (k := fun r => (f r).upon k) r ih

theorem Prog.upon_bare (k : K) (p : Prog S α) : (p.upon k).bare = p := by
  induction p with
  | ret a => rfl
  | call c f ih => exact congrArg (Prog.call c) (funext ih)

theorem Runs.bare {p q : Prog (S.table K) α} {t : List (Event (S.table K))} (h : Runs p t q) :
    Runs p.bare (t.map Event.bare) q.bare := by
  induction h with
  | refl p => exact .refl _
  | @step c k _ _ r _ ih => exact Runs.step (c := c.2) (k := fun r => (k r).bare) r ih

theorem Prog.only_upon (k : K) (p : Prog S α) : (p.upon k).Only fun c : K × S.Call => c.1 = k := by
  induction p with
  | ret a => trivial
  | call c f ih => exact ⟨rfl, ih⟩

theorem Prog.inside_upon {lock unlock : S.Call} (k : K) {p : Prog S α} (h : p.Inside lock unlock) :
    (p.upon k).Inside (S := S.table K) (k, lock) (k, unlock) := by
  induction p with
  | ret a => exact h.elim
  | call c f ih =>
    rcases h with ⟨rfl, hret⟩ | ⟨hlock, hunlock, hrest⟩
    · refine .inl ⟨rfl, fun r => ?_⟩
      obtain ⟨a, ha⟩ := hret r
      exact ⟨a, congrArg (Prog.upon k) ha⟩
    · refine .inr ⟨fun hc => hlock (congrArg Prod.snd hc), fun hc => hunlock (congrArg Prod.snd hc), fun r => ?_⟩
      exact ih r (hrest r)

/-- An operation that has come to its end. -/
structure Completed (code : (c : A.Call) → Prog S (A.Reply c)) where
  op : A.Call
  calls : List (Event S)
  result : A.Reply op
  runs : Runs (code op) calls (.ret result)

def Completed.event {code : (c : A.Call) → Prog S (A.Reply c)} (done : Completed code) : Event A :=
  ⟨done.op, done.result⟩

theorem Runs.completed {code : (c : A.Call) → Prog S (A.Reply c)} {q r : Prog A α} {ops : List (Completed code)}
    (h : Runs q (ops.map Completed.event) r) : Runs (q.handle code) (ops.flatMap Completed.calls) (r.handle code) := by
  induction ops generalizing q with
  | nil =>
    cases h
    exact .refl _
  | cons done ops ih =>
    rw [List.map_cons] at h
    rw [List.flatMap_cons]
    cases h with
    | step _ rest => exact (done.runs.bind _).trans (ih rest)

namespace Task
variable {code : (c : A.Call) → Prog S (A.Reply c)}

/-- The operation comes to its end with one more call. -/
def complete (task : Task code) {c : S.Call} {k : S.Reply c → Prog S (A.Reply task.op)} (h : task.left = .call c k)
    {r : S.Reply c} {a : A.Reply task.op} (hend : k r = .ret a) : Completed code where
  op := task.op
  calls := task.calls ++ [⟨c, r⟩]
  result := a
  runs := task.runs.trans (h ▸ .step r (hend ▸ .refl _))

/-- A thread goes on with this operation, which it is in the middle of or begins. -/
def Under (task : Task code) (middle : Option (Task code)) : Prop :=
  middle = some task ∨ middle = none ∧ task.calls = []

end Task

namespace Threads
variable [DecidableEq ι] {code : (c : A.Call) → Prog S (A.Reply c)}

/-- A log told by operations: those that have come to their ends, in the order in which they have, and
those that threads are in the middle of. A step in an operation is `Fair`, given what the others do. -/
inductive Finishes (code : (c : A.Call) → Prog S (A.Reply c))
    (Fair : (ι → Option (Task code)) → ι → A.Call → Prop) :
    List (ι × Event S) → List (ι × Completed code) → (ι → Option (Task code)) → Prop
  | nil : Finishes code Fair [] [] fun _ => none
  | goesOn {log : List (ι × Event S)} {finished : List (ι × Completed code)} {middle : ι → Option (Task code)}
      {i : ι} {task : Task code} {c : S.Call} {k : S.Reply c → Prog S (A.Reply task.op)} {r : S.Reply c}
      (before : Finishes code Fair log finished middle) (under : task.Under (middle i))
      (fair : Fair middle i task.op) (next : task.left = .call c k) :
      Finishes code Fair (log ++ [(i, ⟨c, r⟩)]) finished (Function.update middle i (some (task.goOn next r)))
  | ends {log : List (ι × Event S)} {finished : List (ι × Completed code)} {middle : ι → Option (Task code)}
      {i : ι} {task : Task code} {c : S.Call} {k : S.Reply c → Prog S (A.Reply task.op)} {r : S.Reply c}
      {a : A.Reply task.op} (before : Finishes code Fair log finished middle) (under : task.Under (middle i))
      (fair : Fair middle i task.op) (next : task.left = .call c k) (result : k r = .ret a) :
      Finishes code Fair (log ++ [(i, ⟨c, r⟩)]) (finished ++ [(i, task.complete next result)])
        (Function.update middle i none)

section Finishes
variable {Fair : (ι → Option (Task code)) → ι → A.Call → Prop} {log : List (ι × Event S)}
  {finished : List (ι × Completed code)} {middle : ι → Option (Task code)}

theorem Finishes.ops {Q : A.Call → Prop} (h : Finishes code Fair log finished middle)
    (hfair : ∀ {middle i op}, Fair middle i op → Q op) :
    (∀ x ∈ finished, Q x.2.op) ∧ ∀ i task, middle i = some task → Q task.op := by
  induction h with
  | nil => exact ⟨nofun, nofun⟩
  | @goesOn _ _ _ i _ _ _ _ _ _ fair _ ih =>
    refine ⟨ih.1, fun j task hj => ?_⟩
    by_cases hji : j = i
    · subst hji
      rw [Function.update_self] at hj
      cases hj
      exact hfair fair
    · rw [Function.update_of_ne hji] at hj
      exact ih.2 j task hj
  | @ends _ _ _ i _ _ _ _ _ _ _ fair _ _ ih =>
    refine ⟨List.forall_mem_append.mpr ⟨ih.1, List.forall_mem_singleton.mpr (hfair fair)⟩,
      fun j task hj => ?_⟩
    by_cases hji : j = i
    · subst hji
      rw [Function.update_self] at hj
      cases hj
    · rw [Function.update_of_ne hji] at hj
      exact ih.2 j task hj

theorem Finishes.mem (h : Finishes code Fair log finished middle) :
    (∀ x ∈ finished, ∀ ev ∈ x.2.calls, (x.1, ev) ∈ log) ∧
      ∀ i task, middle i = some task → ∀ ev ∈ task.calls, (i, ev) ∈ log := by
  induction h with
  | nil => exact ⟨nofun, nofun⟩
  | @goesOn log finished middle i task c k r _ under _ next ih =>
    refine ⟨fun x hx ev hev => List.mem_append_left _ (ih.1 x hx ev hev), fun j task' hj ev hev => ?_⟩
    by_cases hji : j = i
    · subst hji
      rw [Function.update_self] at hj
      cases hj
      rcases List.mem_append.mp hev with hev | hev
      · rcases under with hmiddle | ⟨-, hcalls⟩
        · exact List.mem_append_left _ (ih.2 j task hmiddle ev hev)
        · exact absurd (hcalls ▸ hev) List.not_mem_nil
      · exact List.mem_append_right _ (List.mem_singleton.mp hev ▸ List.mem_cons_self)
    · rw [Function.update_of_ne hji] at hj
      exact List.mem_append_left _ (ih.2 j task' hj ev hev)
  | @ends log finished middle i task c k r a _ under _ next result ih =>
    refine ⟨List.forall_mem_append.mpr ⟨fun x hx ev hev => List.mem_append_left _ (ih.1 x hx ev hev), ?_⟩,
      fun j task' hj ev hev => ?_⟩
    · refine List.forall_mem_singleton.mpr fun ev hev => ?_
      rcases List.mem_append.mp hev with hev | hev
      · rcases under with hmiddle | ⟨-, hcalls⟩
        · exact List.mem_append_left _ (ih.2 i task hmiddle ev hev)
        · exact absurd (hcalls ▸ hev) List.not_mem_nil
      · exact List.mem_append_right _ (List.mem_singleton.mp hev ▸ List.mem_cons_self)
    · by_cases hji : j = i
      · subst hji
        rw [Function.update_self] at hj
        cases hj
      · rw [Function.update_of_ne hji] at hj
        exact List.mem_append_left _ (ih.2 j task' hj ev hev)

/-- The calls of a thread are those of its operations, one after the other. -/
theorem Finishes.thread (h : Finishes code Fair log finished middle) (i : ι) :
    (log.filter fun x => x.1 = i).map Prod.snd =
      ((finished.filter fun x => x.1 = i).map Prod.snd).flatMap Completed.calls ++ (middle i).elim [] Task.calls := by
  have begun {task : Task code} {o : Option (Task code)} (h : task.Under o) : o.elim [] Task.calls = task.calls := by
    rcases h with rfl | ⟨rfl, hcalls⟩
    · rfl
    · exact hcalls.symm
  induction h with
  | nil => rfl
  | @goesOn log finished middle j task c k r before under fair next ih =>
    by_cases hj : j = i
    · subst hj
      rw [begun under] at ih
      simp [List.filter_append, ih, Task.goOn]
    · simpa [List.filter_append, hj, Function.update_of_ne (Ne.symm hj)] using ih
  | @ends log finished middle j task c k r a before under fair next result ih =>
    by_cases hj : j = i
    · subst hj
      rw [begun under] at ih
      simp [List.filter_append, ih, Task.complete]
    · simpa [List.filter_append, hj, Function.update_of_ne (Ne.symm hj)] using ih

/-- What shows of the calls in a log, by `f`: that of the finished operations, and then `rest`, which shows of the one
operation of the kind `P` that a thread is in the middle of. -/
structure Shows {γ : Type} (f : Event S → List γ) (P : A.Call → Prop) (log : List (ι × Event S))
    (finished : List (ι × Completed code)) (middle : ι → Option (Task code)) (rest : List γ) : Prop where
  all : log.flatMap (fun x => f x.2) = finished.flatMap (fun x => x.2.calls.flatMap f) ++ rest
  loud {i : ι} {task : Task code} : middle i = some task → P task.op → rest = task.calls.flatMap f
  quiet {i : ι} {task : Task code} : middle i = some task → ¬ P task.op → task.calls.flatMap f = []
  ended : (∀ i task, middle i = some task → ¬ P task.op) → rest = []

namespace Shows
variable {γ : Type} {f : Event S → List γ} {P : A.Call → Prop} {rest : List γ} {i : ι} {task : Task code}

omit [DecidableEq ι] in
theorem under (h : Shows f P log finished middle rest) (hunder : task.Under (middle i))
    (hsole : P task.op → ∀ j task, middle j = some task → P task.op → j = i) :
    (P task.op → rest = task.calls.flatMap f) ∧ (¬ P task.op → task.calls.flatMap f = []) := by
  rcases hunder with hmiddle | ⟨hmiddle, hcalls⟩
  · exact ⟨h.loud hmiddle, h.quiet hmiddle⟩
  · rw [hcalls, List.flatMap_nil]
    refine ⟨fun hp => h.ended fun j task' hj hp' => ?_, fun _ => rfl⟩
    obtain rfl := hsole hp j task' hj hp'
    exact nomatch hmiddle.symm.trans hj

omit [DecidableEq ι] in
theorem ended_of (h : Shows f P log finished middle rest) (hunder : task.Under (middle i)) (hp : ¬ P task.op)
    (hothers : ∀ j ≠ i, ∀ task, middle j = some task → ¬ P task.op) : rest = [] := by
  refine h.ended fun j task' hj => ?_
  by_cases hji : j = i
  · subst hji
    rcases hunder with hmiddle | ⟨hmiddle, -⟩
    · cases hj.symm.trans hmiddle
      exact hp
    · exact nomatch hj.symm.trans hmiddle
  · exact hothers j hji task' hj

theorem goesOn (h : Shows f P log finished middle rest) (hunder : task.Under (middle i))
    (hsole : P task.op → ∀ j task, middle j = some task → P task.op → j = i) {c : S.Call}
    {k : S.Reply c → Prog S (A.Reply task.op)} (next : task.left = .call c k) (r : S.Reply c)
    (hquiet : ¬ P task.op → f ⟨c, r⟩ = []) :
    Shows f P (log ++ [(i, ⟨c, r⟩)]) finished (Function.update middle i (some (task.goOn next r)))
      (rest ++ f ⟨c, r⟩) := by
  obtain ⟨hloud, hsilent⟩ := h.under hunder hsole
  have hcalls : (task.goOn next r).calls.flatMap f = task.calls.flatMap f ++ f ⟨c, r⟩ := by
    rw [Task.goOn, List.flatMap_append, List.flatMap_singleton]
  constructor
  · rw [List.flatMap_append, List.flatMap_singleton, h.all, List.append_assoc]
  · intro j task' hj hp
    by_cases hji : j = i
    · subst hji
      rw [Function.update_self] at hj
      cases hj
      rw [hcalls, hloud hp]
    · rw [Function.update_of_ne hji] at hj
      by_cases hpi : P task.op
      · exact absurd (hsole hpi j task' hj hp) hji
      · rw [hquiet hpi, List.append_nil, h.loud hj hp]
  · intro j task' hj hp
    by_cases hji : j = i
    · subst hji
      rw [Function.update_self] at hj
      cases hj
      rw [hcalls, hsilent hp, hquiet hp]
      rfl
    · rw [Function.update_of_ne hji] at hj
      exact h.quiet hj hp
  · intro hnone
    have hp : ¬ P task.op := hnone i (task.goOn next r) (Function.update_self ..)
    rw [hquiet hp, List.append_nil]
    exact h.ended_of hunder hp fun j hji task' hj => hnone j task' (by rwa [Function.update_of_ne hji])

theorem ends (h : Shows f P log finished middle rest) (hunder : task.Under (middle i))
    (hsole : P task.op → ∀ j task, middle j = some task → P task.op → j = i) {c : S.Call}
    {k : S.Reply c → Prog S (A.Reply task.op)} (next : task.left = .call c k) {r : S.Reply c} {a : A.Reply task.op}
    (result : k r = .ret a) (hquiet : ¬ P task.op → f ⟨c, r⟩ = []) :
    ∃ rest', Shows f P (log ++ [(i, ⟨c, r⟩)]) (finished ++ [(i, task.complete next result)])
      (Function.update middle i none) rest' := by
  obtain ⟨hloud, hsilent⟩ := h.under hunder hsole
  have hcalls : (task.complete next result).calls.flatMap f = task.calls.flatMap f ++ f ⟨c, r⟩ := by
    rw [Task.complete, List.flatMap_append, List.flatMap_singleton]
  have hothers {j : ι} {task' : Task code} (hj : Function.update middle i none j = some task') :
      j ≠ i ∧ middle j = some task' := by
    by_cases hji : j = i
    · subst hji
      rw [Function.update_self] at hj
      cases hj
    · rw [Function.update_of_ne hji] at hj
      exact ⟨hji, hj⟩
  by_cases hp : P task.op
  · refine ⟨[], ?_, fun hj hp' => ?_, fun hj => h.quiet (hothers hj).2, fun _ => rfl⟩
    · rw [List.flatMap_append, List.flatMap_append, List.flatMap_singleton, List.flatMap_singleton, h.all, hloud hp,
        hcalls, List.append_nil, List.append_assoc]
    · exact absurd (hsole hp _ _ (hothers hj).2 hp') (hothers hj).1
  · refine ⟨rest, ?_, fun hj => h.loud (hothers hj).2, fun hj => h.quiet (hothers hj).2, fun hnone => ?_⟩
    · rw [List.flatMap_append, List.flatMap_append, List.flatMap_singleton, List.flatMap_singleton, h.all, hcalls,
        hsilent hp, hquiet hp]
      simp
    · exact h.ended_of hunder hp fun j hji task' hj => hnone j task' (by rwa [Function.update_of_ne hji])

end Shows

/-- If at most one thread at a time is in the middle of an operation of the kind `P`, and nothing shows of the
others, a log shows the operations one after the other. -/
theorem Finishes.shows (h : Finishes code Fair log finished middle) {γ : Type} {f : Event S → List γ}
    {P : A.Call → Prop}
    (hsole : ∀ {middle i op}, Fair middle i op → P op → ∀ j task, middle j = some task → P task.op → j = i)
    (hquiet : ∀ {middle i} {task : Task code} {c : S.Call} {k : S.Reply c → Prog S (A.Reply task.op)},
      Fair middle i task.op → ¬ P task.op → task.left = .call c k → ∀ r, f ⟨c, r⟩ = []) :
    ∃ rest, Shows f P log finished middle rest := by
  induction h with
  | nil => exact ⟨[], rfl, nofun, nofun, fun _ => rfl⟩
  | goesOn before under fair next ih =>
    obtain ⟨rest, h⟩ := ih
    exact ⟨_, h.goesOn under (hsole fair) next _ fun hp => hquiet fair hp next _⟩
  | ends before under fair next result ih =>
    obtain ⟨rest, h⟩ := ih
    exact h.ends under (hsole fair) next result fun hp => hquiet fair hp next _

end Finishes
end Threads
end Interaction
