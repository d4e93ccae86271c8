import AgFS.Concurrency.Mount
import AgFS.Concurrency.Concourse

/-! A client and its servers: every operation of every thread on every connection is a single step on the machine
of its server. -/
namespace AgFS
open Interaction ByteOrder Sock Threads

/-- What a client has done on all its connections, from where `main` has left them, and what its servers have on those
of the kind `up`, which last. The streams deliver in order. -/
structure Mount {τ : Type} (host : Endian) (host' : Str → Endian) (connections : Connections) (P : Request → Prop)
    (up : Str → Prop) (sys : Str → τ → (c : ServerCall) → τ × ServerSys.Reply c) (conn : Str → ClientConnection)
    (u : Str → τ) where
  objects : Str → Object
  started (server : Str) : up server → (objects server).Started (linkTo connections server)
  log : List (Worker × Event ((Sock Kind ClientSys).table Str))
  reached : Threads.State ((Sock Kind ClientSys).table Str) Worker (Str → Object)
  made : (mountThreads host connections P).Logs (Objects.Calm up (· ≠ .destroy) LinkLasts) (.idle objects) log reached
  passes : Str → List Pass
  served (server : Str) : up server → Served (host' server) (sys server) (conn server) (u server) (passes server)
  sends (server : Str) : up server → unmark (heardBy (passes server)) <+: unmark (said (uponObject server log))
  gets (server : Str) : up server → unmark (heard (uponObject server log)) <+: unmark (answeredBy (passes server))

/-- On the connections that last the transfers are as in an unbroken exchange. -/
structure Mount.Unbroken {τ : Type} {host : Endian} {host' : Str → Endian} {connections : Connections}
    {P : Request → Prop} {up : Str → Prop} {sys : Str → τ → (c : ServerCall) → τ × ServerSys.Reply c}
    {conn : Str → ClientConnection} {u : Str → τ} (x : Mount host host' connections P up sys conn u) : Prop where
  client (server : Str) : up server → ∀ ev ∈ uponObject server x.log,
    Flows (fun m => m = Kind.data → True) (fun m => m = Kind.data → False) ev
  server (server : Str) : up server → ∀ u ∈ x.passes server, u.Missed ∨
    ∀ ev ∈ u.calls, Flows (fun m => m = Kind.data → False) (fun m => m = Kind.data → True) ev
  stores (server : Str) : up server → ∀ u ∈ x.passes server, StoresAll u.calls

/-- What comes of an operation on a connection that lasts is what comes of its request in a service; a test finds it
connected. On other connections anything may come of it. -/
def ServedBy {ρ : Type} (svc : Str → Service Request Request.Result ρ) (up : Str → Prop) (server : Str) (s : ρ) :
    (c : LinkCall) → LinkSys.Reply c → ρ → Prop
  | .request r, res, t => (up server → (svc server).Comes s r res t) ∧ (¬ up server → t = s)
  | c, found, t => (up server → FindsLink c found) ∧ t = s

def errandOf : (c : LinkCall) → List ClientEvent → ClientIo (LinkSys.Reply c) → Option Errand
  | .request r, calls, left => some ⟨r, calls, left⟩
  | _, _, _ => none

def askedOf : Event LinkSys → Option (Asked Request.Result)
  | ⟨.request r, res⟩ => some ⟨r, some res⟩
  | _ => none

section Links
variable {host : Endian} {connections : Connections} {P : Request → Prop} {up : Str → Prop}

def errandOfCompleted (x : Worker × Completed (links host connections P).carry) : Option Errand :=
  errandOf x.2.op.2 (x.2.calls.map Event.bare) (.ret x.2.result)

def errandsAt (server : Str) (finished : List (Worker × Completed (links host connections P).carry)) : List Errand :=
  (finished.filter fun x => x.2.op.1 = server).filterMap errandOfCompleted

private theorem errandsAt_cons (server : Str) (x : Worker × Completed (links host connections P).carry)
    (finished : List (Worker × Completed (links host connections P).carry)) :
    errandsAt server (x :: finished) =
      (if x.2.op.1 = server then (errandOfCompleted x).toList else []) ++ errandsAt server finished := by
  by_cases h : x.2.op.1 = server
  · cases hx : errandOfCompleted x <;> simp [errandsAt, h, hx]
  · simp [errandsAt, h]

private theorem flatMap_upon {ι K γ : Type} {S : Signature} [DecidableEq K] (server : K) (g : Event S → List γ)
    (log : List (ι × Event (S.table K))) :
    (log.flatMap fun x => if x.2.call.1 = server then g x.2.bare else []) = (uponObject server log).flatMap g := by
  induction log with
  | nil => rfl
  | cons x log ih =>
    rw [List.flatMap_cons, ih, uponObject_cons]
    by_cases h : x.2.call.1 = server <;> simp [h]

private theorem mem_upon {ι K : Type} {S : Signature} [DecidableEq K] {log : List (ι × Event (S.table K))} {i : ι}
    {ev : Event (S.table K)} (h : (i, ev) ∈ log) : ev.bare ∈ uponObject ev.call.1 log :=
  List.mem_map.mpr ⟨(i, ev), List.mem_filter.mpr ⟨h, by simp⟩, rfl⟩

theorem flatMap_bare {K γ : Type} {S : Signature} [DecidableEq K] (server : K) {k : K} (g : Event S → List γ)
    {calls : List (Event (S.table K))} (hcalls : ∀ ev ∈ calls, ev.call.1 = k) :
    (calls.flatMap fun ev => if ev.call.1 = server then g ev.bare else []) =
      if k = server then (calls.map Event.bare).flatMap g else [] := by
  induction calls with
  | nil => simp
  | cons ev calls ih =>
    obtain ⟨rfl, hrest⟩ := List.forall_mem_cons.mp hcalls
    rw [List.flatMap_cons, ih hrest]
    by_cases h : ev.call.1 = server <;> simp [h]

private theorem flatMap_tests {γ : Type} {g : ClientEvent → List γ}
    (hg : ∀ ev : ClientEvent, Tests ev.call → g ev = [])
    {calls : List ClientEvent} (h : ∀ ev ∈ calls, Tests ev.call) : calls.flatMap g = [] :=
  List.flatMap_eq_nil_iff.mpr fun ev hev => hg ev (h ev hev)

/-- An operation that carries out a request is performed in these calls. -/
structure Errand.Made (host : Endian) (P : Request → Prop) (events : List ClientEvent) (o : Errand) : Prop where
  runs : Runs (o.request.perform host) o.calls o.left
  meets : P o.request
  mem : ∀ ev ∈ o.calls, ev ∈ events

private theorem calls_upon {op : Str × LinkCall} {calls : List (Event ((Sock Kind ClientSys).table Str))}
    {left : TableIo (LinkSys.Reply op.2)} (hruns : Runs ((links host connections P).carry op) calls left) :
    ∀ ev ∈ calls, ev.call.1 = op.1 :=
  (Prog.only_upon op.1 ((links host connections P).code op)).runs hruns

theorem looks_errand {op : Str × LinkCall} {calls : List (Event ((Sock Kind ClientSys).table Str))}
    {left : TableIo (LinkSys.Reply op.2)} (hruns : Runs ((links host connections P).carry op) calls left)
    (h : (links host connections P).Looks op.2) :
    errandOf op.2 (calls.map Event.bare) left.bare = none ∧ ∀ ev ∈ calls.map Event.bare, Tests ev.call := by
  obtain ⟨server, c⟩ := op
  have hbare := hruns.bare
  rw [Objects.carry, Prog.upon_bare] at hbare
  rcases h with rfl | rfl
  · have honly : (ServerConnection.connected).Only Tests := ⟨trivial, fun _ => trivial⟩
    exact ⟨rfl, honly.runs hbare⟩
  · have honly : (ServerConnection.closed).Only Tests := ⟨trivial, fun _ => trivial⟩
    exact ⟨rfl, honly.runs hbare⟩

private theorem guarded_errand {op : Str × LinkCall} {calls : List (Event ((Sock Kind ClientSys).table Str))}
    {left : TableIo (LinkSys.Reply op.2)} (hruns : Runs ((links host connections P).carry op) calls left)
    (h : (links host connections P).Guarded op.2) (events : List ClientEvent)
    (hmem : ∀ ev ∈ calls, ev.bare ∈ events) :
    ∃ o, errandOf op.2 (calls.map Event.bare) left.bare = some o ∧ o.Made host P events ∧
      o.calls = calls.map Event.bare ∧ ((∃ a, left = .ret a) → o.Done) := by
  obtain ⟨server, c⟩ := op
  have hbare := hruns.bare
  rw [Objects.carry, Prog.upon_bare] at hbare
  obtain ⟨r, rfl, hP⟩ := h
  refine ⟨_, rfl, ⟨hbare, hP, List.forall_mem_map.mpr hmem⟩, rfl, ?_⟩
  rintro ⟨a, rfl⟩
  exact ⟨a, rfl⟩

variable {server : Str} {log : List (Worker × Event ((Sock Kind ClientSys).table Str))}
  {finished : List (Worker × Completed (links host connections P).carry)}
  {middle : Worker → Option (Task (links host connections P).carry)}

private theorem errandsAt_made (events : List ClientEvent)
    (hops : ∀ x ∈ finished, x.2.op.1 = server →
      (links host connections P).Looks x.2.op.2 ∨ (links host connections P).Guarded x.2.op.2)
    (hmem : ∀ x ∈ finished, x.2.op.1 = server → ∀ ev ∈ x.2.calls, ev.bare ∈ events) :
    (∀ o ∈ errandsAt server finished, o.Made host P events ∧ o.Done) ∧
      ∀ {γ : Type} (g : ClientEvent → List γ), (∀ ev : ClientEvent, Tests ev.call → g ev = []) →
        (finished.flatMap fun x => x.2.calls.flatMap fun ev => if ev.call.1 = server then g ev.bare else []) =
          (errandsAt server finished).flatMap fun o => o.calls.flatMap g := by
  induction finished with
  | nil => exact ⟨nofun, fun _ _ => rfl⟩
  | cons x finished ih =>
    obtain ⟨hop, hops⟩ := List.forall_mem_cons.mp hops
    obtain ⟨hcalls, hmem⟩ := List.forall_mem_cons.mp hmem
    obtain ⟨hmade, hshows⟩ := ih hops hmem
    have hbare {γ : Type} (g : ClientEvent → List γ) := flatMap_bare server g (calls_upon x.2.runs)
    rw [errandsAt_cons]
    by_cases hserver : x.2.op.1 = server
    · rw [if_pos hserver]
      rcases hop hserver with hlooks | hguarded
      · obtain ⟨hnone, htests⟩ := looks_errand x.2.runs hlooks
        rw [show errandOfCompleted x = none from hnone, Option.toList_none, List.nil_append]
        refine ⟨hmade, fun g hg => ?_⟩
        rw [List.flatMap_cons, hbare, if_pos hserver, flatMap_tests hg htests, List.nil_append, hshows g hg]
      · obtain ⟨o, ho, hx, hsame, hdone⟩ := guarded_errand x.2.runs hguarded events (hcalls hserver)
        rw [show errandOfCompleted x = some o from ho, Option.toList_some, List.singleton_append]
        refine ⟨List.forall_mem_cons.mpr ⟨⟨hx, hdone ⟨_, rfl⟩⟩, hmade⟩, fun g hg => ?_⟩
        rw [List.flatMap_cons, hbare, if_pos hserver, hshows g hg, List.flatMap_cons, hsame]
    · rw [if_neg hserver, List.nil_append]
      refine ⟨hmade, fun g hg => ?_⟩
      rw [List.flatMap_cons, hbare, if_neg hserver, List.nil_append, hshows g hg]

private theorem asked_of_errand (op : LinkCall) (calls : List ClientEvent) (result : LinkSys.Reply op) :
    (errandOf op calls (.ret result)).map Errand.asked = askedOf ⟨op, result⟩ := by
  cases op <;> rfl

theorem errandsAt_asked : (errandsAt server finished).map Errand.asked =
    (uponObject server (finished.map fun x => (x.1, x.2.event))).filterMap askedOf := by
  induction finished with
  | nil => rfl
  | cons x finished ih =>
    have hx : (errandOfCompleted x).map Errand.asked = askedOf ⟨x.2.op.2, x.2.result⟩ := asked_of_errand ..
    rw [errandsAt_cons, List.map_append, ih, List.map_cons, uponObject_cons, List.filterMap_append]
    refine congrArg (· ++ _) ?_
    change _ = List.filterMap askedOf (if x.2.op.1 = server then [⟨x.2.op.2, x.2.result⟩] else [])
    by_cases hserver : x.2.op.1 = server
    · rw [if_pos hserver, if_pos hserver, List.filterMap_cons, ← hx]
      cases errandOfCompleted x <;> rfl
    · rw [if_neg hserver, if_neg hserver]
      rfl

theorem shown_at (hup : up server)
    (h : Finishes (links host connections P).carry ((links host connections P).Fair up) log finished middle) :
    ∃ pending : List Errand, pending.length ≤ 1 ∧ (∀ o ∈ errandsAt server finished, o.Done) ∧
      (∀ o ∈ errandsAt server finished ++ pending, o.Made host P (uponObject server log)) ∧
      ∀ {γ : Type} (g : ClientEvent → List γ), (∀ ev : ClientEvent, Tests ev.call → g ev = []) →
        (uponObject server log).flatMap g =
          (errandsAt server finished ++ pending).flatMap fun o => o.calls.flatMap g := by
  have hallowed {middle : Worker → Option (Task (links host connections P).carry)} {i : Worker}
      {op : Str × LinkCall}
      (hfair : (links host connections P).Fair up middle i op) (hserver : op.1 = server) :
      (links host connections P).Looks op.2 ∨ (links host connections P).Guarded op.2 :=
    (hfair (hserver ▸ hup)).imp_right And.left
  have hbegun := h.ops (Q := fun op : Str × LinkCall => op.1 = server →
    (links host connections P).Looks op.2 ∨ (links host connections P).Guarded op.2) hallowed
  obtain ⟨hmem, hmem'⟩ := h.mem
  obtain ⟨hmade, hfinished⟩ := errandsAt_made (uponObject server log) hbegun.1
    fun x hx hserver ev hev => hserver ▸ calls_upon x.2.runs ev hev ▸ mem_upon (hmem x hx ev hev)
  have hshows {γ : Type} (g : ClientEvent → List γ) (hg : ∀ ev : ClientEvent, Tests ev.call → g ev = []) :
      ∃ rest, Shows
        (fun ev : Event ((Sock Kind ClientSys).table Str) => if ev.call.1 = server then g ev.bare else [])
        (fun op : Str × LinkCall => op.1 = server ∧ (links host connections P).Guarded op.2)
        log finished middle rest := by
    refine h.shows ?_ ?_
    · rintro middle i ⟨k, op⟩ hfair ⟨rfl, r, rfl, -⟩ j task hj ⟨hserver, -⟩
      rcases hfair hup with (hlooks | hlooks) | ⟨-, hsole⟩
      · cases hlooks
      · cases hlooks
      · exact hsole j task hj hserver
    · intro middle i task c k hfair hquiet next r
      have hupon : c.1 = task.op.1 := Objects.next_upon (c := c) next r
      by_cases hserver : task.op.1 = server
      · rcases hallowed hfair hserver with hlooks | hguarded
        · obtain ⟨-, htests⟩ := looks_errand (task.goOn (c := c) next r).runs hlooks
          rw [if_pos (hupon.trans hserver)]
          exact hg _ (htests _ (List.mem_map_of_mem (List.mem_append_right _ List.mem_cons_self)))
        · exact absurd ⟨hserver, hguarded⟩ hquiet
      · exact if_neg fun hc => hserver (hupon ▸ hc)
  by_cases hopen : ∃ i task, middle i = some task ∧ task.op.1 = server ∧
      (links host connections P).Guarded task.op.2
  · obtain ⟨i, task, hi, hserver, hguarded⟩ := hopen
    obtain ⟨o, -, ho, hcalls, -⟩ := guarded_errand task.runs hguarded (uponObject server log)
      fun ev hev => hserver ▸ calls_upon task.runs ev hev ▸ mem_upon (hmem' i task hi ev hev)
    refine ⟨[o], le_rfl, fun o ho => (hmade o ho).2,
      List.forall_mem_append.mpr ⟨fun o ho => (hmade o ho).1, List.forall_mem_singleton.mpr ho⟩, fun g hg => ?_⟩
    obtain ⟨rest, hrest⟩ := hshows g hg
    rw [← flatMap_upon, hrest.all, hrest.loud hi ⟨hserver, hguarded⟩, hfinished g hg,
      flatMap_bare server g (calls_upon task.runs), if_pos hserver, List.flatMap_append,
      List.flatMap_singleton, hcalls]
  · refine ⟨[], Nat.zero_le _, fun o ho => (hmade o ho).2, ?_, fun g hg => ?_⟩
    · rw [List.append_nil]
      exact fun o ho => (hmade o ho).1
    · obtain ⟨rest, hrest⟩ := hshows g hg
      have hended : rest = [] := hrest.ended fun i task hi hp => hopen ⟨i, task, hi, hp⟩
      rw [← flatMap_upon, hrest.all, hended, hfinished g hg, List.append_nil, List.append_nil]

end Links

section Mounts
variable {τ : Type} {host : Endian} {host' : Str → Endian} {connections : Connections} {P : Request → Prop}
  {up : Str → Prop} {sys : Str → τ → (c : ServerCall) → τ × ServerSys.Reply c} {conn : Str → ClientConnection}
  {u : Str → τ} {server : Str}

/-- A call of a thread leaves the socket of a connection that lasts as it was, and is answered there as if the thread
had the object for itself. -/
theorem mount_step {fd : Fd} (hup : up server) {i : Worker} {s t : Str → Object}
    {c : ((Sock Kind ClientSys).table Str).Call} {r : ((Sock Kind ClientSys).table Str).Reply c}
    (hs : (s server).socket_ = fd) (hdoes : (mountThreads host connections P).Does i s c r t)
    (hcalm : Objects.Calm up (· ≠ .destroy) LinkLasts s i ⟨c, r⟩) :
    (t server).socket_ = fd ∧ (c.1 = server → Attends c.2 ∨ c.2 = acquiring ∨ c.2 = givingBack →
      Answered ClientSys.object fd [⟨c.2, r⟩] fd) := by
  obtain ⟨w, ⟨th, hth, hdoes⟩, rfl⟩ := hdoes
  by_cases hserver : c.1 = server
  · subst hserver
    have hstep := lasts_step hs hdoes (hcalm.2 hup th hth)
    rw [Function.update_self]
    exact ⟨hstep.1, fun _ => hstep.2⟩
  · rw [Function.update_of_ne (Ne.symm hserver)]
    exact ⟨hs, fun hc => absurd hc hserver⟩

/-- While a connection lasts, its operations are answered as if they had the object for themselves. -/
theorem Mount.answered (x : Mount host host' connections P up sys conn u) (hup : up server) :
    ∀ ev ∈ uponObject server x.log, Attends ev.call ∨ ev.call = acquiring ∨ ev.call = givingBack →
      Answered ClientSys.object (x.objects server).socket_ [ev] (x.objects server).socket_ := by
  obtain ⟨-, hlog⟩ := x.made.keeps (I := fun s => (s server).socket_ = (x.objects server).socket_)
    (P := fun _ (ev : Event ((Sock Kind ClientSys).table Str)) => ev.call.1 = server →
      Attends ev.call.2 ∨ ev.call.2 = acquiring ∨ ev.call.2 = givingBack →
        Answered ClientSys.object (x.objects server).socket_ [ev.bare] (x.objects server).socket_)
    (mount_step hup) rfl
  intro ev hev
  obtain ⟨y, hy, rfl⟩ := List.mem_map.mp hev
  obtain ⟨hy, hserver⟩ := List.mem_filter.mp hy
  exact hlog y hy (by simpa using hserver)

/-- The requests on a connection that lasts are those of an exchange. -/
theorem Mount.exchange (x : Mount host host' connections P up sys conn u) (hup : up server)
    {finished : List (Worker × Completed (links host connections P).carry)}
    {middle : Worker → Option (Task (links host connections P).carry)}
    (h : Finishes (links host connections P).carry ((links host connections P).Fair up) x.log finished middle) :
    ∃ (pending : List Errand)
      (y : Exchange host (host' server) (x.objects server).socket_ (sys server) (conn server) (u server)),
      y.errands = errandsAt server finished ++ pending ∧ (∀ o ∈ y.errands, P o.request) ∧
        (x.Unbroken → y.Unbroken) := by
  obtain ⟨pending, hlength, hdone, hmade, hshows⟩ := shown_at hup h
  have hlast : ∀ o ∈ (errandsAt server finished ++ pending).dropLast, o.Done := by
    intro o ho
    match pending, hlength with
    | [], _ =>
      rw [List.append_nil] at ho
      exact hdone o (List.dropLast_subset _ ho)
    | [o'], _ =>
      rw [List.dropLast_concat] at ho
      exact hdone o ho
  have hperformed : Performed host (x.objects server).socket_ (errandsAt server finished ++ pending) := by
    refine .of_forall hlast fun o ho => ⟨(hmade o ho).runs, answered_all fun ev hev => ?_⟩
    exact x.answered hup ev ((hmade o ho).mem ev hev) (o.request.only.runs (hmade o ho).runs ev hev)
  have hsaid : said (uponObject server x.log) = askedBy (errandsAt server finished ++ pending) := by
    rw [said_eq_flatMap, hshows _ fun ev hev => (tests_silent hev).1, askedBy]
    exact congrArg (List.flatMap · _) (funext fun o => (said_eq_flatMap o.calls).symm)
  have hheard : heard (uponObject server x.log) = takenBy (errandsAt server finished ++ pending) := by
    rw [heard_eq_flatMap, hshows _ fun ev hev => (tests_silent hev).2, takenBy]
    exact congrArg (List.flatMap · _) (funext fun o => (heard_eq_flatMap o.calls).symm)
  refine ⟨pending, ⟨_, x.passes server, hperformed, x.served server hup, hsaid ▸ x.sends server hup,
    hheard ▸ x.gets server hup⟩, rfl, fun o ho => (hmade o ho).meets, fun hunbroken => ?_⟩
  refine ⟨fun o ho ev hev => ?_, hunbroken.server server hup, hunbroken.stores server hup⟩
  exact hunbroken.client server hup ev ((hmade o ho).mem ev hev)

section Served
variable {ρ : Type} {svc : Str → Service Request Request.Result ρ} {events : List (Event LinkSys)} {s : ρ}

private theorem servedBy_acts (hup : up server) (h : (svc server).Serial s (events.filterMap askedOf))
    (hfound : ∀ ev ∈ events, FindsLink ev.call ev.reply) : ∃ t, Acts (ServedBy svc up server) s events t := by
  induction events generalizing s with
  | nil => exact ⟨s, .nil s⟩
  | cons ev events ih =>
    obtain ⟨hev, hrest⟩ := List.forall_mem_cons.mp hfound
    obtain ⟨c, found⟩ := ev
    cases c with
    | request r =>
      change (svc server).Serial s (⟨r, some found⟩ :: events.filterMap askedOf) at h
      cases h with
      | cons comes rest =>
        obtain ⟨t, ht⟩ := ih rest hrest
        exact ⟨t, .cons ⟨fun _ => comes, fun hdown => absurd hup hdown⟩ ht⟩
    | _ =>
      rw [List.filterMap_cons_none rfl] at h
      obtain ⟨t, ht⟩ := ih h hrest
      exact ⟨t, .cons ⟨fun _ => hev, rfl⟩ ht⟩

theorem servedBy_down (hdown : ¬ up server) : Acts (ServedBy svc up server) s events s := by
  induction events with
  | nil => exact .nil s
  | cons ev events ih =>
    obtain ⟨c, found⟩ := ev
    cases c with
    | request r => exact .cons ⟨fun hup => absurd hup hdown, fun _ => rfl⟩ ih
    | _ => exact .cons ⟨fun hup => absurd hup hdown, rfl⟩ ih

end Served

/-- The operations of a thread that runs callbacks are those of its callbacks, one after the other, and so are its calls,
with those of the operation that it is in the middle of. -/
def TakesTurns (log : List (Worker × Event ((Sock Kind ClientSys).table Str)))
    (finished : List (Worker × Completed (links host connections P).carry))
    (middle : Worker → Option (Task (links host connections P).carry)) (n : Nat) : Prop :=
  ∃ turns : List (Turn host connections P),
    (finished.filter fun y => y.1 = .callback n).map Prod.snd = turns.flatMap Turn.ops ∧
    (log.filter fun y => y.1 = .callback n).map Prod.snd =
      turns.flatMap Turn.calls ++ (middle (.callback n)).elim [] Task.calls ∧
    ∀ turn ∈ turns.dropLast, turn.Returned

/-- What the threads of the client have done is what threads could have done for which every operation on a connection
is one step, that on a connection that lasts is served by a service: the operations come in the order in which they
have come to their ends, the threads stand where those stand, and every callback has returned over its operations as
single steps what it has returned over their calls. -/
def Mount.Atomic {ρ : Type} (x : Mount host host' connections P up sys conn u)
    (svc : Str → Service Request Request.Result ρ) (s : Str → ρ) : Prop :=
  ∃ (finished : List (Worker × Completed (links host connections P).carry))
    (middle : Worker → Option (Task (links host connections P).carry)) (t : Str → ρ)
    (running : Worker → Prog (LinkSys.table Str) Bool),
    Finishes (links host connections P).carry ((links host connections P).Fair up) x.log finished middle ∧
    (table (fun server _ => ServedBy svc up server) (MountBegins connections P)).Logs (fun _ _ _ => True) (.idle s)
      (finished.map fun y => (y.1, y.2.event)) ⟨t, running⟩ ∧
    (∀ i, Alongside (links host connections P).carry (x.reached.running i) (running i) (middle i)) ∧
    ∀ n, TakesTurns x.log finished middle n

private theorem takesTurns_of_logs {u : Threads.State (LinkSys.table Str) Worker Unit}
    {log : List (Worker × Event ((Sock Kind ClientSys).table Str))}
    {finished : List (Worker × Completed (links host connections P).carry)}
    {middle : Worker → Option (Task (links host connections P).carry)}
    (htold : Finishes (links host connections P).carry ((links host connections P).Fair up) log finished middle)
    (hlogs : (free (MountBegins connections P)).Logs (fun _ _ _ => True) (.idle ())
      (finished.map fun y => (y.1, y.2.event)) u) (n : Nat) : TakesTurns log finished middle n := by
  obtain ⟨programs, hcalls, hdone, -⟩ := hlogs.started (.callback n)
  have hops : ((finished.filter fun y => y.1 = .callback n).map Prod.snd).map Completed.event =
      programs.flatMap Started.calls := by
    rw [← hcalls, List.filter_map, List.map_map, List.map_map]
    rfl
  obtain ⟨turns, hturns, -, hreturned⟩ := turns_of n hops hdone
  refine ⟨turns, hturns, ?_, hreturned⟩
  rw [htold.thread, hturns, List.flatMap_assoc]
  rfl

private theorem Mount.atomic {ρ : Type} {x : Mount host host' connections P up sys conn u}
    {svc : Str → Service Request Request.Result ρ} {s : Str → ρ} (hbeat : P .heartbeat)
    (hserial : ∀ server, up server →
      ∀ y : Exchange host (host' server) (x.objects server).socket_ (sys server) (conn server) (u server),
        (∀ o ∈ y.errands, P o.request) → (x.Unbroken → y.Unbroken) →
          (svc server).Serial (s server) (y.errands.map Errand.asked)) : x.Atomic svc s := by
  have hlogs : ((links host connections P).threads (MountBegins connections P)).Logs
      (Objects.Calm up (· ≠ .destroy) LinkLasts) (.idle x.objects) x.log x.reached :=
    x.made.starts_mono begins_of_starts
  obtain ⟨finished, middle, r, h⟩ := links_fenced.abreast (begins_proper hbeat) hlogs
  have hcomes (server : Str) : ∃ t, Acts (ServedBy svc up server) (s server)
      (uponObject server (finished.map fun y => (y.1, y.2.event))) t := by
    by_cases hup : up server
    · obtain ⟨pending, y, hy, hmeets, hunbroken⟩ := x.exchange hup h.told
      have hall := hserial server hup y hmeets hunbroken
      rw [hy, List.map_append] at hall
      refine servedBy_acts hup (errandsAt_asked ▸ hall.left) fun ev hev => ?_
      obtain ⟨z, hz, rfl⟩ := List.mem_map.mp hev
      obtain ⟨hz, hserver⟩ := List.mem_filter.mp hz
      obtain ⟨⟨i, ⟨k, c⟩, calls, found, runs⟩, hmem, rfl⟩ := List.mem_map.mp hz
      obtain rfl : k = server := of_decide_eq_true hserver
      cases c with
      | connected => exact h.looked (x := (i, ⟨(k, .connected), calls, found, runs⟩)) hmem hup (.inl rfl)
      | _ => trivial
    · exact ⟨_, servedBy_down hup⟩
  choose t ht using hcomes
  exact ⟨finished, middle, t, r.running, h.told, h.logs.realise ht, h.stands, takesTurns_of_logs h.told h.logs⟩

/-- The client and its servers, as long as connections last and their transfers are unbroken: every operation of every
thread is one step, on the machine of the server. -/
theorem mount_atomic {x : Mount host host' connections P up sys conn u} (hbeat : P .heartbeat)
    (hheld : ∀ r, P r → r.Held) (hsteady : ∀ server, up server → Steady (sys server) (conn server).mountPoint_ P)
    (hconn : ∀ server, up server → 0 ≤ (conn server).socket_) (h : x.Unbroken) :
    x.Atomic (fun server => remoteService (sys server) (conn server)) u := by
  refine Mount.atomic hbeat fun server hup y hmeets hunbroken => ?_
  have hinStep := (hunbroken h).inStep_of_meets (hsteady server hup) (x.started server hup).nonneg (hconn server hup)
    hheld hmeets
  exact hinStep.serial (fun _ => rfl) fun _ _ _ => y.performed.done

/-- With disks on the machines of the servers, all threads see one store of files on every server. -/
theorem mount_fileStores {ι : Type} {disk : ∀ server, Disk (sys server) ι} {names : Str → Str → Option ι}
    {x : Mount host host' connections P up sys conn u} (hbeat : P .heartbeat)
    (hheld : ∀ r, P r → r.Held ∧ r.Gentle)
    (hsteady : ∀ server, up server → Steady (sys server) (conn server).mountPoint_ P)
    (hstable : ∀ server, up server → (disk server).Stable (names server))
    (htakes : ∀ server, up server → (disk server).TakesAll) (hdelivers : ∀ server, up server → (disk server).Delivers)
    (hconn : ∀ server, up server → 0 ≤ (conn server).socket_) (h : x.Unbroken) :
    x.Atomic (fun server => fileStore fun path => names server (cstr ((conn server).file path.1)))
      fun server => (disk server).contents (u server) := by
  refine Mount.atomic hbeat fun server hup y hmeets hunbroken => ?_
  have hinStep := (hunbroken h).inStep_of_meets (hsteady server hup) (x.started server hup).nonneg (hconn server hup)
    (fun r hr => (hheld r hr).1) hmeets
  exact hinStep.fileStore (fun _ _ _ => y.performed.done) (hstable server hup) (htakes server hup)
    (hdelivers server hup) fun o ho => (hheld _ (hmeets o ho)).2

end Mounts

theorem mount_plays {host : Endian} {connections : Connections} {P : Request → Prop} {up : Str → Prop} {server : Str}
    {i : Worker} {th : Thread} (hth : i.thread server = some th) (hi : i ≠ .destroy) {events : List ClientEvent}
    {s : Str → Object} (h : (s server).Plays (fun s th ev => up server → s.Lasts th ev) th events) :
    Acts (fun s c r t => (mountThreads host connections P).Does i s c r t ∧
        Objects.Calm up (· ≠ .destroy) LinkLasts s i ⟨c, r⟩) s (events.map (Event.upon server))
      (Function.update s server ((s server).play th events)) := by
  induction events generalizing s with
  | nil =>
    rw [show (s server).play th [] = s server from rfl, Function.update_eq_self]
    exact .nil s
  | cons ev events ih =>
    obtain ⟨c, r⟩ := ev
    obtain ⟨⟨hpossible, hlasts⟩, hrest⟩ := h
    have hcalm (hup : up server) (th' : Thread) (hth' : i.thread server = some th') : (s server).Lasts th' ⟨c, r⟩ := by
      cases hth.symm.trans hth'
      exact hlasts hup
    have hacts := ih (s := Function.update s server ((s server).after th c r)) (by rwa [Function.update_self])
    rw [Function.update_self, Function.update_idem] at hacts
    exact .cons ⟨⟨_, ⟨th, hth, hpossible, rfl⟩, rfl⟩, hi, hcalm⟩ hacts

private theorem Object.Plays.mono {C D : Object → Thread → ClientEvent → Prop} {s : Object} {i : Thread}
    {events : List ClientEvent} (h : s.Plays C i events) (himp : ∀ {s i ev}, C s i ev → D s i ev) :
    s.Plays D i events := by
  induction events generalizing s with
  | nil => trivial
  | cons ev events ih => exact ⟨⟨h.1.1, himp h.1.2⟩, ih h.2⟩

def callsUpon (i : Worker) (server : Str) (events : List ClientEvent) :
    List (Worker × Event ((Sock Kind ClientSys).table Str)) :=
  (events.map (Event.upon server)).map fun ev => (i, ev)

section Logs
variable {host : Endian} {connections : Connections} {P : Request → Prop} {up : Str → Prop} {server : Str} {i : Worker}
  {th : Thread} {s t : Threads.State ((Sock Kind ClientSys).table Str) Worker (Str → Object)}
  {log : List (Worker × Event ((Sock Kind ClientSys).table Str))} {p q : ClientIo Bool} {events : List ClientEvent}
  (hth : i.thread server = some th) (hi : i ≠ .destroy)
  (h : (mountThreads host connections P).Logs (Objects.Calm up (· ≠ .destroy) LinkLasts) s log t)
  (hruns : Runs p events q) (hplays : (t.shared server).Plays (fun s th ev => up server → s.Lasts th ev) th events)
include hth hi h hruns hplays

private theorem mount_begins (hidle : t.running i = .ret true)
    (hstarts : MountStarts host connections P i (p.upon server)) :
    (mountThreads host connections P).Logs (Objects.Calm up (· ≠ .destroy) LinkLasts) s
      (log ++ callsUpon i server events) ⟨Function.update t.shared server ((t.shared server).play th events),
        Function.update t.running i (q.upon server)⟩ :=
  h.plays hidle hstarts (hruns.upon server) (mount_plays hth hi hplays)

private theorem mount_resumes (hp : t.running i = p.upon server) :
    (mountThreads host connections P).Logs (Objects.Calm up (· ≠ .destroy) LinkLasts) s
      (log ++ callsUpon i server events) ⟨Function.update t.shared server ((t.shared server).play th events),
        Function.update t.running i (q.upon server)⟩ :=
  h.acts hp (hruns.upon server) (mount_plays hth hi hplays)

end Logs

private theorem uponObject_append {ι K : Type} {S : Signature} [DecidableEq K] (k : K)
    (log log' : List (ι × Event (S.table K))) :
    uponObject k (log ++ log') = uponObject k log ++ uponObject k log' := by
  rw [uponObject, List.filter_append, List.map_append]
  rfl

private theorem upon_callsUpon (server : Str) (i : Worker) (k : Str) (events : List ClientEvent) :
    uponObject server (callsUpon i k events) = if k = server then events else [] := by
  induction events with
  | nil => simp [callsUpon, uponObject]
  | cons ev events ih =>
    rw [callsUpon, List.map_cons, List.map_cons, uponObject_cons]
    by_cases hk : k = server
    · rw [if_pos hk] at ih ⊢
      rw [if_pos (show (Event.upon k ev).call.1 = server from hk)]
      exact congrArg (ev :: ·) ih
    · rw [if_neg hk] at ih ⊢
      rw [if_neg (show ¬ (Event.upon k ev).call.1 = server from hk)]
      exact ih

def serverB : ServerConnection := ⟨[0x62], [0x37], [0x6B]⟩

def serversAB : Connections := onlyServerA.insert [0x62] serverB

private theorem linkTo_serverA : linkTo serversAB [0x61] = serverA := by
  rw [linkTo, serversAB, Std.TreeMap.getD_insert, if_neg (by decide), onlyServerA, Std.TreeMap.getD_insert_self]

private theorem linkTo_serverB : linkTo serversAB [0x62] = serverB := Std.TreeMap.getD_insert_self

private theorem mem_serverA : [0x61] ∈ serversAB := Std.TreeMap.mem_insert.mpr (.inr Std.TreeMap.mem_insert_self)

def loadedB : Object where
  socket_ := 4
  closed_ := false
  monitor_ := none
  operations := 0
  sockets fd := if fd = 4 then some ⟨true, [.key (htobe64 1), .key [0x6B], .accept]⟩ else none
  past := []
  answering := true
  leaving := false

/-- `heartbeatThread` gets no answer from `b`, and closes the socket. -/
def beatLost : List ClientEvent :=
  [⟨.sys .getClosed, false⟩, ⟨.sys .getSocket, (4 : Fd)⟩, ⟨.sys .lock, ()⟩, ⟨.sys .getSocket, (4 : Fd)⟩,
    ⟨.send .command 4 (htobe16 cmd.HEARTBEAT), .all _⟩, ⟨.sys .getSocket, (4 : Fd)⟩,
    ⟨.recv .command 4 2, .fail .EAGAIN⟩, ⟨.sys .getSocket, (4 : Fd)⟩, ⟨.sys (.close 4), .ok ()⟩,
    ⟨.sys (.setSocket (-1)), ()⟩, ⟨.sys .unlock, ()⟩]

/-- `heartbeatThread` is to connect again, but the name of the machine is not known any more. -/
def diallingFailed : List ClientEvent :=
  [⟨.sys .getClosed, false⟩, ⟨.sys .getSocket, (-1 : Fd)⟩, ⟨.sys (.getaddrinfo [0x62] [0x37]), false⟩,
    ⟨.sys (.setSocket (-1)), ()⟩, ⟨.sys .getSocket, (-1 : Fd)⟩]

private theorem beatLost_runs : Runs (heartbeatThread .big serverB) beatLost (.ret true) := by
  repeat apply Runs.step
  exact .refl _

private theorem diallingFailed_runs : Runs (heartbeatThread .big serverB) diallingFailed (.ret true) := by
  repeat apply Runs.step
  exact .refl _

private theorem failing_plays :
    loadedB.PlaysAll (fun _ _ _ => True) [(.heartbeat, beatLost), (.heartbeat, diallingFailed)] := by
  simp [beatLost, diallingFailed, Object.PlaysAll, Object.play, Object.Plays, Object.Possible, Object.after, loadedB,
    Object.note, Object.put, Object.heard]

def loadedAB (server : Str) : Object := if server = [0x61] then loadedA else loadedB

/-- One thread writes to `a` and another one reads there, while the connection to `b` is lost. -/
def twoServersLog : List (Worker × Event ((Sock Kind ClientSys).table Str)) :=
  callsUpon (.callback 1) [0x61] looked ++ callsUpon (.callback 0) [0x61] (looked ++ writeSent) ++
    callsUpon (.heartbeat [0x62]) [0x62] beatLost ++ callsUpon (.heartbeat [0x61]) [0x61] beatBegun ++
    callsUpon (.callback 0) [0x61] writeEnded ++ callsUpon (.heartbeat [0x61]) [0x61] beatCalls ++
    callsUpon (.heartbeat [0x62]) [0x62] diallingFailed ++ callsUpon (.callback 1) [0x61] reading.calls

private theorem writeOnA_starts : MountStarts .big serversAB Request.Mild (.callback 0)
    ((through .big (writeOnA serversAB) >>= fun _ => return true).upon [0x61]) := by
  refine ⟨.write fileOnA threeBytes (Int64.ofNat 0), writeFile_mild (by decide) _, ?_⟩
  rw [upon_bind, writeOnA, ← handle_through (only_agfsWrite serversAB fileOnA _ _)]
  rfl

private theorem readOnA_starts : MountStarts .big serversAB Request.Mild (.callback 1)
    ((through .big (readOnA serversAB) >>= fun _ => return true).upon [0x61]) := by
  refine ⟨.read fileOnA 2 (Int64.ofNat 1), readFile_mild _ (by decide), ?_⟩
  rw [upon_bind, readOnA, ← handle_through (only_agfsRead serversAB fileOnA _ _)]
  rfl

private theorem beatOnA_starts : MountStarts .big serversAB Request.Mild (.heartbeat [0x61])
    ((heartbeatThread .big serverA).upon [0x61]) := ⟨mem_serverA, by rw [linkTo_serverA]⟩

private theorem beatOnB_starts : MountStarts .big serversAB Request.Mild (.heartbeat [0x62])
    ((heartbeatThread .big serverB).upon [0x62]) := ⟨Std.TreeMap.mem_insert_self, by rw [linkTo_serverB]⟩

private theorem twoServersLog_made : ∃ reached, (mountThreads .big serversAB Request.Mild).Logs
    (Objects.Calm (· = [0x61]) (· ≠ .destroy) LinkLasts) (.idle loadedAB) twoServersLog reached := by
  obtain ⟨p, hread₁, hread₂⟩ := (readOnA_runs mem_serverA).split
  obtain ⟨q, hwrite₁, hwrite₂⟩ := (writeOnA_runs mem_serverA).split
  obtain ⟨r, hbeat₁, hbeat₂⟩ := beat_runs.split
  obtain ⟨hplays₁, hplays₂, hplays₃, hplays₄, hplays₅, hplays₆, -⟩ := sharedTurns_plays
  obtain ⟨hlost, hfailed, -⟩ := failing_plays
  have lasting {s : Object} {i : Thread} {events : List ClientEvent} (h : s.Plays Object.Lasts i events) :
      s.Plays (fun s th ev => ([0x61] : Str) = [0x61] → s.Lasts th ev) i events := h.mono fun h _ => h
  have failing {s : Object} {i : Thread} {events : List ClientEvent} (h : s.Plays (fun _ _ _ => True) i events) :
      s.Plays (fun s th ev => ([0x62] : Str) = [0x61] → s.Lasts th ev) i events :=
    h.mono fun _ hup => absurd hup (by decide)
  have h₀ : (mountThreads .big serversAB Request.Mild).Logs (Objects.Calm (· = [0x61]) (· ≠ .destroy) LinkLasts)
    (.idle loadedAB) [] (.idle loadedAB) := .nil
  have h₁ := mount_begins (i := .callback 1) rfl nofun h₀ hread₁ (lasting hplays₁) rfl readOnA_starts
  have h₂ := mount_begins (i := .callback 0) rfl nofun h₁ hwrite₁ (lasting hplays₂) rfl writeOnA_starts
  have h₃ := mount_begins (i := .heartbeat [0x62]) rfl nofun h₂ beatLost_runs (failing hlost) rfl beatOnB_starts
  have h₄ := mount_begins (i := .heartbeat [0x61]) rfl nofun h₃ hbeat₁ (lasting hplays₃) rfl beatOnA_starts
  have h₅ := mount_resumes (i := .callback 0) (p := q) rfl nofun h₄ hwrite₂ (lasting hplays₄) rfl
  have h₆ := mount_resumes (i := .heartbeat [0x61]) (p := r) rfl nofun h₅ hbeat₂ (lasting hplays₅) rfl
  have h₇ := mount_begins (i := .heartbeat [0x62]) rfl nofun h₆ diallingFailed_runs (failing hfailed) rfl beatOnB_starts
  exact ⟨_, mount_resumes (i := .callback 1) (p := p) rfl nofun h₇ hread₂ (lasting hplays₆) rfl⟩

private theorem upon_twoServersLog :
    uponObject [0x61] twoServersLog = (sharedTurns.flatMap fun turn => callsOf turn.1 turn.2).map Prod.snd := by
  simp only [twoServersLog, uponObject_append, upon_callsUpon]
  rfl

/-- A client with two connections, of which one fails while the other is used by two callbacks. -/
noncomputable def twoServers : Mount .big (fun _ => .little) serversAB Request.Mild (· = [0x61]) (fun _ => filed)
    (fun _ => rootServer) (fun _ => ([], 0)) where
  objects := loadedAB
  started := by
    rintro _ rfl
    rw [linkTo_serverA]
    exact loadedA_started
  log := twoServersLog
  reached := twoServersLog_made.choose
  made := twoServersLog_made.choose_spec
  passes _ := sharedByThree.passes
  served := by
    rintro _ rfl
    exact sharedByThree.served
  sends := by
    rintro _ rfl
    rw [upon_twoServersLog]
    exact sharedByThree.up
  gets := by
    rintro _ rfl
    rw [upon_twoServersLog]
    exact sharedByThree.down

private theorem twoServers_unbroken : twoServers.Unbroken where
  client := by
    rintro _ rfl
    rw [twoServers, upon_twoServersLog]
    exact List.forall_mem_map.mpr sharedByThree_unbroken.client
  server := by
    rintro _ rfl
    exact sharedByThree_unbroken.server
  stores := by
    rintro _ rfl
    exact sharedByThree_unbroken.stores

theorem mount_atomic_twoServers :
    twoServers.Atomic (fun _ => remoteService filed rootServer) (fun _ => ([], 0)) :=
  mount_atomic ⟨trivial, trivial⟩ (fun _ h => h.1) (fun _ _ => filed_steady) (fun _ _ => by decide) twoServers_unbroken

theorem mount_fileStores_twoServers :
    twoServers.Atomic (fun _ => fileStore fun _ => some ()) (fun _ => filed_disk.contents ([], 0)) :=
  mount_fileStores ⟨trivial, trivial⟩ (fun _ h => h) (fun _ _ => filed_steady) (fun _ _ => filed_stable)
    (fun _ _ => filed_takesAll) (fun _ _ => filed_delivers) (fun _ _ => by decide) twoServers_unbroken

end AgFS
