import AgFS.Concurrency.Serialized
import AgFS.Interaction.Atomic
import AgFS.Model.Callbacks

/-! The client as a whole: callbacks, the threads that send heartbeats, and `agfs_destroy`, on all connections. -/
namespace AgFS
open Interaction ByteOrder Sock Threads

abbrev TableIo := Prog ((Sock Kind ClientSys).table Str)

/-- The threads of the client. -/
inductive Worker where
  | callback (n : Nat)
  | heartbeat (server : Str)
  | destroy
  deriving DecidableEq

/-- Which thread it is of the connection to a server, if it works on this one. -/
def Worker.thread (server : Str) : Worker → Option Thread
  | .callback n => some (.callback n)
  | .heartbeat server' => if server' = server then some .heartbeat else none
  | .destroy => some .destroy

def Thread.worker (server : Str) : Thread → Worker
  | .callback n => .callback n
  | .heartbeat => .heartbeat server
  | .destroy => .destroy

private theorem Worker.of_thread {i : Worker} {server : Str} {th : Thread} (h : i.thread server = some th) :
    th.worker server = i := by
  cases i with
  | callback n | destroy =>
    cases h
    rfl
  | heartbeat server' =>
    rw [thread] at h
    split at h
    · next hserver =>
      cases h
      rw [Thread.worker, hserver]
    · cases h

def stopAll : List Str → TableIo Bool
  | [] => return false
  | server :: rest => do
    let _ ← ServerConnection.stop.upon server
    stopAll rest

def linkTo (connections : Connections) (server : Str) : ServerConnection := connections.getD server ⟨[], [], []⟩

/-- What the threads run: callbacks whose requests meet `P`, and `heartbeatThread` for every connection. -/
def MountStarts (host : Endian) (connections : Connections) (P : Request → Prop) : Worker → TableIo Bool → Prop
  | .callback _, p => ∃ c : FuseCall, c.Asks P ∧
      p = (c.code connections).handle (fun d : AgfsCall => (carryOut host d).upon d.server) >>= fun _ => return true
  | .heartbeat server, p =>
    server ∈ connections ∧ p = (heartbeatThread host (linkTo connections server)).upon server
  | .destroy, p => p = stopAll connections.keys

def workerDoes (server : Str) (i : Worker) (s : Object) (c : SockCall Kind ClientSys)
    (r : (Sock Kind ClientSys).Reply c) (t : Object) : Prop :=
  ∃ th, i.thread server = some th ∧ Object.Does th s c r t

def mountThreads (host : Endian) (connections : Connections) (P : Request → Prop) :
    Threads ((Sock Kind ClientSys).table Str) Worker (Str → Object) :=
  table workerDoes (MountStarts host connections P)

/-- The operations of a `ServerConnection` as single calls. -/
inductive LinkCall where
  | connected
  | closed
  | connect
  | stop
  | request (r : Request)

abbrev LinkSys : Signature where
  Call := LinkCall
  Reply
    | .connected => Bool
    | .closed => Bool
    | .connect => Unit
    | .stop => AgerrT
    | .request r => r.Result

def ServerConnection.operate (host : Endian) (self : ServerConnection) : (c : LinkCall) → ClientIo (LinkSys.Reply c)
  | .connected => connected
  | .closed => closed
  | .connect => self.connect host
  | .stop => stop
  | .request r => r.perform host

def AgfsCall.link : (d : AgfsCall) → Prog (LinkSys.table Str) (AgfsSys.Reply d)
  | .connected server => .call (server, .connected) .ret
  | .request server r => .call (server, .request r) .ret

/-- A round of `heartbeatThread`, by its operations. -/
def beat (server : Str) : Prog (LinkSys.table Str) Bool :=
  .call (server, .closed) fun (closed : Bool) =>
    if closed then .ret false else .call (server, .connected) fun (connected : Bool) =>
      if connected then .call (server, .request .heartbeat) fun _ => .ret true
      else .call (server, .connect) fun _ => .ret true

def stopping : List Str → Prog (LinkSys.table Str) Bool
  | [] => .ret false
  | server :: rest => .call (server, .stop) fun _ => stopping rest

def MountBegins (connections : Connections) (P : Request → Prop) : Worker → Prog (LinkSys.table Str) Bool → Prop
  | .callback _, q =>
    ∃ c : FuseCall, c.Asks P ∧ q = (c.code connections).handle AgfsCall.link >>= fun _ => .ret true
  | .heartbeat server, q => server ∈ connections ∧ q = beat server
  | .destroy, q => q = stopping connections.keys

/-- The connection objects, of which operations hold the monitor. -/
def links (host : Endian) (connections : Connections) (P : Request → Prop) :
    Objects (Sock Kind ClientSys) LinkSys Worker Object Str where
  does := workerDoes
  code c := (linkTo connections c.1).operate host c.2
  Guarded c := ∃ r, c = .request r ∧ P r
  Looks c := c = .connected ∨ c = .closed
  lock := acquiring
  unlock := givingBack
  holder server s := s.monitor_.map (Thread.worker server)

section Programs
variable {host : Endian} {connections : Connections} {P : Request → Prop}

theorem upon_bind {S : Signature} {K α β : Type} (k : K) (p : Prog S α) (f : α → Prog S β) :
    (p >>= f).upon k = p.upon k >>= fun a => (f a).upon k := by
  induction p with
  | ret a => rfl
  | call c g ih => exact congrArg (Prog.call (S := S.table K) (k, c)) (funext ih)

theorem handle_through {α : Type} {server : Str} {p : AgfsIo α} (h : p.Only fun d : AgfsCall => d.server = server) :
    (p.handle fun d : AgfsCall => (carryOut host d).upon d.server) = (through host p).upon server := by
  induction p with
  | ret a => rfl
  | call d f ih =>
    obtain ⟨hd, hrest⟩ := h
    change (carryOut host d).upon d.server >>= _ = (carryOut host d >>= fun r => through host (f r)).upon server
    rw [upon_bind, hd]
    exact congrArg _ (funext fun r => ih r (hrest r))

private theorem handle_link {α : Type} (p : AgfsIo α) :
    (p.handle AgfsCall.link).handle (links host connections P).carry =
      p.handle fun d : AgfsCall => (carryOut host d).upon d.server := by
  induction p with
  | ret a => rfl
  | call d f ih =>
    rw [Prog.handle, Prog.handle, Prog.handle_bind]
    simp only [ih]
    refine congrArg (· >>= _) ?_
    cases d with
    | connected server => exact bind_pure ((carryOut host (.connected server)).upon server)
    | request server r => exact bind_pure ((carryOut host (.request server r)).upon server)

private theorem handle_beat (server : Str) : (beat server).handle (links host connections P).carry =
    (heartbeatThread host (linkTo connections server)).upon server := by
  refine congrArg (Prog.call (S := (Sock Kind ClientSys).table Str) (server, .sys .getClosed))
    (funext fun closed => ?_)
  cases (closed : Bool) with
  | true => rfl
  | false =>
    refine congrArg (Prog.call (S := (Sock Kind ClientSys).table Str) (server, .sys .getSocket)) (funext fun fd => ?_)
    change Prog.handle _ (if (!decide ((fd : Fd) < 0)) then _ else _) =
      Prog.upon server (if !(!decide ((fd : Fd) < 0)) then _ else _)
    cases decide ((fd : Fd) < 0) with
    | false => exact (upon_bind server (ServerConnection.heartbeat host) fun _ => .ret true).symm
    | true => exact (upon_bind server ((linkTo connections server).connect host) fun _ => .ret true).symm

private theorem handle_stopping (servers : List Str) :
    (stopping servers).handle (links host connections P).carry = stopAll servers := by
  induction servers with
  | nil => rfl
  | cons server rest ih =>
    rw [stopping, Prog.handle, stopAll]
    simp only [ih]
    rfl

theorem begins_of_starts {i : Worker} {p : TableIo Bool} (h : MountStarts host connections P i p) :
    ∃ q, MountBegins connections P i q ∧ p = q.handle (links host connections P).carry := by
  cases i with
  | callback n =>
    obtain ⟨c, hc, rfl⟩ := h
    refine ⟨_, ⟨c, hc, rfl⟩, ?_⟩
    rw [Prog.handle_bind, handle_link]
    rfl
  | heartbeat server =>
    obtain ⟨hserver, rfl⟩ := h
    exact ⟨_, ⟨hserver, rfl⟩, (handle_beat server).symm⟩
  | destroy =>
    obtain rfl := h
    exact ⟨_, rfl, (handle_stopping _).symm⟩

variable (host connections P) in
/-- A callback that a thread has begun, as far as it has come: over the operations that it has finished, each as one
step, and over their calls. -/
structure Turn where
  callback : FuseCall
  asks : callback.Asks P
  ops : List (Completed (links host connections P).carry)
  left : Prog (LinkSys.table Str) callback.Result
  runs : Runs ((callback.code connections).handle AgfsCall.link) (ops.map Completed.event) left
  made : Runs ((callback.code connections).handle fun d : AgfsCall => (carryOut host d).upon d.server)
    (ops.flatMap Completed.calls) (left.handle (links host connections P).carry)

namespace Turn

def calls (turn : Turn host connections P) : List (Event ((Sock Kind ClientSys).table Str)) :=
  turn.ops.flatMap Completed.calls

/-- The callback has returned, over its operations as over their calls. -/
def Returned (turn : Turn host connections P) : Prop := ∃ res, turn.left = .ret res

end Turn

theorem turn_of {n : Nat} (p : Started (MountBegins connections P (.callback n)))
    {ops : List (Completed (links host connections P).carry)} (h : ops.map Completed.event = p.calls) :
    ∃ turn : Turn host connections P, turn.ops = ops ∧ (p.left = .ret true → turn.Returned) := by
  obtain ⟨program, ⟨c, hc, rfl⟩, calls, left, hruns⟩ := p
  obtain ⟨q, hq, hleft⟩ := Runs.bind_ret hruns
  subst h hleft
  refine ⟨⟨c, hc, ops, q, hq, handle_link (P := P) (c.code connections) ▸ hq.completed⟩, rfl, fun hret => ?_⟩
  cases q with
  | ret res => exact ⟨res, rfl⟩
  | call op k => cases hret

theorem turns_of (n : Nat) {programs : List (Started (MountBegins connections P (.callback n)))}
    {ops : List (Completed (links host connections P).carry)}
    (h : ops.map Completed.event = programs.flatMap Started.calls)
    (hdone : ∀ p ∈ programs.dropLast, p.left = .ret true) :
    ∃ turns : List (Turn host connections P), ops = turns.flatMap Turn.ops ∧ turns.length = programs.length ∧
      ∀ turn ∈ turns.dropLast, turn.Returned := by
  induction programs generalizing ops with
  | nil =>
    obtain rfl := List.map_eq_nil_iff.mp h
    exact ⟨[], rfl, rfl, nofun⟩
  | cons p programs ih =>
    rw [List.flatMap_cons, List.map_eq_append_iff] at h
    obtain ⟨ops₁, ops₂, rfl, h₁, h₂⟩ := h
    obtain ⟨turn, rfl, hturn⟩ := turn_of p h₁
    cases programs with
    | nil =>
      obtain rfl := List.map_eq_nil_iff.mp h₂
      exact ⟨[turn], by simp, rfl, nofun⟩
    | cons p' programs =>
      rw [List.dropLast_cons_cons] at hdone
      obtain ⟨hp, hrest⟩ := List.forall_mem_cons.mp hdone
      obtain ⟨turns, rfl, hlength, hreturned⟩ := ih h₂ hrest
      refine ⟨turn :: turns, rfl, congrArg (· + 1) hlength, ?_⟩
      cases turns with
      | nil => cases hlength
      | cons turn' turns => exact List.forall_mem_cons.mpr ⟨hturn hp, hreturned⟩

end Programs

def FindsLink : (c : LinkCall) → LinkSys.Reply c → Prop
  | .connected, found => found = true
  | _, _ => True

/-- The connection to a server lasts, as far as a call of a thread on it goes. -/
def LinkLasts (server : Str) (s : Object) (i : Worker) (ev : ClientEvent) : Prop :=
  ∀ th, i.thread server = some th → s.Lasts th ev

section Fenced
variable {host : Endian} {connections : Connections} {P : Request → Prop} {up : Str → Prop}

theorem links_fenced : (links host connections P).Fenced up FindsLink LinkLasts where
  begins c := by
    obtain ⟨server, c⟩ := c
    cases c with
    | request r =>
      obtain ⟨k, hr, -⟩ := (r.locked : (r.perform host).Locked acquiring givingBack)
      exact ⟨_, k, hr⟩
    | _ => exact ⟨_, _, rfl⟩
  guarded := by
    rintro ⟨server, c⟩ - ⟨r, rfl, -⟩
    exact r.locked
  looks := by
    rintro ⟨server, c⟩ - (rfl | rfl)
    · refine ⟨.sys .getSocket, fun fd : Fd => !decide (fd < 0), rfl, nofun, nofun, ?_⟩
      rintro i s u r ⟨th, hth, hpossible, -⟩ hlasts
      obtain ⟨hopen, -⟩ := hlasts th hth
      obtain rfl := hpossible
      simpa [FindsLink] using hopen
    · exact ⟨.sys .getClosed, id, rfl, nofun, nofun, fun _ _ => trivial⟩
  locks := by
    rintro server i s u r - ⟨th, hth, hdoes⟩
    obtain ⟨hfree, hholder⟩ := (object_monitor fun _ _ => True).locks hdoes
    refine ⟨congrArg (Option.map (Thread.worker server)) hfree, ?_⟩
    exact (congrArg (Option.map (Thread.worker server)) hholder).trans (congrArg some (Worker.of_thread hth))
  unlocks := by
    rintro server i s u r - ⟨th, -, hdoes⟩
    have hfree := (object_monitor fun _ _ => True).unlocks hdoes
    exact congrArg (Option.map (Thread.worker server)) hfree
  others := by
    rintro server i s u c r - ⟨th, -, hdoes⟩ hlock hunlock
    have hsame := (object_monitor fun _ _ => True).others hdoes hlock hunlock
    exact congrArg (Option.map (Thread.worker server)) hsame

private theorem only_link {α : Type} {p : AgfsIo α} (hp : p.Only (AgfsCall.Meets P)) :
    (p.handle AgfsCall.link).Only fun c : Str × LinkCall =>
      up c.1 → (links host connections P).Guarded c.2 ∨ (links host connections P).Looks c.2 := by
  induction p with
  | ret a => trivial
  | call d f ih =>
    obtain ⟨hd, hrest⟩ := hp
    cases d with
    | connected server => exact ⟨fun _ => .inr (.inl rfl), fun r => ih r (hrest r)⟩
    | request server r => exact ⟨fun _ => .inl ⟨r, rfl, hd⟩, fun res => ih res (hrest res)⟩

theorem begins_proper (hbeat : P .heartbeat) {i : Worker} {q : Prog (LinkSys.table Str) Bool} (hi : i ≠ .destroy)
    (h : MountBegins connections P i q) : (links host connections P).Proper up FindsLink q := by
  cases i with
  | callback n =>
    obtain ⟨c, hc, rfl⟩ := h
    exact (Prog.Meets.of_only (only_link (FuseCall.only hc))).bind fun _ _ => trivial
  | heartbeat server =>
    obtain ⟨-, rfl⟩ := h
    refine ⟨fun _ => .inr (.inr rfl), fun (closed : Bool) _ => ?_⟩
    cases closed with
    | true => trivial
    | false =>
      refine ⟨fun _ => .inr (.inl rfl), fun (connected : Bool) hfound => ?_⟩
      cases connected with
      | true => exact ⟨fun _ => .inl ⟨_, rfl, hbeat⟩, fun _ _ => trivial⟩
      | false => exact ⟨fun hup => absurd (hfound hup (.inl rfl)) nofun, fun _ _ => trivial⟩
  | destroy => exact absurd rfl hi

end Fenced
end AgFS
