import AgFS.Concurrency.Locked
import AgFS.Model.Callbacks
import AgFS.Session.Serial

/-! Many threads on one connection: as long as it lasts, their operations come one after the other. -/
namespace AgFS
open Interaction ByteOrder Sock Threads

/-- Between two operations a thread looks whether the connection is closed, or connected. -/
def Tests : SockCall Kind ClientSys → Prop
  | .sys .getSocket | .sys .getClosed => True
  | _ => False

def Finds : (c : SockCall Kind ClientSys) → (Sock Kind ClientSys).Reply c → Prop
  | .sys .getSocket, fd => (0 : Fd) ≤ fd
  | _, _ => True

/-- The connection lasts: the object has a socket, which nobody closes and nobody replaces. -/
def Object.Lasts (s : Object) (i : Thread) (ev : ClientEvent) : Prop :=
  0 ≤ s.socket_ ∧ i ≠ .destroy ∧ ∀ fd, ev.call ≠ .sys (.close fd) ∧ ev.call ≠ .sys (.setSocket fd)

/-- What the threads run, seen from the connection to one server, when the requests that callbacks make meet `P`. -/
def ServerConnection.Begins (host : Endian) (self : ServerConnection) (P : Request → Prop) :
    Thread → ClientIo Bool → Prop
  | .callback _, p => ∃ (α : Type) (callback : AgfsIo α) (q : ClientIo α),
      callback.Only (AgfsCall.Meets P) ∧ Seen host self.hostname_ callback q ∧ p = q >>= fun _ => return true
  | .heartbeat, p => p = heartbeatThread host self
  | .destroy, p => p = ServerConnection.stop >>= fun _ => return false

/-- The threads of the client on a connection, as in `ServerConnection.threads`, with such callbacks. -/
def ServerConnection.sharing (host : Endian) (self : ServerConnection) (P : Request → Prop) :
    Threads (Sock Kind ClientSys) Thread Object :=
  ⟨Object.Does, self.Begins host P⟩

def Request.performing (host : Endian) (P : Request → Prop) (o : { r : Request // P r }) : ClientIo o.1.Result :=
  o.1.perform host

section Threads
variable {host : Endian} {self : ServerConnection} {P : Request → Prop}

private theorem woven_seen {α : Type} {callback : AgfsIo α} {p : ClientIo α}
    (hseen : Seen host self.hostname_ callback p)
    (hmeets : callback.Only (AgfsCall.Meets P)) : Woven (Request.performing host P) Tests Finds p := by
  induction hseen with
  | ret a => exact .ret a
  | @here c k f h rest ih =>
    obtain ⟨hc, hrest⟩ := hmeets
    cases c with
    | connected server => exact .out trivial fun fd _ => ih _ (hrest _)
    | request server r => exact .op (⟨r, hc⟩ : { r : Request // P r }) fun res => ih res (hrest res)
  | elsewhere r h rest ih => exact ih (hmeets.2 r)

private theorem woven_heartbeatThread (hbeat : P .heartbeat) :
    Woven (Request.performing host P) Tests Finds (heartbeatThread host self) := by
  refine .out trivial fun closed _ => ?_
  cases closed with
  | true => exact .ret false
  | false =>
    refine .out trivial fun (fd : Fd) (hfd : 0 ≤ fd) => ?_
    change Woven (Request.performing host P) _ _ (if !(!decide (fd < 0)) then self.connect host >>= fun _ => .ret true
      else ServerConnection.heartbeat host >>= fun _ => .ret true)
    rw [if_neg (by simpa using hfd)]
    exact .op (⟨.heartbeat, hbeat⟩ : { r : Request // P r }) fun _ => .ret true

private theorem woven_begins (hbeat : P .heartbeat) {i : Thread} {p : ClientIo Bool} (hi : i ≠ .destroy)
    (h : self.Begins host P i p) : Woven (Request.performing host P) Tests Finds p := by
  cases i with
  | callback n =>
    obtain ⟨α, callback, q, hmeets, hseen, rfl⟩ := h
    exact (woven_seen hseen hmeets).bind fun _ => .ret true
  | heartbeat =>
    obtain rfl := h
    exact woven_heartbeatThread hbeat
  | destroy => exact absurd rfl hi

theorem object_monitor (Starts : Thread → ClientIo Bool → Prop) :
    Monitor ⟨Object.Does, Starts⟩ acquiring givingBack Object.monitor_ where
  locks h := by
    obtain ⟨hfree, rfl⟩ := h
    exact ⟨hfree, rfl⟩
  unlocks h := by
    obtain ⟨-, rfl⟩ := h
    rfl
  others {i s u c r} h hlock hunlock := by
    obtain ⟨-, rfl⟩ := h
    cases c with
    | recv m fd n =>
      cases m with
      | command =>
        simp only [Object.after, Object.heard]
        split
        · rfl
        · split <;> rfl
      | _ => rfl
    | send m fd bs => cases r <;> rfl
    | malloc n | scratch n | abort why => rfl
    | sys c =>
      cases c with
      | lock => exact absurd rfl hlock
      | unlock => exact absurd rfl hunlock
      | socket | connect fd => cases r <;> rfl
      | _ => rfl

theorem sectioned (hbeat : P .heartbeat) : Sectioned (self.sharing host P) Object.Lasts (Request.performing host P)
    Tests Finds (· ≠ .destroy) acquiring givingBack where
  locked o := o.1.locked
  asideLock := id
  asideUnlock := id
  joins h := h.2.1
  starts := woven_begins hbeat
  gets {i s u c r} haside hdoes hlasts := by
    cases c with
    | sys c =>
      cases c with
      | getSocket =>
        obtain ⟨rfl, -⟩ := hdoes
        exact hlasts.1
      | _ => trivial
    | _ => trivial

/-- The field `socket_` stays as it is, and operations are answered as if the object were theirs alone. -/
theorem lasts_step {i : Thread} {fd : Fd} {s u : Object} {c : SockCall Kind ClientSys}
    {r : (Sock Kind ClientSys).Reply c}
    (hs : s.socket_ = fd) (hdoes : Object.Does i s c r u) (hlasts : s.Lasts i ⟨c, r⟩) :
    u.socket_ = fd ∧ (Attends c ∨ c = acquiring ∨ c = givingBack →
      Answered ClientSys.object fd [(⟨c, r⟩ : ClientEvent)] fd) := by
  obtain ⟨hpossible, rfl⟩ := hdoes
  obtain ⟨-, -, hkept⟩ := hlasts
  subst hs
  cases c with
  | recv m fd n =>
    refine ⟨?_, fun _ => rfl⟩
    cases m with
    | command =>
      simp only [Object.after, Object.heard]
      split
      · rfl
      · split <;> rfl
    | _ => rfl
  | send m fd bs => exact ⟨by cases r <;> rfl, fun _ => rfl⟩
  | malloc n | scratch n => exact ⟨rfl, fun _ => rfl⟩
  | abort why => exact hpossible.elim
  | sys c =>
    cases c with
    | lock | unlock => exact ⟨rfl, fun _ => ⟨rfl, rfl⟩⟩
    | getSocket =>
      obtain rfl := hpossible
      exact ⟨rfl, fun _ => ⟨rfl, rfl⟩⟩
    | close fd => exact absurd rfl (hkept fd).1
    | setSocket fd => exact absurd rfl (hkept fd).2
    | socket | connect fd =>
      refine ⟨by cases r <;> rfl, ?_⟩
      rintro (h | h | h) <;> cases h
    | _ =>
      refine ⟨rfl, ?_⟩
      rintro (h | h | h) <;> cases h

end Threads

def Errand.ofTask {host : Endian} {P : Request → Prop} (task : Task (Request.performing host P)) : Errand :=
  ⟨task.op.1, task.calls, task.left⟩

theorem answered_all {fd : Fd} {t : List ClientEvent} (h : ∀ ev ∈ t, Answered ClientSys.object fd [ev] fd) :
    Answered ClientSys.object fd t fd := by
  induction t with
  | nil => rfl
  | cons ev t ih =>
    obtain ⟨hev, ht⟩ := List.forall_mem_cons.mp h
    obtain ⟨c, r⟩ := ev
    cases c with
    | sys c =>
      obtain ⟨hr, hs⟩ := hev
      refine ⟨hr, ?_⟩
      rw [show (ClientSys.object fd c).1 = fd from hs]
      exact ih ht
    | _ => exact ih ht

theorem Performed.of_forall {host : Endian} {fd : Fd} {ops : List Errand} (hdone : ∀ o ∈ ops.dropLast, o.Done)
    (hops : ∀ o ∈ ops, Runs (o.request.perform host) o.calls o.left ∧ Answered ClientSys.object fd o.calls fd) :
    Performed host fd ops := by
  induction ops with
  | nil => exact .nil fd
  | cons o ops ih =>
    obtain ⟨⟨hruns, hanswered⟩, hrest⟩ := List.forall_mem_cons.mp hops
    cases ops with
    | nil => exact .cons hruns hanswered (absurd rfl) (.nil fd)
    | cons o' ops =>
      obtain ⟨ho, hdone⟩ := List.forall_mem_cons.mp hdone
      exact .cons hruns hanswered (fun _ => ho) (ih hdone hrest)

section Bytes
variable {ι : Type} {host : Endian} {P : Request → Prop} {log : List (ι × ClientEvent)}
  {tasks : List (ι × Task (Request.performing host P))}

theorem said_eq_flatMap (t : List ClientEvent) : said t = t.flatMap fun ev => said [ev] := by
  induction t with
  | nil => rfl
  | cons ev t ih => rw [Sock.said_cons, List.flatMap_cons, ih]

theorem heard_eq_flatMap (t : List ClientEvent) : heard t = t.flatMap fun ev => heard [ev] := by
  induction t with
  | nil => rfl
  | cons ev t ih => rw [Sock.heard_cons, List.flatMap_cons, ih]

theorem tests_silent {ev : ClientEvent} (h : Tests ev.call) : said [ev] = [] ∧ heard [ev] = [] := by
  obtain ⟨c, r⟩ := ev
  cases c with
  | sys c => exact ⟨rfl, rfl⟩
  | _ => exact h.elim

/-- What goes over the connection is what the operations send and take. -/
theorem weaves_bytes (h : Weaves (Request.performing host P) Tests log tasks) :
    said (log.map Prod.snd) = askedBy (tasks.map fun x => .ofTask x.2) ∧
      heard (log.map Prod.snd) = takenBy (tasks.map fun x => .ofTask x.2) := by
  have hsaid := h.flatMap fun ev hev => (tests_silent hev).1
  have hheard := h.flatMap fun ev hev => (tests_silent hev).2
  constructor
  · rw [said_eq_flatMap, List.flatMap_map, hsaid, askedBy, List.flatMap_map]
    exact congrArg tasks.flatMap (funext fun x => (said_eq_flatMap x.2.calls).symm)
  · rw [heard_eq_flatMap, List.flatMap_map, hheard, takenBy, List.flatMap_map]
    exact congrArg tasks.flatMap (funext fun x => (heard_eq_flatMap x.2.calls).symm)

end Bytes

end AgFS
