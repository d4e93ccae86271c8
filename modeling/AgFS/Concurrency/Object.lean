import AgFS.Interaction.Threads
import AgFS.Client.Through
import Mathlib.Data.Option.Basic

/-! A connection object that several threads use, with the sockets that belong to it. -/
namespace AgFS
open Interaction ByteOrder

/-- The threads of the client: callbacks of the file system, `heartbeatThread`, and the one
in which `agfs_destroy` runs. -/
inductive Thread where
  | callback (n : Nat)
  | heartbeat
  | destroy
  deriving DecidableEq

/-- What happens on a socket: a thread that does not hold the monitor sends bytes, such a
thread reads `ACCEPT`, or bytes are sent in the operation with this number. -/
inductive Happening where
  | key (bs : Bytes)
  | accept
  | command (operation : Nat) (bs : Bytes)
  deriving DecidableEq

/-- An open socket: whether it has a peer, and what has happened on it. -/
structure Socket where
  connected : Bool
  log : List Happening

def Socket.note (h : Happening) (sock : Socket) : Socket := { sock with log := sock.log ++ [h] }

/-- The fields of the object, and its sockets. Operations are numbered as they acquire the
monitor. `past` holds the logs of sockets that are closed, `answering` tells whether every
heartbeat since the last `ACCEPT` has been answered, `leaving` whether `agfs_destroy` has
read `socket_`. -/
structure Object where
  socket_ : Fd
  closed_ : Bool
  monitor_ : Option Thread
  operations : Nat
  sockets : Fd → Option Socket
  past : List (List Happening)
  answering : Bool
  leaving : Bool

namespace Object

/-- The log of a socket that is or was open. -/
def Logged (s : Object) (log : List Happening) : Prop :=
  log ∈ s.past ∨ ∃ fd sock, s.sockets fd = some sock ∧ sock.log = log

def put (s : Object) (fd : Fd) (sock : Option Socket) : Object :=
  { s with sockets := Function.update s.sockets fd sock }

def note (s : Object) (fd : Fd) (h : Happening) : Object :=
  s.put fd ((s.sockets fd).map (.note h))

def spoken (s : Object) (i : Thread) (bs : Bytes) : Happening :=
  if s.monitor_ = some i then .command s.operations bs else .key bs

def heard (s : Object) (i : Thread) (fd : Fd) (bs : Bytes) : Object :=
  if s.monitor_ = some i then
    { s with answering := s.answering && (i != .heartbeat || bs == htobe16 cmd.HEARTBEAT) }
  else if bs = htobe16 cmd.ACCEPT then { s.note fd .accept with answering := true }
  else s

/-- The answers a call may get. -/
def Possible (s : Object) : (c : SockCall Kind ClientSys) → (Sock Kind ClientSys).Reply c → Prop
  | .recv _ fd _, r => s.sockets fd = none → r = .fail .EBADF
  | .send _ fd _, r => s.sockets fd = none → r = .fail .EBADF
  | .malloc _, _ => True
  | .scratch _, _ => True
  | .abort _, _ => False
  | .sys .lock, _ => s.monitor_ = none
  | .sys .unlock, _ => True
  | .sys .getSocket, fd => fd = s.socket_
  | .sys (.setSocket _), _ => True
  | .sys .getClosed, b => b = s.closed_
  | .sys .setClosed, _ => True
  | .sys (.close fd), r => s.sockets fd = none → r = .error .EBADF
  | .sys (.getaddrinfo _ _), _ => True
  | .sys .socket, .ok fd => s.sockets fd = none
  | .sys .socket, .error _ => True
  | .sys (.connect fd), .ok _ => s.sockets fd ≠ none
  | .sys (.connect _), .error _ => True

/-- What a call of a thread does, given its answer. -/
def after (s : Object) (i : Thread) :
    (c : SockCall Kind ClientSys) → (Sock Kind ClientSys).Reply c → Object
  | .recv .command fd _, r => s.heard i fd (ReadReply.bytes r)
  | .recv _ _ _, _ => s
  | .send _ fd bs, .wrote count _ => s.note fd (s.spoken i (bs.take count))
  | .send _ _ _, .fail _ => s
  | .malloc _, _ => s
  | .scratch _, _ => s
  | .abort _, _ => s
  | .sys .lock, _ => { s with monitor_ := some i, operations := s.operations + 1 }
  | .sys .unlock, _ => { s with monitor_ := none }
  | .sys .getSocket, _ => { s with leaving := s.leaving || i == .destroy }
  | .sys (.setSocket fd), _ => { s with socket_ := fd }
  | .sys .getClosed, _ => s
  | .sys .setClosed, _ => { s with closed_ := true }
  | .sys (.close fd), _ => { s.put fd none with past := ((s.sockets fd).map Socket.log).toList ++ s.past }
  | .sys (.getaddrinfo _ _), _ => s
  | .sys .socket, .ok fd => s.put fd (some ⟨false, []⟩)
  | .sys .socket, .error _ => s
  | .sys (.connect fd), .ok _ => s.put fd ((s.sockets fd).map fun sock => { sock with connected := true })
  | .sys (.connect _), .error _ => s

def Does (i : Thread) (s : Object) (c : SockCall Kind ClientSys) (r : (Sock Kind ClientSys).Reply c)
    (t : Object) : Prop :=
  s.Possible c r ∧ t = s.after i c r

/-- Where a thread gets with calls that have been answered like this. -/
def play (s : Object) (i : Thread) : List (Event (Sock Kind ClientSys)) → Object
  | [] => s
  | ⟨c, r⟩ :: events => (s.after i c r).play i events

/-- The calls can be answered like this, and satisfy `C`. -/
def Plays (C : Object → Thread → Event (Sock Kind ClientSys) → Prop) (s : Object) (i : Thread) :
    List (Event (Sock Kind ClientSys)) → Prop
  | [] => True
  | ⟨c, r⟩ :: events => (s.Possible c r ∧ C s i ⟨c, r⟩) ∧ (s.after i c r).Plays C i events

theorem Plays.acts {C : Object → Thread → Event (Sock Kind ClientSys) → Prop} {s : Object} {i : Thread}
    {events : List (Event (Sock Kind ClientSys))} (h : s.Plays C i events) :
    Threads.Acts (fun s c r t => Does i s c r t ∧ C s i ⟨c, r⟩) s events (s.play i events) := by
  induction events generalizing s with
  | nil => exact .nil s
  | cons ev events ih => exact .cons ⟨⟨h.1.1, rfl⟩, h.1.2⟩ (ih h.2)

end Object

/-- What callbacks ask of connections. -/
def AgfsCall.Asked : AgfsCall → Prop
  | .connected _ => True
  | .request _ r => r ≠ .heartbeat

def AgfsCall.server : AgfsCall → Str
  | .connected server => server
  | .request server _ => server

/-- What a callback does with the connection to one server, whatever it gets from others. -/
inductive Seen (host : Endian) (server : Str) {α : Type} : AgfsIo α → ClientIo α → Prop
  | ret (a : α) : Seen host server (.ret a) (.ret a)
  | here {c : AgfsCall} {k : AgfsSys.Reply c → AgfsIo α} {f : AgfsSys.Reply c → ClientIo α}
      (h : c.server = server) (rest : ∀ r, Seen host server (k r) (f r)) :
      Seen host server (.call c k) (carryOut host c >>= f)
  | elsewhere {c : AgfsCall} {k : AgfsSys.Reply c → AgfsIo α} (r : AgfsSys.Reply c) {p : ClientIo α}
      (h : c.server ≠ server) (rest : Seen host server (k r) p) : Seen host server (.call c k) p

/-- What the threads run, seen from the connection to one server. -/
def ServerConnection.Starts (host : Endian) (self : ServerConnection) :
    Thread → ClientIo Bool → Prop
  | .callback _, p => ∃ (α : Type) (callback : AgfsIo α) (q : ClientIo α),
      callback.Only AgfsCall.Asked ∧ Seen host self.hostname_ callback q ∧ p = q >>= fun _ => return true
  | .heartbeat, p => p = heartbeatThread host self
  | .destroy, p => p = ServerConnection.stop >>= fun _ => return false

/-- The threads of the client on a connection. -/
def ServerConnection.threads (host : Endian) (self : ServerConnection) :
    Threads (Sock Kind ClientSys) Thread Object :=
  ⟨Object.Does, self.Starts host⟩

theorem ServerConnection.run_plays {host : Endian} {conn : ServerConnection}
    {C : Object → Thread → Event (Sock Kind ClientSys) → Prop}
    {s : Threads.State (Sock Kind ClientSys) Thread Object} {i : Thread} {p q : ClientIo Bool}
    {events : List (Event (Sock Kind ClientSys))} (hidle : s.running i = .ret true)
    (hstarts : conn.Starts host i p) (hruns : Runs p events q) (hplays : s.shared.Plays C i events) :
    (conn.threads host).Run C s ⟨s.shared.play i events, Function.update s.running i q⟩ :=
  Threads.Run.plays hidle hstarts hruns hplays.acts

theorem ServerConnection.run_resumes {host : Endian} {conn : ServerConnection}
    {C : Object → Thread → Event (Sock Kind ClientSys) → Prop}
    {s : Threads.State (Sock Kind ClientSys) Thread Object} {i : Thread} {p q : ClientIo Bool}
    {events : List (Event (Sock Kind ClientSys))} (hp : s.running i = p) (hruns : Runs p events q)
    (hplays : s.shared.Plays C i events) :
    (conn.threads host).Run C s ⟨s.shared.play i events, Function.update s.running i q⟩ :=
  Threads.Run.acts hp hruns hplays.acts

/-- What the key looks like on the wire. -/
def ServerConnection.keyBytes (self : ServerConnection) : Bytes :=
  htobe64 (UInt64.ofNat self.key_.length) ++ self.key_

/-- A connection as `main` leaves it to the threads: its one socket has carried the key, and
`ACCEPT` has been read from it. -/
structure Object.Started (conn : ServerConnection) (s : Object) : Prop where
  free : s.monitor_ = none
  running : s.closed_ = false ∧ s.leaving = false ∧ s.answering = true
  nonneg : 0 ≤ s.socket_
  only (fd : Fd) : s.sockets fd ≠ none → fd = s.socket_
  past : s.past = []
  log : ∃ sent : List Bytes, sent.flatten = conn.keyBytes ∧
    s.sockets s.socket_ = some ⟨true, sent.map .key ++ [.accept]⟩

/-- A server called `a`, with the key `k`. -/
def serverA : ServerConnection := ⟨[0x61], [0x37], [0x6B]⟩

/-- The connection to it, on descriptor 3. -/
def loadedA : Object where
  socket_ := 3
  closed_ := false
  monitor_ := none
  operations := 0
  sockets fd := if fd = 3 then some ⟨true, [.key (htobe64 1), .key [0x6B], .accept]⟩ else none
  past := []
  answering := true
  leaving := false

theorem loadedA_started : loadedA.Started serverA where
  free := rfl
  running := ⟨rfl, rfl, rfl⟩
  nonneg := by decide
  only fd hopen := by
    by_contra hfd
    exact hopen (if_neg hfd)
  past := rfl
  log := ⟨[htobe64 1, [0x6B]], rfl, rfl⟩

end AgFS
