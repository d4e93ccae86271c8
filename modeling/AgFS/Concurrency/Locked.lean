import AgFS.Codec.Calls
import AgFS.Concurrency.Object
import AgFS.Interaction.Sections

/-! Every operation of a connection object holds the monitor from its first call to its last, and what
threads do between operations only looks at the object. -/
namespace AgFS
open Interaction ByteOrder Sock Threads

abbrev acquiring : SockCall Kind ClientSys := .sys .lock

abbrev givingBack : SockCall Kind ClientSys := .sys .unlock

/-- What an operation calls while it holds the monitor. -/
def Attends : SockCall Kind ClientSys → Prop
  | .sys .getSocket | .sys (.close _) | .sys (.setSocket _) => True
  | .sys _ => False
  | _ => True

instance : AllowsMemory Attends := ⟨fun _ => trivial, fun _ => trivial, fun _ => trivial⟩

instance (fd : Fd) : Allows Attends fd where
  recv _ _ := trivial
  send _ _ := trivial

section Body
variable {α : Type}

private theorem attends_socket {f : Fd → ClientIo α} (hf : ∀ fd, (f fd).Only Attends) :
    (ServerConnection.socket_ >>= f).Only Attends := ⟨trivial, hf⟩

theorem attends_request (c : CmdT) (path : Str) {p : ClientIo α} (hp : p.Only Attends) :
    (do
      let _ ← agfsWriteCmd (← ServerConnection.socket_) c
      let _ ← agfsWriteString (← ServerConnection.socket_) path
      p).Only Attends :=
  attends_socket fun fd => .bind (only_writeCmd fd c) fun _ =>
    attends_socket fun fd => .bind (only_writeString fd path) fun _ => hp

theorem attends_sizes (size offset : AgsizeT) {p : ClientIo α} (hp : p.Only Attends) :
    (do
      let _ ← agfsWriteSize (← ServerConnection.socket_) size
      let _ ← agfsWriteSize (← ServerConnection.socket_) offset
      p).Only Attends :=
  attends_socket fun fd => .bind (only_writeSize fd size) fun _ =>
    attends_socket fun fd => .bind (only_writeSize fd offset) fun _ => hp

variable (host : Endian)

private theorem attends_readError (err : AgerrT) {f : Int32 × AgerrT → ClientIo α}
    (hf : ∀ read, (f read).Only Attends) :
    (ServerConnection.socket_ >>= fun fd => agfsReadError host fd err >>= f).Only Attends :=
  attends_socket fun fd => .bind (only_readError host fd err) hf

private theorem attends_readSize (size : AgsizeT) {f : Int32 × AgsizeT → ClientIo α}
    (hf : ∀ read, (f read).Only Attends) :
    (ServerConnection.socket_ >>= fun fd => agfsReadSize host fd size >>= f).Only Attends :=
  attends_socket fun fd => .bind (only_readSize host fd size) hf

private theorem attends_readEntries (count : Nat) : (ServerConnection.readEntries host count).Only Attends := by
  induction count with
  | zero => trivial
  | succ count ih =>
    refine attends_socket fun fd => .bind (only_readString host fd []) fun _ => ?_
    refine attends_socket fun fd => .bind (only_readStat host fd) fun _ => ?_
    exact .bind ih fun _ => trivial

private theorem attends_sendBuffer (fuel : Nat) (rest : Bytes) (total : AgsizeT) (err : AgerrT) :
    (ServerConnection.sendBuffer fuel rest total err).Only Attends := by
  induction fuel generalizing rest total err with
  | zero => trivial
  | succ fuel ih =>
    refine .ite trivial (attends_socket fun fd => .bind (may_send fd .data rest) fun r => ?_)
    cases r with
    | fail err => trivial
    | wrote count _ => exact .ite trivial (ih _ _ _)

private theorem attends_sendData (offset : AgsizeT) (buf : Buffer) (err : AgerrT) :
    (ServerConnection.sendData host offset buf err).Only Attends := by
  refine attends_sizes buf.size offset (.bind (attends_sendBuffer _ _ _ _) fun sent => ?_)
  obtain ⟨total, err | last⟩ := sent
  · trivial
  · exact attends_readError host last fun _ => .ite (attends_readSize host total fun _ => trivial) trivial

end Body

variable {host : Endian}

theorem Request.monitored (host : Endian) (r : Request) :
    ∃ body, r.perform host = ServerConnection.monitored body ∧ body.Only Attends := by
  cases r with
  | heartbeat =>
    refine ⟨_, rfl, attends_socket fun fd => .bind (only_writeCmd fd _) fun _ => ?_⟩
    refine attends_socket fun fd => .bind (only_readCmd host fd _) fun resp => .ite ?_ trivial
    exact attends_socket fun fd => ⟨trivial, fun _ => ⟨trivial, fun _ => trivial⟩⟩
  | getattr path =>
    refine ⟨_, rfl, attends_request _ _ (attends_readError host 0 fun _ => .ite ?_ trivial)⟩
    exact attends_socket fun fd => .bind (only_readStat host fd) fun _ => trivial
  | access path mask =>
    refine ⟨_, rfl, attends_request _ _ ?_⟩
    refine attends_socket fun fd => .bind (only_writeMask fd mask) fun _ => .bind (may_scratch 8) fun _ => ?_
    exact attends_readError host _ fun _ => trivial
  | readdir path =>
    refine ⟨_, rfl, attends_request _ _ (attends_readError host 0 fun _ => .ite ?_ trivial)⟩
    exact attends_readSize host 0 fun _ => .bind (attends_readEntries host _) fun _ => trivial
  | readFile path size offset =>
    refine ⟨_, rfl, attends_request _ _ (attends_sizes size offset ?_)⟩
    refine attends_readError host 0 fun _ => .ite (attends_readSize host 0 fun amount => ?_) trivial
    exact .bind (only_vectorResize _) fun _ => attends_socket fun fd => .bind (may_recv fd .data _) fun _ => trivial
  | writeFile path offset buf =>
    refine ⟨_, rfl, attends_request _ _ (attends_readError host 0 fun _ => .ite trivial ?_)⟩
    exact attends_sendData host offset buf _
  | «open» path flags =>
    refine ⟨_, rfl, attends_request _ _ (attends_socket fun fd => .bind (only_writeMask fd flags) fun _ => ?_)⟩
    exact attends_readError host 0 fun _ => trivial

theorem Request.locked (r : Request) : (r.perform host).Locked acquiring givingBack := by
  obtain ⟨body, hr, hbody⟩ := r.monitored host
  rw [hr]
  refine ⟨_, rfl, fun _ => Prog.inside_bind id id hbody fun a => ?_⟩
  exact Prog.inside_last fun _ => ⟨a, rfl⟩

theorem Request.only (r : Request) :
    (r.perform host).Only fun c => Attends c ∨ c = acquiring ∨ c = givingBack := by
  obtain ⟨body, hr, hbody⟩ := r.monitored host
  rw [hr]
  refine ⟨.inr (.inl rfl), fun _ => (hbody.imp fun _ => .inl).bind fun _ => ?_⟩
  exact ⟨.inr (.inr rfl), fun _ => trivial⟩

end AgFS
