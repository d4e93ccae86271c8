import AgFS.Codec.Calls
import AgFS.Interaction.Protocol
import AgFS.Model.Request

/-! The protocol of an operation of the client: the monitor, the field `socket_`, and
transfers on the descriptor that this field held when it was last read. -/
namespace AgFS
open Interaction ByteOrder Sock

/-- Moves of an operation. It begins and ends in the phase `out`; in the phase `ins (some fd)`
it has found `fd` in `socket_`. -/
structure Operates {φ : Type} (M : Moves (Sock Kind ClientSys) φ) (out : φ) (ins : Option Fd → φ) :
    Prop where
  lock (r : Unit) : M out (.sys .lock) r (ins none)
  fetch (found : Option Fd) (fd : Fd) : M (ins found) (.sys .getSocket) fd (ins (some fd))
  unlock (found : Option Fd) (r : Unit) : M (ins found) (.sys .unlock) r out
  memory (found : Option Fd) : AllowsMemory fun c => ∀ r, M (ins found) c r (ins found)
  on (fd : Fd) : Allows (fun c => ∀ r, M (ins (some fd)) c r (ins (some fd))) fd

abbrev Operating {φ α : Type} (M : Moves (Sock Kind ClientSys) φ) (ins : Option Fd → φ)
    (p : ClientIo α) : Prop :=
  ∀ found, p.Follows M (fun y _ => ∃ found, y = ins found) (ins found)

namespace Operates
variable {φ α β : Type} {M : Moves (Sock Kind ClientSys) φ} {out : φ} {ins : Option Fd → φ}
  (h : Operates M out ins)
include h

omit h in
private theorem ret (a : α) : Operating M ins (.ret a) := fun found => ⟨found, rfl⟩

omit h in
private theorem bind {p : ClientIo α} (hp : Operating M ins p) {f : α → ClientIo β}
    (hf : ∀ a, Operating M ins (f a)) : Operating M ins (p >>= f) := by
  intro found
  refine (hp found).bind ?_
  rintro _ a ⟨found', rfl⟩
  exact hf a found'

omit h in
private theorem ite {c : Prop} [Decidable c] {p q : ClientIo α} (hp : Operating M ins p)
    (hq : Operating M ins q) : Operating M ins (if c then p else q) := by
  split
  · exact hp
  · exact hq

omit h in
theorem stays {found : Option Fd} {p : ClientIo α}
    (hp : p.Only fun c => ∀ r, M (ins found) c r (ins found)) :
    p.Follows M (fun y _ => ∃ found, y = ins found) (ins found) :=
  (Prog.Follows.of_only hp).mono fun _ _ hy => ⟨found, hy⟩

private theorem socket {f : Fd → ClientIo β}
    (hf : ∀ fd, (f fd).Follows M (fun y _ => ∃ found, y = ins found) (ins (some fd))) :
    Operating M ins (ServerConnection.socket_ >>= f) :=
  fun found fd => ⟨_, h.fetch found fd, hf fd⟩

theorem on_socket {p : Fd → ClientIo α} {f : α → ClientIo β}
    (hp : ∀ fd (P : SockCall Kind ClientSys → Prop) [Allows P fd], (p fd).Only P)
    (hf : ∀ a, Operating M ins (f a)) :
    Operating M ins (ServerConnection.socket_ >>= fun fd => p fd >>= f) := by
  refine h.socket fun fd => ?_
  have := h.on fd
  refine (stays (hp fd _)).bind ?_
  rintro _ a ⟨found, rfl⟩
  exact hf a found

private theorem monitored {body : ClientIo α} (hbody : Operating M ins body) :
    (ServerConnection.monitored body).Follows M (fun y _ => y = out) out := by
  intro r
  refine ⟨_, h.lock r, (hbody none).bind ?_⟩
  rintro _ a ⟨found, rfl⟩ r
  exact ⟨out, h.unlock found r, rfl⟩

theorem request {p : ClientIo α} (c : CmdT) (path : Str) (hp : Operating M ins p) :
    (ServerConnection.monitored do
      let _ ← agfsWriteCmd (← ServerConnection.socket_) c
      let _ ← agfsWriteString (← ServerConnection.socket_) path
      p).Follows M (fun y _ => y = out) out :=
  h.monitored (h.on_socket (fun fd _ _ => only_writeCmd fd c) fun _ =>
    h.on_socket (fun fd _ _ => only_writeString fd path) fun _ => hp)

private theorem readEntries (host : Endian) (count : Nat) :
    Operating M ins (ServerConnection.readEntries host count) := by
  induction count with
  | zero => exact ret _
  | succ count ih =>
    refine h.on_socket (fun fd _ _ => only_readString host fd []) fun _ => ?_
    refine h.on_socket (fun fd _ _ => only_readStat host fd) fun _ => ?_
    exact bind ih fun _ => ret _

private theorem sendBuffer (fuel : Nat) (rest : Bytes) (total : AgsizeT) (err : AgerrT) :
    Operating M ins (ServerConnection.sendBuffer fuel rest total err) := by
  induction fuel generalizing rest total err with
  | zero => exact ret _
  | succ fuel ih =>
    refine ite (ret _) (h.on_socket (fun fd _ _ => may_send fd .data rest) fun r => ?_)
    cases r with
    | fail err => exact ret _
    | wrote count _ => exact ite (ret _) (ih _ _ _)

private theorem sendData (host : Endian) (offset : AgsizeT) (buf : Buffer) (err : AgerrT) :
    Operating M ins (ServerConnection.sendData host offset buf err) := by
  refine h.on_socket (fun fd _ _ => only_writeSize fd buf.size) fun _ => ?_
  refine h.on_socket (fun fd _ _ => only_writeSize fd offset) fun _ => ?_
  refine bind (h.sendBuffer _ _ _ _) fun sent => ?_
  obtain ⟨total, err | last⟩ := sent
  · exact ret _
  · refine h.on_socket (fun fd _ _ => only_readError host fd last) fun _ => ite ?_ (ret _)
    exact h.on_socket (fun fd _ _ => only_readSize host fd total) fun _ => ret _

theorem perform {host : Endian} {r : Request} (hr : r ≠ .heartbeat) :
    (r.perform host).Follows M (fun y _ => y = out) out := by
  cases r with
  | heartbeat => exact absurd rfl hr
  | getattr path =>
    refine h.request cmd.GETATTR path.1 ?_
    refine h.on_socket (fun fd _ _ => only_readError host fd 0) fun _ => ite ?_ (ret _)
    exact h.on_socket (fun fd _ _ => only_readStat host fd) fun _ => ret _
  | access path mask =>
    refine h.request cmd.ACCESS path.1 ?_
    refine h.on_socket (fun fd _ _ => only_writeMask fd mask) fun _ => ?_
    refine bind (fun found => ?_) fun _ =>
      h.on_socket (fun fd _ _ => only_readError host fd _) fun _ => ret _
    have := h.memory found
    exact stays (may_scratch 8)
  | readdir path =>
    refine h.request cmd.READDIR path.1 ?_
    refine h.on_socket (fun fd _ _ => only_readError host fd 0) fun _ => ite ?_ (ret _)
    refine h.on_socket (fun fd _ _ => only_readSize host fd 0) fun _ => ?_
    exact bind (h.readEntries host _) fun _ => ret _
  | readFile path size offset =>
    refine h.request cmd.READ path.1 ?_
    refine h.on_socket (fun fd _ _ => only_writeSize fd size) fun _ => ?_
    refine h.on_socket (fun fd _ _ => only_writeSize fd offset) fun _ => ?_
    refine h.on_socket (fun fd _ _ => only_readError host fd 0) fun _ => ite ?_ (ret _)
    refine h.on_socket (fun fd _ _ => only_readSize host fd 0) fun amount => ?_
    refine bind (fun found => ?_) fun _ => h.on_socket (fun fd _ _ => may_recv fd .data _) fun _ => ret _
    have := h.memory found
    exact stays (only_vectorResize _)
  | writeFile path offset buf =>
    refine h.request cmd.WRITE path.1 ?_
    refine h.on_socket (fun fd _ _ => only_readError host fd 0) fun _ => ite (ret _) ?_
    exact h.sendData host offset buf _
  | «open» path flags =>
    refine h.request cmd.OPEN path.1 ?_
    refine h.on_socket (fun fd _ _ => only_writeMask fd flags) fun _ => ?_
    exact h.on_socket (fun fd _ _ => only_readError host fd 0) fun _ => ret _

end Operates
end AgFS
