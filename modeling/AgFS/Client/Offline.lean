import AgFS.Model.Request

/-! What the operations of a client return on a connection that is not open. -/
namespace AgFS
open Interaction ByteOrder

/-- The answers on a connection that is not open; `memory` is what a local variable of eight
bytes holds before anything is stored in it. -/
def Lost (memory : Block 8) :
    (c : SockCall Kind ClientSys) → (Sock Kind ClientSys).Reply c → Prop
  | .sys .getSocket, fd => fd < (0 : Int)
  | .recv _ _ _, r => r = .fail .EBADF
  | .send _ _ _, r => r = .fail .EBADF
  | .scratch 8, block => block = memory
  | _, _ => True

namespace Request

/-- Only what `writeFile` sends beyond the request, and what `readFile` receives beyond the
reply, fails; `access` returns what its variable happens to hold. -/
def offline (memory : Block 8) : (r : Request) → r.Result
  | heartbeat => 0
  | getattr _ => (Stat.zero, 0)
  | access _ _ => (be64toh memory.1).toInt64
  | readdir _ => ([], 0)
  | readFile _ _ _ => ([], -1)
  | writeFile _ _ buf => (0, if buf.bytes = [] then 0 else Errno.EBADF.neg)
  | «open» _ _ => 0

end Request

section Lost
variable {memory : Block 8} {α β : Type} {Q : β → Prop}

abbrev Fails (memory : Block 8) (Q : α → Prop) (p : ClientIo α) : Prop :=
  p.Meets (Lost memory) (fun _ => True) Q

private theorem fails_socket {f : Fd → ClientIo β} (hf : ∀ fd, Fails memory Q (f fd)) :
    Fails memory Q (ServerConnection.socket_ >>= f) := ⟨trivial, fun fd _ => hf fd⟩

theorem fails_send {p : Fd → ClientIo α} {f : α → ClientIo β}
    (hp : ∀ fd, Fails memory (fun _ => True) (p fd)) (hf : ∀ a, Fails memory Q (f a)) :
    Fails memory Q (ServerConnection.socket_ >>= fun fd => p fd >>= f) :=
  fails_socket fun fd => (hp fd).bind fun a _ => hf a

private theorem fails_monitored {body : ClientIo β} (h : Fails memory Q body) :
    Fails memory Q (ServerConnection.monitored body) :=
  ⟨trivial, fun _ _ => h.bind fun _ hr => ⟨trivial, fun _ _ => hr⟩⟩

private theorem fails_write (fd : Fd) (m : Kind) (bs : Bytes) {f : WriteReply bs.length → ClientIo β}
    (h : Fails memory Q (f (.fail .EBADF))) :
    Fails memory Q (Sock.send m fd bs >>= f) := by
  refine ⟨trivial, fun r hr => ?_⟩
  cases hr
  exact h

private theorem fails_read (fd : Fd) (m : Kind) (n : Nat) {f : ReadReply n → ClientIo β}
    (h : Fails memory Q (f (.fail .EBADF))) :
    Fails memory Q (Sock.recv m fd n >>= f) := by
  refine ⟨trivial, fun r hr => ?_⟩
  cases hr
  exact h

private theorem fails_writeCmd (fd : Fd) (c : CmdT) :
    Fails memory (fun _ => True) (agfsWriteCmd fd c : ClientIo _) := fails_write fd _ _ trivial

private theorem fails_writeMask (fd : Fd) (mask : AgmaskT) :
    Fails memory (fun _ => True) (agfsWriteMask fd mask : ClientIo _) := fails_write fd _ _ trivial

private theorem fails_writeSize (fd : Fd) (size : AgsizeT) :
    Fails memory (· = -1) (agfsWriteSize fd size : ClientIo _) := fails_write fd _ _ rfl

private theorem fails_writeString (fd : Fd) (str : Str) :
    Fails memory (fun _ => True) (agfsWriteString fd str : ClientIo _) :=
  (fails_writeSize fd _).bind fun err herr => by
    subst herr
    exact trivial

private theorem fails_readError (host : Endian) (fd : Fd) (err : AgerrT) :
    Fails memory (fun r => r.2 = (be64toh (host.store 8 err.toUInt64.toNat)).toInt64)
      (agfsReadError host fd err : ClientIo _) := fails_read fd _ _ rfl

private theorem fails_readSize (host : Endian) (fd : Fd) (size : AgsizeT) :
    Fails memory (fun r => r.2 = be64toh (host.store 8 size.toNat))
      (agfsReadSize host fd size : ClientIo _) := fails_read fd _ _ rfl

theorem be64toh_zero (host : Endian) : be64toh (host.store 8 0) = 0 := by
  cases host with
  | little => rfl
  | big => rfl

private theorem fails_error (host : Endian) {f : Int32 × AgerrT → ClientIo β}
    (hf : ∀ n, Fails memory Q (f (n, 0))) :
    Fails memory Q (ServerConnection.socket_ >>= fun fd => agfsReadError host fd 0 >>= f) :=
  fails_socket fun fd => (fails_readError host fd 0).bind fun (n, err) herr => by
    have hzero : err = 0 := herr.trans (congrArg UInt64.toInt64 (be64toh_zero host))
    subst hzero
    exact hf n

private theorem fails_size (host : Endian) (fd : Fd) {f : Int32 × AgsizeT → ClientIo β}
    (hf : ∀ n, Fails memory Q (f (n, 0))) : Fails memory Q (agfsReadSize host fd 0 >>= f) :=
  (fails_readSize host fd 0).bind fun (n, size) hsize => by
    have hzero : size = 0 := hsize.trans (be64toh_zero host)
    subst hzero
    exact hf n

private theorem fails_readStat (host : Endian) (fd : Fd) :
    Fails memory (fun r => r.2 = Stat.zero) (agfsReadStat host fd : ClientIo _) :=
  ⟨trivial, fun _ _ => fails_read fd _ _ rfl⟩

theorem fails_request {p : ClientIo β} (c : CmdT) (path : Str) (hp : Fails memory Q p) :
    Fails memory Q (ServerConnection.monitored do
      let _ ← agfsWriteCmd (← ServerConnection.socket_) c
      let _ ← agfsWriteString (← ServerConnection.socket_) path
      p) :=
  fails_monitored (fails_send (fun fd => fails_writeCmd fd c) fun _ =>
    fails_send (fun fd => fails_writeString fd path) fun _ => hp)

end Lost

namespace Request
variable {host : Endian} {memory : Block 8}

private theorem access_memory (host : Endian) (block : Block 8) :
    host.store 8 (UInt64.ofNat (host.load block.1)).toInt64.toUInt64.toNat = block.1 := by
  have hlt := host.load_lt block.1
  rw [block.2] at hlt
  rw [UInt64.toUInt64_toInt64, UInt64.toNat_ofNat_of_lt' hlt, host.store_load block.2]

private theorem fails_sendBuffer {fuel : Nat} {bs : Bytes} (hfuel : fuel = bs.length) :
    Fails memory (· = (0, if bs = [] then .ok 0 else .error .EBADF))
      (ServerConnection.sendBuffer fuel bs 0 0) := by
  subst hfuel
  cases bs with
  | nil => rfl
  | cons b rest =>
    refine .ite nofun fun _ => fails_socket fun fd => ?_
    exact fails_write fd _ _ rfl

private theorem fails_sendData {offset : AgsizeT} {buf : Buffer} :
    Fails memory (· = (0, if buf.bytes = [] then 0 else Errno.EBADF.neg))
      (ServerConnection.sendData host offset buf 0) := by
  refine fails_send (fun fd => (fails_writeSize fd _).mono fun _ _ => trivial) fun _ => ?_
  refine fails_send (fun fd => (fails_writeSize fd _).mono fun _ _ => trivial) fun _ => ?_
  refine (fails_sendBuffer rfl).bind fun sent hsent => ?_
  subst hsent
  by_cases hempty : buf.bytes = []
  · rw [if_pos hempty, if_pos hempty]
    refine fails_error host fun _ => ?_
    exact fails_socket fun fd => fails_size host fd fun _ => rfl
  · rw [if_neg hempty, if_neg hempty]
    rfl

private theorem perform_fails (r : Request) : Fails memory (· = r.offline memory) (r.perform host) := by
  cases r with
  | heartbeat =>
    refine fails_monitored (fails_send (fun fd => fails_writeCmd fd _) fun _ => ?_)
    refine fails_socket fun fd => fails_read fd _ _ ?_
    refine .ite (fun _ => ?_) fun _ => rfl
    exact fails_socket fun fd => ⟨trivial, fun _ _ => ⟨trivial, fun _ _ => rfl⟩⟩
  | getattr path =>
    refine fails_request cmd.GETATTR path.1 (fails_error host fun _ => ?_)
    exact fails_socket fun fd => (fails_readStat host fd).bind fun (_, st) hst => by
      subst hst
      rfl
  | access path mask =>
    refine fails_request cmd.ACCESS path.1 ?_
    refine fails_send (fun fd => fails_writeMask fd mask) fun _ => ⟨trivial, fun block hblock => ?_⟩
    have hblock : block = memory := hblock
    subst hblock
    refine fails_socket fun fd => (fails_readError host fd _).bind fun (_, err) herr => ?_
    exact herr.trans (congrArg (fun bs => (be64toh bs).toInt64) (access_memory host block))
  | readdir path =>
    refine fails_request cmd.READDIR path.1 (fails_error host fun _ => ?_)
    exact fails_socket fun fd => fails_size host fd fun _ => rfl
  | readFile path size offset =>
    refine fails_request cmd.READ path.1 ?_
    refine fails_send (fun fd => (fails_writeSize fd _).mono fun _ _ => trivial) fun _ => ?_
    refine fails_send (fun fd => (fails_writeSize fd _).mono fun _ _ => trivial) fun _ => ?_
    refine fails_error host fun _ => fails_socket fun fd => fails_size host fd fun _ => ?_
    exact fails_socket fun fd => fails_read fd _ _ rfl
  | writeFile path offset buf =>
    refine fails_request cmd.WRITE path.1 (fails_error host fun _ => ?_)
    exact fails_sendData
  | «open» path flags =>
    refine fails_request cmd.OPEN path.1 ?_
    refine fails_send (fun fd => fails_writeMask fd flags) fun _ => ?_
    exact fails_error host fun _ => rfl

theorem perform_offline {r : Request} {t : List (Event (Sock Kind ClientSys))} {res : r.Result}
    (h : Runs (r.perform host) t (.ret res)) (hlost : ∀ ev ∈ t, Lost memory ev.call ev.reply) :
    res = r.offline memory :=
  (perform_fails r).result h hlost

end Request
end AgFS
