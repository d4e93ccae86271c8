import AgFS.Codec.Calls
import AgFS.Interaction.Protocol
import Mathlib.Data.Finset.Basic

/-! What a child of the daemon holds: its connection until it closes that, and the files it has opened and not
closed. -/
namespace AgFS
open Interaction ByteOrder Sock

/-- Calls that open and close nothing. -/
def ServerCall.Keeping : ServerCall → Prop
  | .open _ _ => False
  | .close _ => False
  | _ => True

/-- A child transfers on its connection only, closes what it has opened, and does nothing any more once it has
closed the connection. Its phase is the set of its files. -/
inductive Child.Acts (conn : Fd) : Moves (Sock Kind ServerSys) (Option (Finset Nat))
  | recv {files m n r} : Child.Acts conn (some files) (.recv m conn n) r (some files)
  | send {files m bs r} : Child.Acts conn (some files) (.send m conn bs) r (some files)
  | malloc {files n r} : Child.Acts conn (some files) (.malloc n) r (some files)
  | scratch {files n r} : Child.Acts conn (some files) (.scratch n) r (some files)
  | abort {files why r} : Child.Acts conn (some files) (.abort why) r (some files)
  | keeping {files} {c : ServerCall} {r} (h : c.Keeping) : Child.Acts conn (some files) (.sys c) r (some files)
  | missed {files path flags err} : Child.Acts conn (some files) (.sys (.open path flags)) (.error err) (some files)
  | opened {files path flags fd} :
      Child.Acts conn (some files) (.sys (.open path flags)) (.ok fd) (some (insert fd files))
  | nothing {files r} : Child.Acts conn (some files) (.sys (.close (-1))) r (some files)
  | closed {files : Finset Nat} {fd : Nat} {r} (h : fd ∈ files) :
      Child.Acts conn (some files) (.sys (.close fd)) r (some (files.erase fd))
  | dropped {files r} : Child.Acts conn (some files) (.sys (.close conn)) r none

/-- Calls after which a child holds what it held. -/
def Unmoved (conn : Fd) (files : Finset Nat) (c : SockCall Kind ServerSys) : Prop :=
  ∀ r, Child.Acts conn (some files) c r (some files)

instance (conn : Fd) (files : Finset Nat) : Allows (Unmoved conn files) conn where
  malloc _ _ := .malloc
  scratch _ _ := .scratch
  abort _ _ := .abort
  recv _ _ _ := .recv
  send _ _ _ := .send

/-- It still has its connection. -/
def Connected {α : Type} (y : Option (Finset Nat)) (_ : α) : Prop := y.isSome

section Parts
variable {conn : Fd} {files : Finset Nat} {α β : Type} {Q : Option (Finset Nat) → β → Prop}

private theorem unmoved {c : ServerCall} (h : c.Keeping) : Unmoved conn files (.sys c) := fun _ => .keeping h

private theorem unmoved_sys {c : ServerCall} (h : c.Keeping) :
    (ServerIo.sys c).Only (Unmoved conn files) := may_sys (unmoved h)

private theorem unmoved_orThrow (r : Except Errno α) : (orThrow r).Only (Unmoved conn files) := by
  cases r with
  | error err => exact may_abort _
  | ok a => trivial

private theorem connected_of_unmoved {p : ServerIo α} (h : p.Only (Unmoved conn files)) :
    p.Follows (Child.Acts conn) Connected (some files) :=
  (Prog.Follows.of_only h).mono fun _ _ hy => hy ▸ rfl

theorem after_unmoved {p : ServerIo α} {f : α → ServerIo β} (h : p.Only (Unmoved conn files))
    (hf : ∀ a, (f a).Follows (Child.Acts conn) Q (some files)) :
    (p >>= f).Follows (Child.Acts conn) Q (some files) := by
  refine (Prog.Follows.of_only h).bind ?_
  rintro _ a rfl
  exact hf a

theorem after_open {path : Str} {flags : UInt32} {f : Except Errno Nat → ServerIo β}
    (herror : ∀ err, (f (.error err)).Follows (Child.Acts conn) Q (some files))
    (hok : ∀ fd, (f (.ok fd)).Follows (Child.Acts conn) Q (some (insert fd files))) :
    (ServerIo.sys (.open path flags) >>= f).Follows (Child.Acts conn) Q (some files)
  | .error err => ⟨_, .missed, herror err⟩
  | .ok fd => ⟨_, .opened, hok fd⟩

private theorem connected_close {fd : Nat} {f : Unit → ServerIo β} (hfd : fd ∈ files)
    (hf : (f ()).Only (Unmoved conn (files.erase fd))) :
    (ServerIo.sys (.close fd) >>= f).Follows (Child.Acts conn) Connected (some files) :=
  fun _ => ⟨_, .closed hfd, connected_of_unmoved hf⟩

end Parts

section Handlers
variable {host : Endian} {self : ClientConnection} {files : Finset Nat}

private theorem processHeartbeat_connected :
    self.processHeartbeat.Follows (Child.Acts self.socket_) Connected (some files) :=
  connected_of_unmoved (.bind (only_writeCmd ..) fun _ => trivial)

private theorem processGetAttr_connected :
    (self.processGetAttr host).Follows (Child.Acts self.socket_) Connected (some files) := by
  refine connected_of_unmoved (.bind (only_readString ..) fun read => .bind (unmoved_sys (by trivial)) fun r => ?_)
  cases r with
  | error err => exact .bind (only_writeError ..) fun _ => trivial
  | ok st => exact .bind (only_writeError ..) fun _ => .bind (only_writeStat ..) fun _ => trivial

private theorem processAccess_connected :
    (self.processAccess host).Follows (Child.Acts self.socket_) Connected (some files) := by
  refine connected_of_unmoved (.bind (only_readString ..) fun read => .bind (may_scratch 4) fun _ => ?_)
  refine .bind (only_readMask ..) fun _ => .bind (unmoved_sys (by trivial)) fun _ => ?_
  exact .bind (only_writeError ..) fun _ => trivial

private theorem processReaddir_connected :
    (self.processReaddir host).Follows (Child.Acts self.socket_) Connected (some files) := by
  refine connected_of_unmoved (.bind (only_readString ..) fun read => .bind (unmoved_sys (by trivial)) fun r => ?_)
  refine .bind (unmoved_orThrow r) fun found => .bind (unmoved_sys (by trivial)) fun r => ?_
  refine .bind (unmoved_orThrow r) fun directory => .bind (only_writeError ..) fun _ => .ite ?_ trivial
  refine .bind (unmoved_sys (by trivial)) fun r => .bind (unmoved_orThrow r) fun counted => ?_
  refine .bind (only_writeSize ..) fun _ => .bind (unmoved_sys (by trivial)) fun r => ?_
  exact .bind (unmoved_orThrow r) fun listed => only_writeEntries (fun _ => unmoved trivial) _

theorem processRead_connected :
    (self.processRead host).Follows (Child.Acts self.socket_) Connected (some files) := by
  refine after_unmoved (only_readString ..) fun read => after_unmoved (only_readSize ..) fun size => ?_
  refine after_unmoved (only_readSize ..) fun offset => after_open (fun err => ?_) fun fd => ?_
  · exact connected_of_unmoved (.bind (only_writeError ..) fun _ => trivial)
  · refine connected_of_unmoved (.bind (unmoved_sys (by trivial)) fun _ => .bind (only_vectorResize _) fun _ => ?_)
    refine .bind (only_readLoop (fun _ => unmoved trivial) ..) fun _ => .bind (only_writeError ..) fun _ => ?_
    exact .ite (.bind (only_writeSize ..) fun _ => .bind (may_send ..) fun _ => trivial) trivial

private theorem finishWrite_connected {fd : Nat} (hfd : fd ∈ files) (stored : ClientConnection.Stored) :
    (self.finishWrite fd stored).Follows (Child.Acts self.socket_) Connected (some files) := by
  cases stored with
  | refused err => exact connected_of_unmoved (.bind (only_writeError ..) fun _ => trivial)
  | ended err total =>
    refine connected_close hfd (.bind (only_writeError ..) fun _ => .ite ?_ trivial)
    exact .bind (only_writeSize ..) fun _ => trivial

private theorem processWrite_connected :
    (self.processWrite host).Follows (Child.Acts self.socket_) Connected (some files) := by
  refine after_unmoved (only_readString ..) fun read => after_open (fun err => ?_) fun fd => ?_
  · exact connected_of_unmoved (.bind (only_writeError ..) fun _ => trivial)
  · refine after_unmoved (only_writeError ..) fun _ => after_unmoved (only_readSize ..) fun size => ?_
    refine after_unmoved (only_readSize ..) fun offset => after_unmoved (unmoved_sys (by trivial)) fun _ => ?_
    refine after_unmoved (only_vectorResize _) fun _ => after_unmoved (only_storeLoop ?_ ?_ ?_ ..) ?_
    · exact fun _ _ => .recv
    · exact fun _ => unmoved trivial
    · exact unmoved trivial
    · exact finishWrite_connected (Finset.mem_insert_self fd files)

private theorem processOpen_connected :
    (self.processOpen host).Follows (Child.Acts self.socket_) Connected (some files) := by
  refine after_unmoved (only_readString ..) fun read => after_unmoved (only_readMask ..) fun mask => ?_
  refine after_open (fun err _ => ⟨_, .nothing, ?_⟩) fun fd => ?_
  · exact connected_of_unmoved (.bind (only_writeError ..) fun _ => trivial)
  · exact connected_close (Finset.mem_insert_self fd files) (.bind (only_writeError ..) fun _ => trivial)

end Handlers

/-- Where a pass leads: a child that goes on has its connection. -/
def Onwards (conn : Fd) (y : Option (Finset Nat)) : ClientConnection ⊕ ClientConnection → Prop
  | .inl self => self.socket_ = conn ∧ y.isSome
  | .inr _ => True

section Passes
variable {host : Endian} {self : ClientConnection} {files : Finset Nat}

private theorem dispatch_holds (command : CmdT) :
    (self.dispatch host command).Follows (Child.Acts self.socket_) (Onwards self.socket_) (some files) := by
  have goesOn {p : ServerIo Unit} (h : p.Follows (Child.Acts self.socket_) Connected (some files)) :
      (p >>= fun _ => (return .inl self : ServerIo (ClientConnection ⊕ ClientConnection))).Follows
        (Child.Acts self.socket_) (Onwards self.socket_) (some files) :=
    h.bind fun y _ hy => ⟨rfl, hy⟩
  unfold ClientConnection.dispatch
  split
  · exact fun _ => ⟨none, .dropped, trivial⟩
  split
  · exact goesOn processHeartbeat_connected
  split
  · exact goesOn processGetAttr_connected
  split
  · exact goesOn processReaddir_connected
  split
  · exact goesOn processAccess_connected
  split
  · exact goesOn processRead_connected
  split
  · exact goesOn processWrite_connected
  split
  · exact goesOn processOpen_connected
  · exact ⟨rfl, rfl⟩

private theorem commandLoop_holds :
    (self.commandLoop host).Follows (Child.Acts self.socket_) (Onwards self.socket_) (some files) := by
  refine after_unmoved (only_readCmd ..) fun ⟨respVal, command⟩ => .ite (fun _ => ?_) fun _ => dispatch_holds command
  refine .ite (fun _ _ => ⟨none, .dropped, trivial⟩) fun _ => ⟨rfl, rfl⟩

end Passes

/-- A connection object has the connection, or its constructor has closed that. -/
def Created (conn : Fd) (y : Option (Finset Nat)) (self : ClientConnection) : Prop :=
  (self.socket_ = conn ∧ y.isSome) ∨ self = ClientConnection.refused

theorem refused_holds {conn : Fd} {files : Finset Nat} (reason : CmdT) :
    (do
      let _ ← agfsWriteCmd conn reason
      ServerIo.sys (.close conn)
      return ClientConnection.refused : ServerIo ClientConnection).Follows (Child.Acts conn) (Created conn)
        (some files) :=
  after_unmoved (only_writeCmd ..) fun _ _ => ⟨none, .dropped, .inr rfl⟩

private theorem create_holds {host : Endian} {conn : Fd} {files : Finset Nat} :
    (ClientConnection.create host conn).Follows (Child.Acts conn) (Created conn) (some files) := by
  refine after_unmoved (only_readString ..) fun key => after_unmoved (unmoved_sys (by trivial)) fun content => ?_
  cases ClientConnection.AuthScan.run key.2 ((Option.getD content []).length + 2) (.start content) with
  | none => exact nofun
  | some scanned =>
    obtain ⟨found, scan⟩ := scanned
    cases found with
    | false => exact refused_holds cmd.INVALID_KEY
    | true =>
      refine after_unmoved (unmoved_sys (by trivial)) fun account => ?_
      cases account with
      | none => exact refused_holds cmd.USER_NOT_FOUND
      | some userPwd =>
        refine after_unmoved (unmoved_sys (by trivial)) fun _ => after_unmoved (unmoved_sys (by trivial)) fun _ => ?_
        refine after_unmoved (unmoved_sys (by trivial)) fun r => after_unmoved (unmoved_orThrow r) fun found => ?_
        exact .ite (fun _ => .inl ⟨rfl, rfl⟩) fun _ => refused_holds cmd.MOUNT_NOT_FOUND

/-- Where a child stands that has its connection. -/
def Child.HasConnection (conn : Fd) (y : Option (Finset Nat)) : Child ⊕ ClientConnection → Prop
  | .inl (.fresh connfd) => connfd = conn ∧ y.isSome
  | .inl (.serving self) => self.socket_ = conn ∧ y.isSome
  | .inr _ => True

theorem Child.body_holds {host : Endian} {conn : Fd} {y : Option (Finset Nat)} {c : Child}
    (h : Child.HasConnection conn y (.inl c)) :
    (Child.body host c).Follows (Child.Acts conn) (Child.HasConnection conn) y := by
  cases c with
  | fresh connfd =>
    obtain ⟨rfl, hy⟩ := h
    obtain ⟨files, rfl⟩ := Option.isSome_iff_exists.mp hy
    refine create_holds.bind fun y self hself => ?_
    rcases hself with ⟨rfl, hself⟩ | rfl
    · obtain ⟨files, rfl⟩ := Option.isSome_iff_exists.mp hself
      exact .ite (fun _ => after_unmoved (only_writeCmd ..) fun _ => ⟨rfl, rfl⟩) fun _ => trivial
    · exact trivial
  | serving self =>
    obtain ⟨rfl, hy⟩ := h
    obtain ⟨files, rfl⟩ := Option.isSome_iff_exists.mp hy
    refine commandLoop_holds.bind fun y next hnext => ?_
    cases next with
    | inl next => exact hnext
    | inr next => trivial

end AgFS
