import AgFS.Model.ClientConnection

/-! Which system calls the parts of the server make. -/
namespace AgFS
open Interaction ByteOrder Sock

class AllowsMemory {L : Signature} (P : SockCall Kind L → Prop) : Prop where
  malloc (n : Nat) : P (.malloc n)
  scratch (n : Nat) : P (.scratch n)
  abort (why : Abort) : P (.abort why)

class Allows {L : Signature} (P : SockCall Kind L → Prop) (fd : Fd) : Prop
    extends AllowsMemory P where
  recv (m : Kind) (n : Nat) : P (.recv m fd n)
  send (m : Kind) (bs : Bytes) : P (.send m fd bs)

class AllowsSend {L : Signature} (P : SockCall Kind L → Prop) (fd : Fd) : Prop where
  send (m : Kind) (bs : Bytes) : P (.send m fd bs)

instance {L : Signature} {P : SockCall Kind L → Prop} {fd : Fd} [Allows P fd] : AllowsSend P fd :=
  ⟨Allows.send⟩

instance {L : Signature} (Q : L.Call → Prop) : @AllowsMemory L (Within Q) :=
  ⟨fun _ => trivial, fun _ => trivial, fun _ => trivial⟩

instance {L : Signature} (Q : L.Call → Prop) (fd : Fd) : Allows (Within Q) fd where
  recv _ _ := trivial
  send _ _ := trivial

section Agfsio
variable {L : Signature} {P : SockCall Kind L → Prop}

theorem may_abort [AllowsMemory P] {α : Type} (why : Abort) : (abort why : Io L α).Only P :=
  ⟨AllowsMemory.abort why, nofun⟩

private theorem may_malloc [AllowsMemory P] (n : Nat) : (malloc n : Io L _).Only P :=
  ⟨AllowsMemory.malloc n, fun _ => trivial⟩

theorem may_scratch [AllowsMemory P] (n : Nat) : (scratch n : Io L _).Only P :=
  ⟨AllowsMemory.scratch n, fun _ => trivial⟩

theorem only_vectorResize [AllowsMemory P] (n : Nat) : (vectorResize n : Io L _).Only P := by
  refine .ite trivial (.ite ?_ (.bind (may_malloc n) fun block => ?_))
  · rw [abort_bind]
    exact may_abort _
  · cases block with
    | none => exact may_abort _
    | some block => trivial

section Send
variable (fd : Fd) [AllowsSend P fd]

theorem may_send (m : Kind) (bs : Bytes) : (send m fd bs : Io L _).Only P :=
  ⟨AllowsSend.send m bs, fun _ => trivial⟩

theorem only_writeCmd (c : CmdT) : (agfsWriteCmd fd c : Io L _).Only P :=
  .bind (may_send ..) fun _ => trivial

theorem only_writeMask (m : AgmaskT) : (agfsWriteMask fd m : Io L _).Only P :=
  .bind (may_send ..) fun _ => trivial

theorem only_writeSize (n : AgsizeT) : (agfsWriteSize fd n : Io L _).Only P :=
  .bind (may_send ..) fun _ => trivial

theorem only_writeError (err : AgerrT) : (agfsWriteError fd err : Io L _).Only P :=
  .bind (may_send ..) fun _ => trivial

theorem only_writeString (str : Str) : (agfsWriteString fd str : Io L _).Only P := by
  refine .bind (only_writeSize ..) fun err => .ite trivial ?_
  exact .bind (may_send ..) fun r => .ite trivial trivial

private theorem only_sendField {α : Type} {bs : Bytes} {f g : WriteReply bs.length → Io L α}
    (hf : ∀ r, (f r).Only P) (hg : ∀ r, (g r).Only P) :
    (send .field fd bs >>= fun r => if r.int < 0 then f r else g r).Only P :=
  .bind (may_send ..) fun r => .ite (hf r) (hg r)

theorem only_writeStat (st : Stat) : (agfsWriteStat fd st : Io L _).Only P := by
  refine only_sendField fd (fun _ => trivial) fun _ => ?_
  refine only_sendField fd (fun _ => trivial) fun _ => ?_
  refine .bind (only_writeSize ..) fun temp => .ite trivial ?_
  refine only_sendField fd (fun _ => trivial) fun _ => ?_
  refine only_sendField fd (fun _ => trivial) fun _ => ?_
  exact only_sendField fd (fun _ => trivial) fun _ => trivial

end Send

variable (host : Endian) (fd : Fd) [Allows P fd]

theorem may_recv (m : Kind) (n : Nat) : (recv m fd n : Io L _).Only P :=
  ⟨Allows.recv m n, fun _ => trivial⟩

theorem only_readCmd (c : CmdT) : (agfsReadCmd host fd c : Io L _).Only P :=
  .bind (may_recv ..) fun _ => trivial

theorem only_readMask (m : AgmaskT) : (agfsReadMask host fd m : Io L _).Only P :=
  .bind (may_recv ..) fun _ => trivial

theorem only_readSize (n : AgsizeT) : (agfsReadSize host fd n : Io L _).Only P :=
  .bind (may_recv ..) fun _ => trivial

theorem only_readError (err : AgerrT) : (agfsReadError host fd err : Io L _).Only P :=
  .bind (may_recv ..) fun _ => trivial

theorem only_readString (str : Str) : (agfsReadString host fd str : Io L _).Only P := by
  refine .bind (only_readSize ..) fun ⟨err, pathLen⟩ => .ite trivial ?_
  refine .bind (may_malloc _) fun block => ?_
  cases block with
  | none => exact may_abort _
  | some string =>
    refine .bind (may_recv ..) fun r => .ite ?_ (.ite trivial trivial)
    rw [abort_bind]
    exact may_abort _

private theorem only_recvField {α : Type} {n : Nat} {f g : ReadReply n → Io L α}
    (hf : ∀ r, (f r).Only P) (hg : ∀ r, (g r).Only P) :
    (recv .field fd n >>= fun r => if r.int < 0 then f r else g r).Only P :=
  .bind (may_recv ..) fun r => .ite (hf r) (hg r)

theorem only_readStat : (agfsReadStat host fd : Io L _).Only P := by
  refine .bind (may_scratch 8) fun _ => only_recvField fd (fun _ => trivial) fun _ => ?_
  refine .bind (may_scratch 4) fun _ => only_recvField fd (fun _ => trivial) fun _ => ?_
  refine .bind (only_readSize ..) fun _ => .ite trivial ?_
  refine only_recvField fd (fun _ => trivial) fun _ => ?_
  refine only_recvField fd (fun _ => trivial) fun _ => ?_
  exact only_recvField fd (fun _ => trivial) fun _ => trivial

end Agfsio

theorem may_sys {P : SockCall Kind ServerSys → Prop} {c : ServerCall} (h : P (.sys c)) :
    (ServerIo.sys c).Only P :=
  ⟨h, fun _ => trivial⟩

section Handlers
variable {Q : ServerCall → Prop} {host : Endian} {self : ClientConnection}

theorem only_orThrow {α : Type} (r : Except Errno α) : (orThrow r).Only (Within Q) := by
  cases r with
  | error err => exact only_abort _
  | ok a => trivial

theorem only_processHeartbeat : self.processHeartbeat.Only (Within Q) :=
  .bind (only_writeCmd ..) fun _ => trivial

/-- A handler that reads a path and from then on makes the calls `Q path`. -/
def ReadsPath (host : Endian) (fd : Fd) (Q : Str → ServerCall → Prop) (p : ServerIo Unit) : Prop :=
  ∃ f, p = agfsReadString host fd [] >>= f ∧ ∀ read, (f read).Only (Within (Q read.2))

theorem ReadsPath.only {fd : Fd} {p : ServerIo Unit} (h : ReadsPath host fd (fun _ => Q) p) :
    p.Only (Within Q) := by
  obtain ⟨f, rfl, hf⟩ := h
  exact .bind (only_readString ..) hf

end Handlers

/-! The calls of each handler once it has the path. -/

section Paths
variable {Q : Str → ServerCall → Prop} {host : Endian} {self : ClientConnection}

theorem processGetAttr_calls (hlstat : ∀ path, Q path (.lstat (cstr (self.file path)))) :
    ReadsPath host self.socket_ Q (self.processGetAttr host) := by
  refine ⟨_, rfl, fun read => .bind (only_sys (hlstat read.2)) fun r => ?_⟩
  cases r with
  | error err => exact .bind (only_writeError ..) fun _ => trivial
  | ok st => exact .bind (only_writeError ..) fun _ => .bind (only_writeStat ..) fun _ => trivial

theorem processAccess_calls
    (haccess : ∀ path mask, Q path (.access (cstr (self.file path)) mask)) :
    ReadsPath host self.socket_ Q (self.processAccess host) := by
  refine ⟨_, rfl, fun read => .bind (only_scratch 4) fun _ => .bind (only_readMask ..) fun _ => ?_⟩
  exact .bind (only_sys (haccess _ _)) fun _ => .bind (only_writeError ..) fun _ => trivial

theorem only_writeEntries {P : SockCall Kind ServerSys → Prop} [AllowsSend P self.socket_] {file : Str}
    (hentry : ∀ entry : FileName, P (.sys (.lstat (cstr (pathAppend file entry.name)))))
    (names : List FileName) : (self.writeEntries file names).Only P := by
  induction names with
  | nil => trivial
  | cons entry rest ih =>
    exact .bind (only_writeString ..) fun _ => .bind (may_sys (hentry entry)) fun _ =>
      .bind (only_writeStat ..) fun _ => ih

theorem processReaddir_calls (hexists : ∀ path, Q path (.fileExists (cstr (self.file path))))
    (hdirectory : ∀ path, Q path (.isDirectory (cstr (self.file path))))
    (hentries : ∀ path, Q path (.entries (cstr (self.file path))))
    (hentry : ∀ path (entry : FileName),
      Q path (.lstat (cstr (pathAppend (self.file path) entry.name)))) :
    ReadsPath host self.socket_ Q (self.processReaddir host) := by
  refine ⟨_, rfl, fun read => .bind (only_sys (hexists _)) fun r => ?_⟩
  refine .bind (only_orThrow r) fun found => .bind (only_sys (hdirectory _)) fun r => ?_
  refine .bind (only_orThrow r) fun directory => .bind (only_writeError ..) fun _ => ?_
  refine .ite ?_ trivial
  refine .bind (only_sys (hentries _)) fun r => ?_
  refine .bind (only_orThrow r) fun counted => .bind (only_writeSize ..) fun _ => ?_
  refine .bind (only_sys (hentries _)) fun r => ?_
  exact .bind (only_orThrow r) fun listed => only_writeEntries (hentry _) _

theorem only_readLoop {P : SockCall Kind ServerSys → Prop} {fd : Fd} (hread : ∀ n, P (.sys (.read fd n)))
    (fuel left : Nat) (buf : Bytes) : (ClientConnection.readLoop fd fuel left buf).Only P := by
  induction fuel generalizing left buf with
  | zero => trivial
  | succ fuel ih =>
    rw [ClientConnection.readLoop]
    split
    · trivial
    refine .bind (may_sys (hread left)) fun r => ?_
    cases r with
    | fail err => trivial
    | got bs hbs =>
      dsimp only
      split
      · trivial
      · exact ih _ _

theorem processRead_calls (hopen : ∀ path, Q path (.open (cstr (self.file path)) O_RDONLY))
    (hlseek : ∀ path fd offset, Q path (.lseek fd offset))
    (hread : ∀ path fd n, Q path (.read fd n)) :
    ReadsPath host self.socket_ Q (self.processRead host) := by
  refine ⟨_, rfl, fun read => .bind (only_readSize ..) fun _ => ?_⟩
  refine .bind (only_readSize ..) fun _ => .bind (only_sys (hopen _)) fun r => ?_
  cases r with
  | error err => exact .bind (only_writeError ..) fun _ => trivial
  | ok fd =>
    refine .bind (only_sys (hlseek ..)) fun _ => .bind (only_vectorResize _) fun _ => ?_
    refine .bind (only_readLoop (hread _ _) ..) fun _ => .bind (only_writeError ..) fun _ => ?_
    refine .ite (.bind (only_writeSize ..) fun _ => ?_) trivial
    exact .bind (only_send ..) fun _ => trivial

theorem only_storeLoop {P : SockCall Kind ServerSys → Prop} {socket fd : Fd}
    (hrecv : ∀ n, P (.recv .data socket n)) (hwrite : ∀ bs, P (.sys (.write fd bs)))
    (herrno : P (.sys .errno)) (fuel left : Nat) (err : AgerrT) (total : AgsizeT) :
    (ClientConnection.storeLoop socket fd fuel left err total).Only P := by
  induction fuel generalizing left err total with
  | zero => trivial
  | succ fuel ih =>
    rw [ClientConnection.storeLoop]
    split
    · trivial
    have hreceives : (recv .data socket left : ServerIo _).Only P := ⟨hrecv left, fun _ => trivial⟩
    refine .bind hreceives fun r => ?_
    cases r with
    | fail err => trivial
    | got chunk hchunk =>
      dsimp only
      split
      · trivial
      refine .bind (may_sys (hwrite chunk)) fun r => ?_
      cases r with
      | fail err => trivial
      | wrote count hcount =>
        dsimp only
        split
        · refine .bind (.bind (may_sys herrno) fun r => ?_) fun _ => trivial
          cases r <;> trivial
        · exact ih _ _ _

theorem only_finishWrite {P : SockCall Kind ServerSys → Prop} [AllowsSend P self.socket_] {fd : Fd}
    (hclose : P (.sys (.close fd))) (stored : ClientConnection.Stored) :
    (self.finishWrite fd stored).Only P := by
  cases stored with
  | refused err => exact .bind (only_writeError ..) fun _ => trivial
  | ended err total =>
    refine .bind (may_sys hclose) fun _ => .bind (only_writeError ..) fun _ => ?_
    split
    · exact .bind (only_writeSize ..) fun _ => trivial
    · trivial

theorem processWrite_calls (hopen : ∀ path, Q path (.open (cstr (self.file path)) O_WRONLY))
    (hlseek : ∀ path fd offset, Q path (.lseek fd offset))
    (hwrite : ∀ path fd bs, Q path (.write fd bs)) (herrno : ∀ path, Q path .errno)
    (hclose : ∀ path fd, Q path (.close fd)) :
    ReadsPath host self.socket_ Q (self.processWrite host) := by
  refine ⟨_, rfl, fun read => .bind (only_sys (hopen _)) fun r => ?_⟩
  cases r with
  | error err => exact .bind (only_writeError ..) fun _ => trivial
  | ok fd =>
    refine .bind (only_writeError ..) fun _ => .bind (only_readSize ..) fun _ => ?_
    refine .bind (only_readSize ..) fun _ => .bind (only_sys (hlseek ..)) fun _ => ?_
    refine .bind (only_vectorResize _) fun _ => ?_
    refine .bind (only_storeLoop (fun _ => trivial) (hwrite _ _) (herrno _) ..) fun stored => ?_
    exact only_finishWrite (hclose _ _) stored

theorem processOpen_calls (hopen : ∀ path flags, Q path (.open (cstr (self.file path)) flags))
    (hclose : ∀ path fd, Q path (.close fd)) :
    ReadsPath host self.socket_ Q (self.processOpen host) := by
  refine ⟨_, rfl, fun read => .bind (only_readMask ..) fun _ => ?_⟩
  refine .bind (only_sys (hopen ..)) fun r => ?_
  cases r with
  | error err => exact .bind (only_sys (hclose ..)) fun _ => .bind (only_writeError ..) fun _ => trivial
  | ok fd => exact .bind (only_sys (hclose ..)) fun _ => .bind (only_writeError ..) fun _ => trivial

end Paths

/-- Calls that leave the credentials of the process alone. -/
def Harmless : ServerCall → Prop
  | .setuid _ => False
  | .setgid _ => False
  | _ => True

section Harmless
variable (host : Endian) (self : ClientConnection)

theorem only_dispatch (command : CmdT) :
    (self.dispatch host command).Only (Within Harmless) := by
  have goesOn {p : ServerIo Unit} (h : p.Only (Within Harmless)) :
      (p >>= fun _ => (return .inl self : ServerIo (ClientConnection ⊕ ClientConnection))).Only
        (Within Harmless) := by
    refine .bind h fun _ => ?_
    trivial
  unfold ClientConnection.dispatch
  split
  · exact .bind (only_sys trivial) fun _ => trivial
  split
  · exact goesOn only_processHeartbeat
  split
  · exact goesOn (processGetAttr_calls fun _ => trivial).only
  split
  · exact goesOn (processReaddir_calls (fun _ => trivial) (fun _ => trivial) (fun _ => trivial)
      fun _ _ => trivial).only
  split
  · exact goesOn (processAccess_calls fun _ _ => trivial).only
  split
  · exact goesOn (processRead_calls (fun _ => trivial) (fun _ _ _ => trivial)
      fun _ _ _ => trivial).only
  split
  · exact goesOn (processWrite_calls (fun _ => trivial) (fun _ _ _ => trivial)
      (fun _ _ _ => trivial) (fun _ => trivial) fun _ _ => trivial).only
  split
  · exact goesOn (processOpen_calls (fun _ _ => trivial) fun _ _ => trivial).only
  · trivial

theorem only_commandLoop : (self.commandLoop host).Only (Within Harmless) := by
  refine .bind (only_readCmd ..) fun ⟨respVal, command⟩ => ?_
  refine .ite (.ite ?_ ?_) (only_dispatch host self command)
  · refine .bind (only_sys ?_) fun _ => ?_
    · trivial
    · trivial
  · trivial

end Harmless
end AgFS
