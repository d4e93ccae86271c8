import AgFS.Basis.Tokens
import AgFS.Model.ServerConnection

/-! `agfs-server.cpp`: the server's side of a connection. -/
namespace AgFS
open Interaction ByteOrder Tokens

def O_RDONLY : UInt32 := 0
def O_WRONLY : UInt32 := 1

/-- `boost::filesystem::path::operator/=`, version 3: a separator is put between the two
parts unless one is there already or a part is empty. -/
def pathAppend (left right : Str) : Str :=
  match right with
  | [] => left
  | b :: _ =>
    if b = 0x2F ∨ left = [] ∨ left.getLast? = some 0x2F then left ++ right
    else left ++ [0x2F] ++ right

theorem NulFree.pathAppend {mount path : Str} (hm : NulFree mount) (hp : NulFree path) :
    NulFree (pathAppend mount path) := by
  cases path with
  | nil => exact hm
  | cons b path =>
    rw [AgFS.pathAppend]
    split
    · exact hm.append hp
    · exact (hm.append (by decide)).append hp

/-- `-errno` where the last call did not set it. -/
def staleErrno : ServerIo AgerrT := do
  match ← ServerIo.sys .errno with
  | none => return 0
  | some err => return err.neg

/-- The result of a call of `boost::filesystem`, unless it throws. -/
def orThrow {α : Type} : Except Errno α → ServerIo α
  | .error _ => Sock.abort .exception
  | .ok a => return a

structure ClientConnection where
  mountPoint_ : Str
  socket_ : Fd
  beatsMissed_ : Int
  deriving DecidableEq

namespace ClientConnection

/-- The name a handler passes to the system for a path a client sent. -/
def file (self : ClientConnection) (path : Str) : Str := pathAppend self.mountPoint_ path

def processHeartbeat (self : ClientConnection) : ServerIo Unit := do
  let _ ← agfsWriteCmd self.socket_ cmd.HEARTBEAT

def processGetAttr (host : Endian) (self : ClientConnection) : ServerIo Unit := do
  let (_, path) ← agfsReadString host self.socket_ []
  match ← ServerIo.sys (.lstat (cstr (self.file path))) with
  | .error err =>
    let _ ← agfsWriteError self.socket_ err.neg
  | .ok retValue =>
    let _ ← agfsWriteError self.socket_ 0
    let _ ← agfsWriteStat self.socket_ retValue

/-- The result of `access` itself is sent, not `errno`. -/
def processAccess (host : Endian) (self : ClientConnection) : ServerIo Unit := do
  let (_, path) ← agfsReadString host self.socket_ []
  let mask := UInt32.ofNat (host.load (← Sock.scratch 4).1)
  let (_, mask) ← agfsReadMask host self.socket_ mask
  let result : AgerrT :=
    match ← ServerIo.sys (.access (cstr (self.file path)) mask) with
    | .error _ => -1
    | .ok _ => 0
  let _ ← agfsWriteError self.socket_ result

/-- The second loop of `processReaddir`. An entry that cannot be examined is sent with
the cleared buffer. -/
def writeEntries (self : ClientConnection) (file : Str) : List FileName → ServerIo Unit
  | [] => return ()
  | entry :: rest => do
    let _ ← agfsWriteString self.socket_ entry.name
    let stbuf :=
      match ← ServerIo.sys (.lstat (cstr (pathAppend file entry.name))) with
      | .error _ => Stat.zero
      | .ok stbuf => stbuf
    let _ ← agfsWriteStat self.socket_ stbuf
    writeEntries self file rest

/-- A missing file is no directory either, so the first error never stands. -/
def processReaddir (host : Endian) (self : ClientConnection) : ServerIo Unit := do
  let (_, path) ← agfsReadString host self.socket_ []
  let file := self.file path
  let error : AgerrT := if ← orThrow (← ServerIo.sys (.fileExists (cstr file))) then 0 else Errno.ENOENT.neg
  let error := if ← orThrow (← ServerIo.sys (.isDirectory (cstr file))) then error else Errno.ENOTDIR.neg
  let _ ← agfsWriteError self.socket_ error
  if 0 ≤ error then
    let counted ← orThrow (← ServerIo.sys (.entries (cstr file)))
    let _ ← agfsWriteSize self.socket_ (UInt64.ofNat counted.1.length)
    let listed ← orThrow (← ServerIo.sys (.entries (cstr file)))
    self.writeEntries file listed.1

/-- The loop of `processRead`: bytes of a file until `left` are there, the file ends or a
read fails. The fuel is the number of bytes left. -/
def readLoop (fd : Fd) : Nat → Nat → Bytes → ServerIo (Bytes × AgerrT)
  | 0, _, buf => return (buf, 0)
  | fuel + 1, left, buf => do
    if left = 0 then return (buf, 0)
    match ← ServerIo.sys (.read fd left) with
    | .fail _ => return (buf, -1)
    | .got bs _ =>
      if bs = [] then return (buf, 0)
      readLoop fd fuel (left - bs.length) (buf ++ bs)

/-- The file is never closed. Where no read failed the error sent is the number of bytes
read, which may look negative. -/
def processRead (host : Endian) (self : ClientConnection) : ServerIo Unit := do
  let (_, path) ← agfsReadString host self.socket_ []
  let (_, size) ← agfsReadSize host self.socket_ 0
  let (_, offset) ← agfsReadSize host self.socket_ 0
  match ← ServerIo.sys (.open (cstr (self.file path)) O_RDONLY) with
  | .error err =>
    let _ ← agfsWriteError self.socket_ err.neg
  | .ok fd =>
    let _ ← ServerIo.sys (.lseek fd offset)
    let _ ← vectorResize size.toNat
    let (buf, error) ← readLoop fd size.toNat size.toNat []
    let totalRead := UInt64.ofNat buf.length
    let error := if 0 ≤ error then totalRead.toInt64 else error
    let _ ← agfsWriteError self.socket_ error
    if 0 ≤ error then
      let _ ← agfsWriteSize self.socket_ totalRead
      let _ ← Sock.send .data self.socket_ buf

/-- How the loop of `processWrite` ends: the file has refused a chunk, or the last value
of `error` with the number of bytes written. -/
inductive Stored where
  | refused (error : AgerrT)
  | ended (error : AgerrT) (totalWritten : AgsizeT)

/-- The loop of `processWrite`: payload from the socket into the file until `left` bytes
have come, or a read returns nothing. The fuel is the number of bytes left. -/
def storeLoop (socket fd : Fd) : Nat → Nat → AgerrT → AgsizeT → ServerIo Stored
  | 0, _, error, totalWritten => return .ended error totalWritten
  | fuel + 1, left, error, totalWritten => do
    if left = 0 then return .ended error totalWritten
    match ← Sock.recv .data socket left with
    | .fail _ => return .ended (-1) totalWritten
    | .got chunk _ =>
      if chunk = [] then return .ended 0 totalWritten
      match ← ServerIo.sys (.write fd chunk) with
      | .fail err => return .refused err.neg
      | .wrote count _ =>
        if count = 0 then return .refused (← staleErrno)
        storeLoop socket fd fuel (left - chunk.length) (Int64.ofNat count)
          (totalWritten + UInt64.ofNat count)

/-- What `processWrite` does after its loop. -/
def finishWrite (self : ClientConnection) (fd : Fd) : Stored → ServerIo Unit
  | .refused error => do
    let _ ← agfsWriteError self.socket_ error
  | .ended error totalWritten => do
    ServerIo.sys (.close fd)
    let _ ← agfsWriteError self.socket_ error
    if 0 ≤ error then
      let _ ← agfsWriteSize self.socket_ totalWritten

/-- What `processWrite` does once the file is open and the client knows. -/
def receiveData (host : Endian) (self : ClientConnection) (fd : Fd) : ServerIo Unit := do
  let (_, size) ← agfsReadSize host self.socket_ 0
  let (_, offset) ← agfsReadSize host self.socket_ 0
  let _ ← ServerIo.sys (.lseek fd offset)
  let _ ← vectorResize size.toNat
  self.finishWrite fd (← storeLoop self.socket_ fd size.toNat size.toNat 0 0)

def processWrite (host : Endian) (self : ClientConnection) : ServerIo Unit := do
  let (_, path) ← agfsReadString host self.socket_ []
  match ← ServerIo.sys (.open (cstr (self.file path)) O_WRONLY) with
  | .error err =>
    let _ ← agfsWriteError self.socket_ err.neg
  | .ok fd =>
    let _ ← agfsWriteError self.socket_ 0
    self.receiveData host fd

def processOpen (host : Endian) (self : ClientConnection) : ServerIo Unit := do
  let (_, path) ← agfsReadString host self.socket_ []
  let (_, mask) ← agfsReadMask host self.socket_ 0
  match ← ServerIo.sys (.open (cstr (self.file path)) mask) with
  | .error err =>
    ServerIo.sys (.close (-1))
    let _ ← agfsWriteError self.socket_ err.neg
  | .ok fd =>
    ServerIo.sys (.close fd)
    let _ ← agfsWriteError self.socket_ 0

/-- What `processCommands` does for one command: on the left it goes on, on the right it
has returned. -/
def dispatch (host : Endian) (self : ClientConnection) (command : CmdT) :
    ServerIo (ClientConnection ⊕ ClientConnection) := do
  if command = cmd.STOP then
    ServerIo.sys (.close self.socket_)
    return .inr { self with socket_ := -1 }
  else if command = cmd.HEARTBEAT then self.processHeartbeat
  else if command = cmd.GETATTR then self.processGetAttr host
  else if command = cmd.READDIR then self.processReaddir host
  else if command = cmd.ACCESS then self.processAccess host
  else if command = cmd.READ then self.processRead host
  else if command = cmd.WRITE then self.processWrite host
  else if command = cmd.OPEN then self.processOpen host
  return .inl self

/-- One pass of the loop of `processCommands`. -/
def commandLoop (host : Endian) (self : ClientConnection) :
    ServerIo (ClientConnection ⊕ ClientConnection) := do
  let (respVal, command) ← agfsReadCmd host self.socket_ cmd.GETATTR
  if respVal ≤ 0 then
    let beatsMissed := self.beatsMissed_ + 1
    if beatsMissed > 5 then
      ServerIo.sys (.close self.socket_)
      return .inr { self with socket_ := -1, beatsMissed_ := beatsMissed }
    else
      return .inl { self with beatsMissed_ := beatsMissed }
  else
    self.dispatch host command

/-- One pass of the scan of the key file: three extractions into the same variables. -/
structure AuthScan where
  stream : IStream
  mountPath : Str
  user : Str
  serverKey : Str

namespace AuthScan

/-- Before the first pass the variables are empty. -/
def start (content : Option Bytes) : AuthScan where
  stream := match content with
    | some bytes => IStream.opened bytes
    | none => IStream.unopened
  mountPath := []
  user := []
  serverKey := []

def pass (scan : AuthScan) : AuthScan :=
  let (stream, mountPath) := scan.stream.extract scan.mountPath
  let (stream, user) := stream.extract scan.user
  let (stream, serverKey) := stream.extract scan.serverKey
  ⟨stream, mountPath, user, serverKey⟩

/-- The scan: `none` while it is still running, otherwise whether the key was found and
what the variables held then. -/
def run (clientKey : Str) : Nat → AuthScan → Option (Bool × AuthScan)
  | 0, _ => none
  | fuel + 1, scan =>
    if scan.stream.eof then some (false, scan)
    else if scan.pass.serverKey = clientKey then some (true, scan.pass)
    else run clientKey fuel scan.pass

end AuthScan

/-- A connection whose constructor gave up. -/
def refused : ClientConnection := ⟨[], -1, 0⟩

/-- What the constructor does when the scan has ended. -/
def afterScan (connfd : Fd) : Option (Bool × AuthScan) → ServerIo ClientConnection
  | none => Sock.abort .endlessLoop
  | some (false, _) => do
    let _ ← agfsWriteCmd connfd cmd.INVALID_KEY
    ServerIo.sys (.close connfd)
    return refused
  | some (true, scan) => do
    match ← ServerIo.sys (.getpwnam (cstr scan.user)) with
    | none =>
      let _ ← agfsWriteCmd connfd cmd.USER_NOT_FOUND
      ServerIo.sys (.close connfd)
      return refused
    | some userPwd =>
      let _ ← ServerIo.sys (.setuid userPwd.pwUid)
      let _ ← ServerIo.sys (.setgid userPwd.pwGid)
      if ← orThrow (← ServerIo.sys (.fileExists (cstr scan.mountPath))) then
        return ⟨scan.mountPath, connfd, 0⟩
      else
        let _ ← agfsWriteCmd connfd cmd.MOUNT_NOT_FOUND
        ServerIo.sys (.close connfd)
        return refused

/-- The constructor. A pass over an open file takes at least one byte from it or finds its
end; a scan that is not done after so many passes repeats itself for ever. -/
def create (host : Endian) (connfd : Fd) : ServerIo ClientConnection := do
  let (_, clientKey) ← agfsReadString host connfd []
  let content ← ServerIo.sys .readAuthkeys
  afterScan connfd (AuthScan.run clientKey ((content.getD []).length + 2) (AuthScan.start content))

def connected (self : ClientConnection) : Bool := -1 < self.socket_

end ClientConnection

/-- Where the child process that serves a connection stands: before the constructor, or
at the head of the command loop. -/
inductive Child where
  | fresh (connfd : Fd)
  | serving (self : ClientConnection)
  deriving DecidableEq

/-- The first thing `processCommands` does. -/
def Child.accepted (self : ClientConnection) : ServerIo (Child ⊕ ClientConnection) := do
  let _ ← agfsWriteCmd self.socket_ cmd.ACCEPT
  return .inl (.serving self)

/-- The child process of `main`, as the body of a loop. It ends with the connection object. -/
def Child.body (host : Endian) : Child → ServerIo (Child ⊕ ClientConnection)
  | .fresh connfd => do
    let self ← ClientConnection.create host connfd
    if self.connected then Child.accepted self else return .inr self
  | .serving self => do return (← self.commandLoop host).map .serving id

end AgFS
