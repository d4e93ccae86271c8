import AgFS.Model.Agfsio

/-! `serverconnection.cpp`: the client's side of a connection. -/
namespace AgFS
open Interaction ByteOrder

/-- The parts of a `ServerConnection` that never change. -/
structure ServerConnection where
  hostname_ : Str
  port_ : Str
  key_ : Str

/-- What `writeFile` is given: a pointer to `size` bytes. No object is larger. -/
structure Buffer where
  bytes : Bytes
  addressable : bytes.length < 2 ^ 63

def Buffer.size (buf : Buffer) : AgsizeT := UInt64.ofNat buf.bytes.length

theorem Buffer.size_toNat (buf : Buffer) : buf.size.toNat = buf.bytes.length :=
  UInt64.toNat_ofNat_of_lt' (buf.addressable.trans (by decide))

namespace ServerConnection

def socket_ : ClientIo Fd := ClientIo.sys .getSocket

/-- `std::lock_guard<std::mutex> l{monitor_}` around a body. -/
def monitored {α : Type} (body : ClientIo α) : ClientIo α := do
  ClientIo.sys .lock
  let r ← body
  ClientIo.sys .unlock
  return r

def connected : ClientIo Bool := do
  return !decide ((← socket_) < 0)

def closed : ClientIo Bool := ClientIo.sys .getClosed

def stop : ClientIo AgerrT := monitored do
  let error ← do
    if ← connected then
      let _ ← agfsWriteCmd (← socket_) cmd.STOP
      let r ← ClientIo.sys (.close (← socket_))
      ClientIo.sys (.setSocket (-1))
      match r with
      | .error _ => pure (-1 : AgerrT)
      | .ok _ => pure 0
    else pure 0
  ClientIo.sys .setClosed
  return error

def DNS_ERROR : Fd := -1
def SOCKET_FAILURE : Fd := -2
def CONNECTION_FAILURE : Fd := -3

/-- Every early return leaves what was opened before it open. -/
def dnsLookup (self : ServerConnection) (port : Str) : ClientIo Fd := do
  if !(← ClientIo.sys (.getaddrinfo (cstr self.hostname_) port)) then return DNS_ERROR
  match ← ClientIo.sys .socket with
  | .error _ => return SOCKET_FAILURE
  | .ok fd =>
    match ← ClientIo.sys (.connect fd) with
    | .error _ => return CONNECTION_FAILURE
    | .ok _ => return fd

/-- The part of `connect` that follows the lookup. -/
def handshake (host : Endian) (self : ServerConnection) : ClientIo Unit := do
  let _ ← agfsWriteString (← socket_) self.key_
  let (_, servResp) ← agfsReadCmd host (← socket_) cmd.NONE
  if servResp = cmd.ACCEPT then return ()
  let _ ← ClientIo.sys (.close (← socket_))
  ClientIo.sys (.setSocket (-1))

def connect (host : Endian) (self : ServerConnection) : ClientIo Unit := do
  ClientIo.sys (.setSocket (← self.dnsLookup (cstr self.port_)))
  let fd ← socket_
  if fd = DNS_ERROR ∨ fd = SOCKET_FAILURE ∨ fd = CONNECTION_FAILURE then return ()
  self.handshake host

def getattr (host : Endian) (path : CString) : ClientIo (Stat × AgerrT) := monitored do
  let _ ← agfsWriteCmd (← socket_) cmd.GETATTR
  let _ ← agfsWriteString (← socket_) path.1
  let (_, error) ← agfsReadError host (← socket_) 0
  if 0 ≤ error then
    let (_, readValues) ← agfsReadStat host (← socket_)
    return (readValues, error)
  else
    return (Stat.zero, error)

/-- The variable that receives the reply is not initialised. -/
def access (host : Endian) (path : CString) (mask : AgmaskT) : ClientIo AgerrT := monitored do
  let _ ← agfsWriteCmd (← socket_) cmd.ACCESS
  let _ ← agfsWriteString (← socket_) path.1
  let _ ← agfsWriteMask (← socket_) mask
  let retValue := (UInt64.ofNat (host.load (← Sock.scratch 8).1)).toInt64
  let (_, retValue) ← agfsReadError host (← socket_) retValue
  return retValue

/-- The loop of `readdir`: `count` more entries. -/
def readEntries (host : Endian) : Nat → ClientIo (List (Str × Stat))
  | 0 => return []
  | count + 1 => do
    let (_, file) ← agfsReadString host (← socket_) []
    let (_, stbuf) ← agfsReadStat host (← socket_)
    let files ← readEntries host count
    return (file, stbuf) :: files

def readdir (host : Endian) (path : CString) : ClientIo (List (Str × Stat) × AgerrT) :=
  monitored do
    let _ ← agfsWriteCmd (← socket_) cmd.READDIR
    let _ ← agfsWriteString (← socket_) path.1
    let (_, error) ← agfsReadError host (← socket_) 0
    if 0 ≤ error then
      let (_, count) ← agfsReadSize host (← socket_) 0
      let files ← readEntries host count.toNat
      return (files, error)
    else
      return ([], error)

def readFile (host : Endian) (path : CString) (size offset : AgsizeT) :
    ClientIo (Bytes × AgerrT) := monitored do
  let _ ← agfsWriteCmd (← socket_) cmd.READ
  let _ ← agfsWriteString (← socket_) path.1
  let _ ← agfsWriteSize (← socket_) size
  let _ ← agfsWriteSize (← socket_) offset
  let (_, error) ← agfsReadError host (← socket_) 0
  if 0 ≤ error then
    let (_, amountRead) ← agfsReadSize host (← socket_) 0
    let data ← vectorResize amountRead.toNat
    let r ← Sock.recv .data (← socket_) amountRead.toNat
    return (overlay data r.bytes, min r.ssize error)
  else
    return ([], error)

/-- The loop of `writeFile` that sends the buffer. It ends with the last value of `error`,
and with `errno` if that is from a failed call. The fuel is the number of bytes left. -/
def sendBuffer : Nat → Bytes → AgsizeT → AgerrT → ClientIo (AgsizeT × Except Errno AgerrT)
  | 0, _, totalWritten, error => return (totalWritten, .ok error)
  | fuel + 1, rest, totalWritten, error => do
    if rest = [] then return (totalWritten, .ok error)
    match ← Sock.send .data (← socket_) rest with
    | .fail err => return (totalWritten, .error err)
    | .wrote count _ =>
      if count = 0 then return (totalWritten, .ok 0)
      sendBuffer fuel (rest.drop count) (totalWritten + UInt64.ofNat count) (Int64.ofNat count)

/-- What `writeFile` does once the server has opened the file. -/
def sendData (host : Endian) (offset : AgsizeT) (buf : Buffer) (error : AgerrT) :
    ClientIo (AgsizeT × AgerrT) := do
  let _ ← agfsWriteSize (← socket_) buf.size
  let _ ← agfsWriteSize (← socket_) offset
  match ← sendBuffer buf.bytes.length buf.bytes 0 error with
  | (_, .error err) => return (0, err.neg)
  | (totalWritten, .ok error) =>
    let (_, error) ← agfsReadError host (← socket_) error
    if 0 ≤ error then
      let (_, totalWritten) ← agfsReadSize host (← socket_) totalWritten
      return (totalWritten, error)
    else
      return (totalWritten, error)

def writeFile (host : Endian) (path : CString) (offset : AgsizeT) (buf : Buffer) :
    ClientIo (AgsizeT × AgerrT) := monitored do
  let _ ← agfsWriteCmd (← socket_) cmd.WRITE
  let _ ← agfsWriteString (← socket_) path.1
  let (_, error) ← agfsReadError host (← socket_) 0
  if error < 0 then return (0, error)
  sendData host offset buf error

def «open» (host : Endian) (path : CString) (flags : AgmaskT) : ClientIo AgerrT := monitored do
  let _ ← agfsWriteCmd (← socket_) cmd.OPEN
  let _ ← agfsWriteString (← socket_) path.1
  let _ ← agfsWriteMask (← socket_) flags
  let (_, error) ← agfsReadError host (← socket_) 0
  return error

def heartbeat (host : Endian) : ClientIo AgerrT := monitored do
  let _ ← agfsWriteCmd (← socket_) cmd.HEARTBEAT
  let (_, resp) ← agfsReadCmd host (← socket_) cmd.NONE
  if resp = cmd.NONE then
    let _ ← ClientIo.sys (.close (← socket_))
    ClientIo.sys (.setSocket (-1))
  return 0

end ServerConnection
end AgFS
