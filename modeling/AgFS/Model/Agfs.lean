import AgFS.Basis.Tokens
import AgFS.Model.Disambiguater
import AgFS.Model.Request

/-! `agfs.cpp`: the callbacks of the file system, over the table of connections. -/
namespace AgFS
open Interaction ByteOrder

/-- `std::map<std::string, ServerConnection>`: the connections by host name. -/
abbrev Connections := Std.TreeMap Str ServerConnection

/-- What a callback does with the connections in the table. -/
inductive AgfsCall where
  | connected (server : Str)
  | request (server : Str) (r : Request)

abbrev AgfsSys : Signature where
  Call := AgfsCall
  Reply
    | .connected _ => Bool
    | .request _ r => r.Result

abbrev AgfsIo := Prog AgfsSys

namespace AgfsIo

def connected (server : Str) : AgfsIo Bool := .call (S := AgfsSys) (.connected server) .ret

def getattr (server : Str) (path : CString) : AgfsIo (Stat × AgerrT) :=
  .call (S := AgfsSys) (.request server (.getattr path)) .ret

def access (server : Str) (path : CString) (mask : AgmaskT) : AgfsIo AgerrT :=
  .call (S := AgfsSys) (.request server (.access path mask)) .ret

def readdir (server : Str) (path : CString) : AgfsIo (List (Str × Stat) × AgerrT) :=
  .call (S := AgfsSys) (.request server (.readdir path)) .ret

def readFile (server : Str) (path : CString) (size offset : AgsizeT) : AgfsIo (Bytes × AgerrT) :=
  .call (S := AgfsSys) (.request server (.readFile path size offset)) .ret

def writeFile (server : Str) (path : CString) (offset : AgsizeT) (buf : Buffer) :
    AgfsIo (AgsizeT × AgerrT) :=
  .call (S := AgfsSys) (.request server (.writeFile path offset buf)) .ret

def «open» (server : Str) (path : CString) (flags : AgmaskT) : AgfsIo AgerrT :=
  .call (S := AgfsSys) (.request server (.open path flags)) .ret

end AgfsIo

/-- `std::string::c_str`. -/
def cString (s : Str) : CString := ⟨cstr s, cstr_nulFree s⟩

/-- `it != connections.end() && it->second.connected()`. -/
def usable (connections : Connections) (server : Str) : AgfsIo Bool :=
  if server ∈ connections then AgfsIo.connected server else return false

/-- `file_handle_t` -/
structure FileHandle where
  server : Str
  file : Str
  deriving DecidableEq

def F_OK : AgmaskT := 0

/-- The servers of a table on which a path exists. -/
def checkExistance (path : CString) : List Str → AgfsIo (List Str)
  | [] => return []
  | server :: rest => do
    let error ← AgfsIo.access server path F_OK
    let retVal ← checkExistance path rest
    if 0 ≤ error then return server :: retVal else return retVal

/-- The loop of `agfs_getattr`: the first success, otherwise the last answer. -/
def getattrFirst (file : CString) (retVal : Stat × AgerrT) : List Str → AgfsIo (Stat × AgerrT)
  | [] => return retVal
  | server :: rest => do
    if ← AgfsIo.connected server then
      let retVal ← AgfsIo.getattr server file
      if 0 ≤ retVal.2 then return retVal else getattrFirst file retVal rest
    else getattrFirst file retVal rest

/-- What is stored in `stbuf`, and the result. -/
def agfsGetattr (connections : Connections) (path : CString) : AgfsIo (Stat × Int32) := do
  let (server, file) := Disambiguater.ambiguate path.1
  let retVal ← do
    if ← usable connections server then AgfsIo.getattr server (cString file)
    else getattrFirst (cString file) (Stat.zero, 0) connections.keys
  let error := retVal.2
  let stbuf := if 0 ≤ error then retVal.1 else Stat.zero
  return (stbuf, error.toInt32)

/-- The loop of `agfs_access`: the first success, otherwise the last answer. -/
def accessFirst (file : CString) (mask : AgmaskT) (res : AgerrT) : List Str → AgfsIo AgerrT
  | [] => return res
  | server :: rest => do
    let res ← AgfsIo.access server file mask
    if 0 ≤ res then return res else accessFirst file mask res rest

def agfsAccess (connections : Connections) (path : CString) (mask : AgmaskT) : AgfsIo Int32 := do
  let (server, file) := Disambiguater.ambiguate path.1
  let res ← do
    if server ∈ connections then AgfsIo.access server (cString file) mask
    else accessFirst (cString file) mask 0 connections.keys
  return res.toInt32

/-- One server's listing is added to those so far, if the server has one. -/
def readdirOne (file : CString) (server : Str) (disam : Disambiguater) (err : AgerrT) :
    AgfsIo (Disambiguater × AgerrT) := do
  let retVal ← AgfsIo.readdir server file
  let temp := retVal.2
  if 0 ≤ temp then return ((disam.addFilepaths retVal.1 server).1, temp) else return (disam, err)

/-- The loop of `agfs_readdir`. -/
def readdirAll (file : CString) (disam : Disambiguater) (err : AgerrT) :
    List Str → AgfsIo (Disambiguater × AgerrT)
  | [] => return (disam, err)
  | server :: rest => do
    let (disam, err) ← readdirOne file server disam err
    readdirAll file disam err rest

/-- What one call of `filler` is given: a name and, but for `.` and `..`, a `struct stat`. -/
abbrev Filled := Str × Option Stat

/-- What the buffer is filled with, and the result. -/
def agfsReaddir (connections : Connections) (path : CString) : AgfsIo (List Filled × Int32) := do
  let (server, file) := Disambiguater.ambiguate path.1
  let (disam, err) ← do
    if server ∈ connections then readdirOne (cString file) server .new Errno.ENOTDIR.neg
    else readdirAll (cString file) .new Errno.ENOTDIR.neg connections.keys
  let entries := disam.disambiguatedFilepathsWithStats.map fun (name, st) => (cstr name, some st)
  return ([([0x2E], none), ([0x2E, 0x2E], none)] ++ entries, err.toInt32)

/-- The end of `agfs_open`, when the server is known. -/
def openOn (connections : Connections) (server file : Str) (flags : AgmaskT) :
    AgfsIo (Int32 × Option FileHandle) := do
  if ← usable connections server then
    let error ← AgfsIo.open server (cString file) flags
    if 0 ≤ error then return (error.toInt32, some ⟨server, file⟩) else return (error.toInt32, none)
  else return (Errno.ENOENT.neg.toInt32, none)

/-- A path that names no server is opened if exactly one has it. -/
def openSole (connections : Connections) (file : Str) (flags : AgmaskT) :
    List Str → AgfsIo (Int32 × Option FileHandle)
  | [server] => openOn connections server file flags
  | _ => return (Errno.ENOENT.neg.toInt32, none)

/-- The result, and the handle stored in `fi->fh`. -/
def agfsOpen (connections : Connections) (path : CString) (flags : AgmaskT) :
    AgfsIo (Int32 × Option FileHandle) := do
  let (server, file) := Disambiguater.ambiguate path.1
  if server.length = 0 then
    openSole connections file flags (← checkExistance path connections.keys)
  else openOn connections server file flags

/-- What is copied to the caller's buffer, and the result. -/
def agfsRead (connections : Connections) (fileHandle : FileHandle) (size : AgsizeT)
    (offset : Int64) : AgfsIo (Bytes × Int32) := do
  let retVal ← do
    if ← usable connections fileHandle.server then
      AgfsIo.readFile fileHandle.server (cString fileHandle.file) size offset.toUInt64
    else pure ([], Errno.ENOENT.neg)
  if 0 ≤ retVal.2 then
    return (retVal.1, (UInt64.ofNat retVal.1.length).toInt64.toInt32)
  else return ([], retVal.2.toInt32)

def agfsWrite (connections : Connections) (fileHandle : FileHandle) (buf : Buffer)
    (offset : Int64) : AgfsIo Int32 := do
  let retVal ← do
    if ← usable connections fileHandle.server then
      AgfsIo.writeFile fileHandle.server (cString fileHandle.file) offset.toUInt64 buf
    else pure (0, Errno.ENOENT.neg)
  if 0 ≤ retVal.2 then return retVal.1.toInt64.toInt32 else return retVal.2.toInt32

/-- One round of `heartbeatThread`, but for its pause. After `false` the thread has ended. -/
def heartbeatThread (host : Endian) (conn : ServerConnection) : ClientIo Bool := do
  if ← ServerConnection.closed then return false
  if !(← ServerConnection.connected) then conn.connect host
  else
    let _ ← ServerConnection.heartbeat host
  return true

/-- What `main` reads from a key file: host name, port and key. -/
def readKeyFile (content : Bytes) : Str × Str × Str :=
  let (keyfile, hostname) := (Tokens.IStream.opened content).extract []
  let (keyfile, port) := keyfile.extract []
  let (_, key) := keyfile.extract []
  (hostname, port, key)

end AgFS
