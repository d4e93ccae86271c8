import AgFS.Basis.ByteOrder
import AgFS.Model.System

/-! `agfsio.cpp`: the values that cross the connection, written and read in network
byte order. A reader is given what its variable held before, and returns the C result
together with what the variable holds afterwards. -/
namespace AgFS
open Interaction ByteOrder

/-! A variable converted by `htobeN` is the bytes the value has on the wire; one
converted by `beNtoh` is the value its memory spells there. -/

def htobe16 (x : UInt16) : Bytes := beBytes 2 x.toNat

def htobe32 (x : UInt32) : Bytes := beBytes 4 x.toNat

def htobe64 (x : UInt64) : Bytes := beBytes 8 x.toNat

def be16toh (memory : Bytes) : UInt16 := UInt16.ofNat (beNat memory)

def be32toh (memory : Bytes) : UInt32 := UInt32.ofNat (beNat memory)

def be64toh (memory : Bytes) : UInt64 := UInt64.ofNat (beNat memory)

section Agfsio
variable {L : Signature}

def agfsWriteCmd (fd : Fd) (cmd : CmdT) : Io L Int32 := do
  let r ← Sock.send .command fd (htobe16 cmd)
  return r.int

def agfsReadCmd (host : Endian) (fd : Fd) (cmd : CmdT) : Io L (Int32 × CmdT) := do
  let r ← Sock.recv .command fd 2
  return (r.int, be16toh (overlay (host.store 2 cmd.toNat) r.bytes))

def agfsWriteMask (fd : Fd) (mask : AgmaskT) : Io L Int32 := do
  let r ← Sock.send .field fd (htobe32 mask)
  return r.int

def agfsReadMask (host : Endian) (fd : Fd) (mask : AgmaskT) : Io L (Int32 × AgmaskT) := do
  let r ← Sock.recv .field fd 4
  return (r.int, be32toh (overlay (host.store 4 mask.toNat) r.bytes))

def agfsWriteSize (fd : Fd) (size : AgsizeT) : Io L Int32 := do
  let r ← Sock.send .field fd (htobe64 size)
  return r.int

def agfsReadSize (host : Endian) (fd : Fd) (size : AgsizeT) : Io L (Int32 × AgsizeT) := do
  let r ← Sock.recv .field fd 8
  return (r.int, be64toh (overlay (host.store 8 size.toNat) r.bytes))

def agfsWriteError (fd : Fd) (err : AgerrT) : Io L Int32 := do
  let r ← Sock.send .field fd (htobe64 err.toUInt64)
  return r.int

def agfsReadError (host : Endian) (fd : Fd) (err : AgerrT) : Io L (Int32 × AgerrT) := do
  let r ← Sock.recv .field fd 8
  return (r.int,
    (be64toh (overlay (host.store 8 err.toUInt64.toNat) r.bytes)).toInt64)

def agfsWriteString (fd : Fd) (str : Str) : Io L Int32 := do
  let err ← agfsWriteSize fd (UInt64.ofNat str.length)
  if err < 0 then return err
  let totalWritten := err
  let r ← Sock.send .text fd str
  let err := r.int
  if err < 0 then return err
  return totalWritten + err

/-- The sum `pathLen + 1` wraps, `malloc` may fail, and the terminator is stored without
a check: storing outside the block is undefined behaviour. -/
def agfsReadString (host : Endian) (fd : Fd) (str : Str) : Io L (Int32 × Str) := do
  let (err, pathLen) ← agfsReadSize host fd 0
  if err < 0 then return (err, str)
  let totalRead := err
  match ← Sock.malloc (pathLen + 1).toNat with
  | none => Sock.abort .undefinedBehaviour
  | some string =>
    let r ← Sock.recv .text fd pathLen.toNat
    if string.1.length ≤ pathLen.toNat then Sock.abort .undefinedBehaviour
    let string := (overlay string.1 r.bytes).set pathLen.toNat 0
    let str := cstr string
    let err := r.int
    if err < 0 then return (err, str)
    return (totalRead + err, str)

def agfsWriteStat (fd : Fd) (buf : Stat) : Io L Int32 := do
  let r ← Sock.send .field fd (htobe64 buf.stDev)
  let temp := r.int
  if temp < 0 then return temp
  let totalWritten := temp
  let r ← Sock.send .field fd (htobe32 buf.stMode)
  let temp := r.int
  if temp < 0 then return temp
  let totalWritten := totalWritten + temp
  let temp ← agfsWriteSize fd buf.stSize.toUInt64
  if temp < 0 then return temp
  let totalWritten := totalWritten + temp
  let r ← Sock.send .field fd (htobe64 buf.stAtime.toUInt64)
  let temp := r.int
  if temp < 0 then return temp
  let totalWritten := totalWritten + temp
  let r ← Sock.send .field fd (htobe64 buf.stMtime.toUInt64)
  let temp := r.int
  if temp < 0 then return temp
  let totalWritten := totalWritten + temp
  let r ← Sock.send .field fd (htobe64 buf.stCtime.toUInt64)
  let temp := r.int
  if temp < 0 then return temp
  return totalWritten + temp

/-- The buffer is cleared first and filled only when every part has been read; `dev` and
`mode` are read into variables that nothing has initialised. -/
def agfsReadStat (host : Endian) (fd : Fd) : Io L (Int32 × Stat) := do
  let dev ← Sock.scratch 8
  let r ← Sock.recv .field fd 8
  let temp := r.int
  if temp < 0 then return (temp, Stat.zero)
  let dev := be64toh (overlay dev.1 r.bytes)
  let totalRead := temp
  let mode ← Sock.scratch 4
  let r ← Sock.recv .field fd 4
  let temp := r.int
  if temp < 0 then return (temp, Stat.zero)
  let mode := be32toh (overlay mode.1 r.bytes)
  let totalRead := totalRead + temp
  let (temp, size) ← agfsReadSize host fd 0
  if temp < 0 then return (temp, Stat.zero)
  let totalRead := totalRead + temp
  let r ← Sock.recv .field fd 8
  let temp := r.int
  if temp < 0 then return (temp, Stat.zero)
  let atime := be64toh (overlay (host.store 8 0) r.bytes)
  let totalRead := totalRead + temp
  let r ← Sock.recv .field fd 8
  let temp := r.int
  if temp < 0 then return (temp, Stat.zero)
  let mtime := be64toh (overlay (host.store 8 0) r.bytes)
  let totalRead := totalRead + temp
  let r ← Sock.recv .field fd 8
  let temp := r.int
  if temp < 0 then return (temp, Stat.zero)
  let ctimestamp := be64toh (overlay (host.store 8 0) r.bytes)
  let totalRead := totalRead + temp
  return (totalRead, { Stat.zero with
    stSize := size.toInt64, stMode := mode, stDev := dev
    stAtime := atime.toInt64, stMtime := mtime.toInt64, stCtime := ctimestamp.toInt64 })

end Agfsio
end AgFS
