import AgFS.Model.System
import Mathlib.Logic.Function.Basic

/-! `agfs-keygen.cpp`: a new key, for a client and for the server. -/
namespace AgFS
open Interaction

def KEY_LEN : Nat := 256

def ASCII_KEY_LEN : Nat := 512

/-- `/var/lib/agfs/` -/
def KEY_NAME_PATH : Str := [0x2F, 0x76, 0x61, 0x72, 0x2F, 0x6C, 0x69, 0x62, 0x2F, 0x61, 0x67, 0x66, 0x73, 0x2F]

/-- `/var/lib/agfs/authkeys` -/
def KEY_LIST_PATH : Str := KEY_NAME_PATH ++ [0x61, 0x75, 0x74, 0x68, 0x6B, 0x65, 0x79, 0x73]

/-- `.agkey` -/
def KEY_EXTENSION : Str := [0x2E, 0x61, 0x67, 0x6B, 0x65, 0x79]

namespace Keygen

def hexValues : List UInt8 :=
  [0x30, 0x31, 0x32, 0x33, 0x34, 0x35, 0x36, 0x37, 0x38, 0x39, 0x41, 0x42, 0x43, 0x44, 0x45, 0x46]

/-- The files of the machine, by their paths. -/
abbrev Files := Str → Option Bytes

namespace Files

/-- A stream opened with `out`: the file is there, and empty. -/
def openOut (files : Files) (path : Str) : Files := Function.update files path (some [])

/-- A stream opened with `out | app`: the file is there, as it was. -/
def openApp (files : Files) (path : Str) : Files := Function.update files path (some ((files path).getD []))

/-- `stream << text` -/
def put (files : Files) (path text : Str) : Files := Function.update files path (some ((files path).getD [] ++ text))

end Files

/-- What the system answers while a key is made. -/
structure System where
  dirExists : Bool
  dirCreated : Bool
  keyListOpens : Bool
  keyFileOpens : Bool

/-- One round of the loop of `main`. -/
def addByte (keyStr : Str) (c : UInt8) : Str :=
  let lowerByte := hexValues.getD (0x0F &&& c).toNat 0
  let upperByte := hexValues.getD ((0xF0 &&& c) >>> 4).toNat 0
  keyStr ++ [upperByte] ++ [lowerByte]

/-- The key, from the bytes that are read from `/dev/urandom`. -/
def keyStr (draw : Bytes) : Str := draw.foldl addByte []

def keyFileName (name : Str) : Str := KEY_NAME_PATH ++ name ++ KEY_EXTENSION

/-- The exit code, and the files afterwards. -/
def main (system : System) (argv : List Str) (draw : Bytes) (files : Files) : Int × Files :=
  match argv with
  | [_, host, port, user, mount, name] =>
    if !system.dirExists && !system.dirCreated then (-Errno.ENOENT.code, files)
    else if !system.keyListOpens then (-Errno.ENOENT.code, files)
    else
      let files := files.openApp KEY_LIST_PATH
      if !system.keyFileOpens then (-Errno.ENOENT.code, files)
      else
        let files := files.openOut (keyFileName name)
        let files := files.put (keyFileName name) (host ++ [0x0A] ++ port ++ [0x0A])
        let files := files.put (keyFileName name) (keyStr draw ++ [0x0A])
        let files := files.put KEY_LIST_PATH (mount ++ [0x20] ++ user ++ [0x20] ++ keyStr draw ++ [0x0A])
        (0, files)
  | _ => (0, files)

end Keygen
end AgFS
