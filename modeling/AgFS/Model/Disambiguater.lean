import AgFS.Model.Constants
import Std.Data.TreeMap

/-! `disambiguater.cpp`: one listing out of those of several servers, and the names that
say which server a file is on. -/
namespace AgFS
open Interaction

/-- `std::string::find`: where a pattern first occurs. -/
def find (pattern : Str) : Str → Option Nat
  | [] => if pattern = [] then some 0 else none
  | b :: s => if pattern <+: b :: s then some 0 else (find pattern s).map (· + 1)

/-- `std::string::substr`, of a start within the string. -/
def substr (s : Str) (pos len : Nat) : Str := (s.drop pos).take len

/-- The difference of two values of type `size_t`. -/
def sizeSub (a b : Nat) : Nat := if b ≤ a then a - b else 2 ^ 64 + a - b

structure Disambiguater where
  filemap_ : Std.TreeMap Str (List (Str × Stat))
  directorymap_ : Std.TreeMap Str Stat

namespace Disambiguater

/-- `{:` -/
def BEGIN_BRACE : Str := [0x7B, 0x3A]

/-- `:}` -/
def END_BRACE : Str := [0x3A, 0x7D]

def new : Disambiguater := ⟨∅, ∅⟩

/-- A server is added to those that have a file of this name, unless it is among them. -/
def addServer (d : Disambiguater) (path server : Str) (stbuf : Stat) : Disambiguater × AgerrT :=
  let servers := d.filemap_.getD path []
  if servers.any fun entry => entry.1 == server then (d, Errno.EEXIST.neg)
  else ({ d with filemap_ := d.filemap_.insert path (servers ++ [(server, stbuf)]) }, 0)

def addFilepath (d : Disambiguater) (value : Str × Stat) (server : Str) :
    Disambiguater × AgerrT :=
  let (path, stbuf) := value
  if stbuf.isDir then ({ d with directorymap_ := d.directorymap_.insert path stbuf }, 0)
  else d.addServer path server stbuf

/-- The overload that is given no `struct stat`. -/
def addFilepathName (d : Disambiguater) (path server : Str) : Disambiguater × AgerrT :=
  d.addServer path server Stat.zero

/-- Paths are added up to the first that fails. -/
def addAll {α : Type} (add : Disambiguater → α → Disambiguater × AgerrT) (error : AgerrT) :
    Disambiguater → List α → Disambiguater × AgerrT
  | d, [] => (d, error)
  | d, value :: paths =>
    let (d, error) := add d value
    if error < 0 then (d, error) else addAll add error d paths

def addFilepaths (d : Disambiguater) (paths : List (Str × Stat)) (server : Str) :
    Disambiguater × AgerrT :=
  addAll (fun d value => d.addFilepath value server) 0 d paths

def addFilepathNames (d : Disambiguater) (paths : List Str) (server : Str) :
    Disambiguater × AgerrT :=
  addAll (fun d path => d.addFilepathName path server) 0 d paths

/-- The name under which one of several servers' files is listed. -/
def tagged (filepath server : Str) : Str := filepath ++ BEGIN_BRACE ++ server ++ END_BRACE

def disambiguatedFilepaths (d : Disambiguater) : List Str :=
  d.filemap_.toList.flatMap (fun (filepath, servers) =>
    if servers.length = 1 then [filepath]
    else servers.map fun entry => tagged filepath entry.1) ++ d.directorymap_.keys

def disambiguatedFilepathsWithStats (d : Disambiguater) : List (Str × Stat) :=
  d.filemap_.toList.flatMap (fun (filepath, servers) =>
    match servers with
    | [entry] => [(filepath, entry.2)]
    | _ => servers.map fun entry => (tagged filepath entry.1, entry.2)) ++ d.directorymap_.toList

def clearPaths (_ : Disambiguater) : Disambiguater := ⟨∅, ∅⟩

/-- The server that a path names, if any, and the path on that server. Where `:}` comes
before the end of `{:` the length of the server's name wraps. -/
def ambiguate (path : Str) : Str × Str :=
  match find BEGIN_BRACE path, find END_BRACE path with
  | some beginPosition, some endPosition =>
    let serverLoc := beginPosition + BEGIN_BRACE.length
    let server := substr path serverLoc (sizeSub endPosition serverLoc)
    (server, substr path 0 beginPosition ++ path.drop (endPosition + END_BRACE.length))
  | _, _ => ([], path)

end Disambiguater
end AgFS
