import AgFS.Model.Agfs

/-! The callbacks of `agfs_oper` that use connections, with their arguments. -/
namespace AgFS
open Interaction

inductive FuseCall where
  | getattr (path : CString)
  | access (path : CString) (mask : AgmaskT)
  | readdir (path : CString)
  | «open» (path : CString) (flags : AgmaskT)
  | read (fileHandle : FileHandle) (size : AgsizeT) (offset : Int64)
  | write (fileHandle : FileHandle) (buf : Buffer) (offset : Int64)

namespace FuseCall

abbrev Result : FuseCall → Type
  | getattr _ => Stat × Int32
  | access _ _ => Int32
  | readdir _ => List Filled × Int32
  | «open» _ _ => Int32 × Option FileHandle
  | read _ _ _ => Bytes × Int32
  | write _ _ _ => Int32

def code (connections : Connections) : (c : FuseCall) → AgfsIo c.Result
  | getattr path => agfsGetattr connections path
  | access path mask => agfsAccess connections path mask
  | readdir path => agfsReaddir connections path
  | «open» path flags => agfsOpen connections path flags
  | read fileHandle size offset => agfsRead connections fileHandle size offset
  | write fileHandle buf offset => agfsWrite connections fileHandle buf offset

def Asks (P : Request → Prop) : FuseCall → Prop
  | getattr path => P (.getattr (cString (Disambiguater.ambiguate path.1).2))
  | access path mask => P (.access (cString (Disambiguater.ambiguate path.1).2) mask)
  | readdir path => P (.readdir (cString (Disambiguater.ambiguate path.1).2))
  | «open» path flags => P (.access path F_OK) ∧ P (.open (cString (Disambiguater.ambiguate path.1).2) flags)
  | read fileHandle size offset => P (.readFile (cString fileHandle.file) size offset.toUInt64)
  | write fileHandle buf offset => P (.writeFile (cString fileHandle.file) offset.toUInt64 buf)

end FuseCall

def AgfsCall.Meets (P : Request → Prop) : AgfsCall → Prop
  | .connected _ => True
  | .request _ r => P r

section Asks
variable {P : Request → Prop} {connections : Connections} {α : Type}

theorem asks_usable {server : Str} {f : Bool → AgfsIo α} (hf : ∀ b, (f b).Only (AgfsCall.Meets P)) :
    (usable connections server >>= f).Only (AgfsCall.Meets P) := by
  unfold usable
  split
  · exact ⟨trivial, hf⟩
  · exact hf false

theorem asks_getattrFirst {file : CString} (h : P (.getattr file)) (retVal : Stat × AgerrT) (servers : List Str) :
    (getattrFirst file retVal servers).Only (AgfsCall.Meets P) := by
  induction servers generalizing retVal with
  | nil => trivial
  | cons server rest ih =>
    refine ⟨trivial, fun connected => .ite ?_ (ih retVal)⟩
    exact ⟨h, fun retVal => .ite trivial (ih retVal)⟩

theorem asks_accessFirst {file : CString} {mask : AgmaskT} (h : P (.access file mask)) (res : AgerrT)
    (servers : List Str) : (accessFirst file mask res servers).Only (AgfsCall.Meets P) := by
  induction servers generalizing res with
  | nil => trivial
  | cons server rest ih => exact ⟨h, fun res => .ite trivial (ih res)⟩

theorem asks_readdirOne {file : CString} (h : P (.readdir file)) (server : Str) (disam : Disambiguater)
    (err : AgerrT) : (readdirOne file server disam err).Only (AgfsCall.Meets P) :=
  ⟨h, fun _ => .ite trivial trivial⟩

theorem asks_readdirAll {file : CString} (h : P (.readdir file)) (disam : Disambiguater) (err : AgerrT)
    (servers : List Str) : (readdirAll file disam err servers).Only (AgfsCall.Meets P) := by
  induction servers generalizing disam err with
  | nil => trivial
  | cons server rest ih => exact (asks_readdirOne h server disam err).bind fun _ => ih _ _

theorem asks_checkExistance {path : CString} (h : P (.access path F_OK)) (servers : List Str) :
    (checkExistance path servers).Only (AgfsCall.Meets P) := by
  induction servers with
  | nil => trivial
  | cons server rest ih => exact ⟨h, fun _ => ih.bind fun _ => .ite trivial trivial⟩

theorem asks_openOn {file : Str} {flags : AgmaskT} (h : P (.open (cString file) flags)) (server : Str) :
    (openOn connections server file flags).Only (AgfsCall.Meets P) :=
  asks_usable fun _ => .ite ⟨h, fun _ => .ite trivial trivial⟩ trivial

theorem asks_openSole {file : Str} {flags : AgmaskT} (h : P (.open (cString file) flags)) (servers : List Str) :
    (openSole connections file flags servers).Only (AgfsCall.Meets P) := by
  unfold openSole
  split
  · exact asks_openOn h _
  · trivial

theorem FuseCall.only {c : FuseCall} (h : c.Asks P) : (c.code connections).Only (AgfsCall.Meets P) := by
  cases c with
  | getattr path =>
    change P _ at h
    rw [code, agfsGetattr]
    generalize Disambiguater.ambiguate path.1 = id at h ⊢
    obtain ⟨server, file⟩ := id
    exact asks_usable fun _ => .ite ⟨h, fun _ => trivial⟩ ((asks_getattrFirst h _ _).bind fun _ => trivial)
  | access path mask =>
    change P _ at h
    rw [code, agfsAccess]
    generalize Disambiguater.ambiguate path.1 = id at h ⊢
    obtain ⟨server, file⟩ := id
    refine .ite ?_ ((asks_accessFirst h _ _).bind fun _ => trivial)
    exact ⟨h, fun _ => trivial⟩
  | readdir path =>
    change P _ at h
    rw [code, agfsReaddir]
    generalize Disambiguater.ambiguate path.1 = id at h ⊢
    obtain ⟨server, file⟩ := id
    refine .ite ?_ ((asks_readdirAll h _ _ _).bind fun _ => trivial)
    exact (asks_readdirOne h _ _ _).bind fun _ => trivial
  | «open» path flags =>
    obtain ⟨haccess, h⟩ := h
    rw [code, agfsOpen]
    generalize Disambiguater.ambiguate path.1 = id at h ⊢
    obtain ⟨server, file⟩ := id
    exact .ite ((asks_checkExistance haccess _).bind fun _ => asks_openSole h _) (asks_openOn h _)
  | read fileHandle size offset =>
    change P _ at h
    rw [code, agfsRead]
    refine asks_usable fun _ => .ite ?_ ?_
    · exact ⟨h, fun _ => .ite trivial trivial⟩
    · refine .bind ?_ fun _ => .ite ?_ ?_
      all_goals trivial
  | write fileHandle buf offset =>
    change P _ at h
    rw [code, agfsWrite]
    refine asks_usable fun _ => .ite ?_ ?_
    · exact ⟨h, fun _ => .ite trivial trivial⟩
    · refine .bind ?_ fun _ => .ite ?_ ?_
      all_goals trivial

end Asks
end AgFS
