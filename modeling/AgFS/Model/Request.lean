import AgFS.Model.ClientConnection

/-! The operations a client can be asked for, one after the other. -/
namespace AgFS
open Interaction ByteOrder

/-- The operations of a `ServerConnection`, with their arguments. -/
inductive Request where
  | heartbeat
  | getattr (path : CString)
  | access (path : CString) (mask : AgmaskT)
  | readdir (path : CString)
  | readFile (path : CString) (size offset : AgsizeT)
  | writeFile (path : CString) (offset : AgsizeT) (buf : Buffer)
  | «open» (path : CString) (flags : AgmaskT)

namespace Request

abbrev Result : Request → Type
  | heartbeat => AgerrT
  | getattr _ => Stat × AgerrT
  | access _ _ => AgerrT
  | readdir _ => List (Str × Stat) × AgerrT
  | readFile _ _ _ => Bytes × AgerrT
  | writeFile _ _ _ => AgsizeT × AgerrT
  | «open» _ _ => AgerrT

def perform (host : Endian) : (r : Request) → ClientIo r.Result
  | heartbeat => ServerConnection.heartbeat host
  | getattr path => ServerConnection.getattr host path
  | access path mask => ServerConnection.access host path mask
  | readdir path => ServerConnection.readdir host path
  | readFile path size offset => ServerConnection.readFile host path size offset
  | writeFile path offset buf => ServerConnection.writeFile host path offset buf
  | «open» path flags => ServerConnection.open host path flags

end Request

/-- An operation that has been performed, with what it returned. -/
structure Outcome where
  request : Request
  result : request.Result

/-- A client that has operations to perform and outcomes to show. -/
structure Session where
  todo : List Request
  done : List Outcome

def Session.record (todo : List Request) (done : List Outcome) (r : Request) (result : r.Result) :
    ClientIo (Session ⊕ List Outcome) :=
  return .inl ⟨todo, done ++ [⟨r, result⟩]⟩

/-- The client performs its operations one after the other, in the order in which they
acquired the monitor. -/
def Session.body (host : Endian) : Session → ClientIo (Session ⊕ List Outcome)
  | ⟨[], done⟩ => return .inr done
  | ⟨r :: todo, done⟩ => r.perform host >>= Session.record todo done r

end AgFS
