import AgFS.Interaction.Talk
import AgFS.Codec.Items
import AgFS.Model.Request

/-! What a client asks for, seen as a call on the server's own machine: the system calls a
request stands for and the outcome that belongs to their answers. -/
namespace AgFS
open Interaction

def ask (c : ServerCall) : Prog ServerSys (ServerSys.Reply c) := .call (S := ServerSys) c .ret

theorem run_ask {ν τ α : Type} {e : Env Kind ServerSys ν τ} {c : ServerCall} {s s' : τ}
    {r : ServerSys.Reply c} (hc : e.sys s c = (s', r)) {f : ServerSys.Reply c → Prog ServerSys α} :
    e.run (ask c >>= f) s = e.run (f r) s' := by
  change e.run (f (e.sys s c).2) (e.sys s c).1 = _
  rw [hc]

namespace Request

/-- Bytes of a file until `left` are there, the file ends or a read fails. -/
def fetch (fd : Fd) : Nat → Nat → Bytes → Prog ServerSys (Bytes × AgerrT)
  | 0, _, buf => return (buf, 0)
  | fuel + 1, left, buf => do
    if left = 0 then return (buf, 0)
    match ← ask (.read fd left) with
    | .fail _ => return (buf, -1)
    | .got bs _ =>
      if bs = [] then return (buf, 0)
      fetch fd fuel (left - bs.length) (buf ++ bs)

/-- The entries of a directory with what `lstat` says about them. -/
def examine (file : Str) : List FileName → Prog ServerSys (List (Str × Stat))
  | [] => return []
  | entry :: rest => do
    let stbuf :=
      match ← ask (.lstat (cstr (pathAppend file entry.name))) with
      | .error _ => Stat.zero
      | .ok stbuf => stbuf.transmitted
    let files ← examine file rest
    return (entry.name, stbuf) :: files

def orElse {α : Type} (a : α) : Except Errno α → α
  | .error _ => a
  | .ok a => a

def put (fd : Fd) (buf : Buffer) : Prog ServerSys (AgsizeT × AgerrT) := do
  match ← ask (.write fd buf.bytes) with
  | .fail err => return (buf.size, err.neg)
  | .wrote count _ =>
    ask (.close fd)
    return (UInt64.ofNat count, Int64.ofNat count)

/-- A buffer stored in a file. An empty one takes no write. -/
def store (fd : Fd) (buf : Buffer) : Prog ServerSys (AgsizeT × AgerrT) :=
  if buf.bytes = [] then do
    ask (.close fd)
    return (0, 0)
  else put fd buf

/-- The request carried out where the files are. -/
def remote (self : ClientConnection) : (r : Request) → Prog ServerSys r.Result
  | heartbeat => return 0
  | getattr path => do
    match ← ask (.lstat (cstr (self.file path.1))) with
    | .error err => return (Stat.zero, err.neg)
    | .ok st => return (st.transmitted, 0)
  | access path mask => do
    match ← ask (.access (cstr (self.file path.1)) mask) with
    | .error _ => return -1
    | .ok _ => return 0
  | readdir path => do
    let file := self.file path.1
    let found := orElse false (← ask (.fileExists (cstr file)))
    let directory := orElse false (← ask (.isDirectory (cstr file)))
    if !directory then return ([], Errno.ENOTDIR.neg)
    if !found then return ([], Errno.ENOENT.neg)
    let _ ← ask (.entries (cstr file))
    let listed := orElse .empty (← ask (.entries (cstr file)))
    return (← examine file listed.1, 0)
  | readFile path size offset => do
    match ← ask (.open (cstr (self.file path.1)) O_RDONLY) with
    | .error err => return ([], err.neg)
    | .ok fd =>
      let _ ← ask (.lseek fd offset)
      let (buf, error) ← fetch fd size.toNat size.toNat []
      if error < 0 then return ([], error)
      return (buf, Int64.ofNat buf.length)
  | writeFile path offset buf => do
    match ← ask (.open (cstr (self.file path.1)) O_WRONLY) with
    | .error err => return (0, err.neg)
    | .ok fd =>
      let _ ← ask (.lseek fd offset)
      store fd buf
  | «open» path flags => do
    match ← ask (.open (cstr (self.file path.1)) flags) with
    | .error err =>
      ask (.close (-1))
      return err.neg
    | .ok fd =>
      ask (.close fd)
      return 0

/-- One request after the other, carried out where the files are. -/
def remoteAll (self : ClientConnection) : List Request → Prog ServerSys (List Outcome)
  | [] => return []
  | r :: todo => do
    let result ← r.remote self
    let outcomes ← remoteAll self todo
    return ⟨r, result⟩ :: outcomes

/-- The path is so short that its length with its size field fits an `int`. -/
def Valid : Request → Prop
  | heartbeat => True
  | getattr path | access path _ | readdir path | readFile path _ _ | writeFile path _ _
  | «open» path _ => Short path.1

/-- The path fits into memory. -/
def Held : Request → Prop
  | heartbeat => True
  | getattr path | access path _ | readdir path | readFile path _ _ | writeFile path _ _
  | «open» path _ => Addressable path.1

theorem Valid.held {r : Request} (h : r.Valid) : r.Held := by
  cases r with
  | heartbeat => trivial
  | _ => exact Short.addressable h

/-- A read asks for no more than a vector can hold. -/
def Fits : Request → Prop
  | readFile _ size _ => size.toNat < 2 ^ 63
  | _ => True

end Request

/-- A system on which, as far as a READDIR of the kind `P` asks for a directory under the mount point,
`boost::filesystem` throws nothing and a directory stays the same from one walk to the next, and on which a write
of something never writes nothing. -/
structure Steady {τ : Type} (sys : τ → (c : ServerCall) → τ × ServerSys.Reply c) (mountPoint : Str)
    (P : Request → Prop) : Prop where
  fileExists {path : CString} (h : P (.readdir path)) (s : τ) :
    ∃ b, (sys s (.fileExists (cstr (pathAppend mountPoint path.1)))).2 = .ok b
  isDirectory {path : CString} (h : P (.readdir path)) (s : τ) :
    ∃ b, (sys s (.isDirectory (cstr (pathAppend mountPoint path.1)))).2 = .ok b
  entries {path : CString} (h : P (.readdir path)) {s t : τ}
    (directory : sys s (.isDirectory (cstr (pathAppend mountPoint path.1))) = (t, .ok true)) :
    ∃ l t', sys t (.entries (cstr (pathAppend mountPoint path.1))) = (t', .ok l) ∧
      (sys t' (.entries (cstr (pathAppend mountPoint path.1)))).2 = .ok l
  write (s : τ) (fd : Fd) {bs : Bytes} (h : bs ≠ []) :
    ∀ c hc, (sys s (.write fd bs)).2 = .wrote c hc → 0 < c

theorem Steady.mono {τ : Type} {sys : τ → (c : ServerCall) → τ × ServerSys.Reply c} {mountPoint : Str}
    {P Q : Request → Prop} (h : Steady sys mountPoint P) (himp : ∀ r, Q r → P r) : Steady sys mountPoint Q where
  fileExists hq := h.fileExists (himp _ hq)
  isDirectory hq := h.isDirectory (himp _ hq)
  entries hq := h.entries (himp _ hq)
  write := h.write

end AgFS
