import AgFS.Model.Constants

/-! The system calls of the two programs, apart from socket transfers and memory. -/
namespace AgFS
open Interaction

/-- The fields of `struct passwd` the server uses. -/
structure Passwd where
  pwUid : UInt32
  pwGid : UInt32
  deriving DecidableEq

/-- Calls of the server. `entries` is one walk of a `directory_iterator`, `errno` reads
the variable after a call that has not just failed. Where the answer to a call of
`boost::filesystem` is an error, the call has thrown. -/
inductive ServerCall where
  | lstat (path : Str)
  | access (path : Str) (mode : UInt32)
  | fileExists (path : Str)
  | isDirectory (path : Str)
  | entries (path : Str)
  | «open» (path : Str) (flags : UInt32)
  | lseek (fd : Fd) (offset : UInt64)
  | read (fd : Fd) (n : Nat)
  | write (fd : Fd) (bs : Bytes)
  | close (fd : Fd)
  | errno
  | readAuthkeys
  | getpwnam (name : Str)
  | setuid (uid : UInt32)
  | setgid (gid : UInt32)

/-- The name of a directory entry, as an iterator yields it: never `.` or `..`. -/
structure FileName where
  name : Str
  nonempty : name ≠ []
  notDot : name ≠ [0x2E]
  notDotDot : name ≠ [0x2E, 0x2E]
  nulFree : NulFree name
  slashFree : 0x2F ∉ name
  short : name.length ≤ 255

/-- The entries one walk of a directory yields. -/
abbrev Listing := { names : List FileName // names.length < 2 ^ 64 }

def Listing.empty : Listing := ⟨[], by decide⟩

def Listing.one (entry : FileName) : Listing := ⟨[entry], show 1 < 2 ^ 64 by decide⟩

abbrev ServerSys : Signature where
  Call := ServerCall
  Reply
    | .lstat _ => Except Errno Stat
    | .access _ _ => Except Errno Unit
    | .fileExists _ => Except Errno Bool
    | .isDirectory _ => Except Errno Bool
    | .entries _ => Except Errno Listing
    | .open _ _ => Except Errno Nat
    | .lseek _ _ => Except Errno Unit
    | .read _ n => ReadReply n
    | .write _ bs => WriteReply bs.length
    | .close _ => Unit
    | .errno => Option Errno
    | .readAuthkeys => Option Bytes
    | .getpwnam _ => Option Passwd
    | .setuid _ => Except Errno Unit
    | .setgid _ => Except Errno Unit

/-- Answers of a system in which nothing exists and nothing can be done. -/
def ServerSys.silent : (c : ServerCall) → ServerSys.Reply c
  | .lstat _ => .error .ENOENT
  | .access _ _ => .error .ENOENT
  | .fileExists _ => .ok false
  | .isDirectory _ => .ok false
  | .entries _ => .error .ENOENT
  | .open _ _ => .error .ENOENT
  | .lseek _ _ => .error .EBADF
  | .read _ _ => .fail .EBADF
  | .write _ _ => .fail .EBADF
  | .close _ => ()
  | .errno => none
  | .readAuthkeys => none
  | .getpwnam _ => none
  | .setuid _ => .error .EACCES
  | .setgid _ => .error .EACCES

/-- Answers of a system in which every file opens and takes all that is written to it. -/
def ServerSys.roomy : (c : ServerCall) → ServerSys.Reply c
  | .entries _ => .ok .empty
  | .open _ _ => .ok 5
  | .lseek _ _ => .ok ()
  | .write _ bs => .all bs.length
  | c => silent c

/-- Calls of the client: the monitor, the fields of the connection object that change,
and what `dnsLookup` uses. -/
inductive ClientCall where
  | lock
  | unlock
  | getSocket
  | setSocket (fd : Fd)
  | getClosed
  | setClosed
  | close (fd : Fd)
  | getaddrinfo (hostname port : Str)
  | socket
  | connect (fd : Fd)

abbrev ClientSys : Signature where
  Call := ClientCall
  Reply
    | .lock => Unit
    | .unlock => Unit
    | .getSocket => Fd
    | .setSocket _ => Unit
    | .getClosed => Bool
    | .setClosed => Unit
    | .close _ => Except Errno Unit
    | .getaddrinfo _ _ => Bool
    | .socket => Except Errno Nat
    | .connect _ => Except Errno Unit

/-- A connection object nobody else uses, on a machine without a network. The state is
its field `socket_`. -/
def ClientSys.object : Fd → (c : ClientCall) → Fd × ClientSys.Reply c
  | fd, .lock => (fd, ())
  | fd, .unlock => (fd, ())
  | fd, .getSocket => (fd, fd)
  | _, .setSocket fd => (fd, ())
  | fd, .getClosed => (fd, false)
  | fd, .setClosed => (fd, ())
  | fd, .close _ => (fd, .ok ())
  | fd, .getaddrinfo _ _ => (fd, false)
  | fd, .socket => (fd, .error .EACCES)
  | fd, .connect _ => (fd, .error .EACCES)

/-- Programs that do socket input and output next to the calls of `L`. -/
abbrev Io (L : Signature) := Prog (Sock Kind L)

/-- `std::vector<unsigned char>::resize` on an empty vector: the size is checked, the
memory allocated and cleared. -/
def vectorResize {L : Signature} (n : Nat) : Io L Bytes := do
  if n = 0 then return []
  if 2 ^ 63 ≤ n then Sock.abort .exception
  match ← Sock.malloc n with
  | none => Sock.abort .exception
  | some _ => return List.replicate n 0

abbrev ServerIo := Io ServerSys

abbrev ServerIo.sys (c : ServerCall) : ServerIo (ServerSys.Reply c) := Sock.sys (L := ServerSys) c

abbrev ClientIo := Io ClientSys

abbrev ClientIo.sys (c : ClientCall) : ClientIo (ClientSys.Reply c) := Sock.sys (L := ClientSys) c

end AgFS
