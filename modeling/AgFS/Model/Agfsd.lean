import AgFS.Model.ClientConnection

/-! `agfsd.cpp`: the daemon, which listens on a port and forks a child for every client. -/
namespace AgFS
open Interaction ByteOrder

/-- Calls of the daemon: those of `openPort` and `main`, and what the code calls that serves a client. -/
inductive DaemonCall where
  | setuid (uid : UInt32)
  | getaddrinfo (port : Str)
  | socket
  | setsockopt (fd : Fd)
  | bind (fd : Fd)
  | listen (fd : Fd)
  | accept (fd : Fd)
  | fork
  | close (fd : Fd)
  | serve (c : SockCall Kind ServerSys)

/-- `getaddrinfo` tells whether it has found something. What `fork` returns is 0 in the child. -/
abbrev DaemonSys : Signature where
  Call := DaemonCall
  Reply
    | .setuid _ => Except Errno Unit
    | .getaddrinfo _ => Bool
    | .socket => Except Errno Nat
    | .setsockopt _ => Except Errno Unit
    | .bind _ => Except Errno Unit
    | .listen _ => Except Errno Unit
    | .accept _ => Except Errno Nat
    | .fork => Except Errno Nat
    | .close _ => Unit
    | .serve c => (Sock Kind ServerSys).Reply c

abbrev DaemonIo := Prog DaemonSys

abbrev DaemonIo.call (c : DaemonCall) : DaemonIo (DaemonSys.Reply c) :=
  Prog.call (S := DaemonSys) c .ret

/-- The descriptor to listen on, or a negative number. -/
def openPort (port : Str) : DaemonIo Fd := do
  if !(← DaemonIo.call (.getaddrinfo port)) then return -2
  match ← DaemonIo.call .socket with
  | .error _ => return -1
  | .ok listenfd =>
    match ← DaemonIo.call (.setsockopt listenfd) with
    | .error _ => return -1
    | .ok _ =>
      match ← DaemonIo.call (.bind listenfd) with
      | .error _ => return -1
      | .ok _ =>
        match ← DaemonIo.call (.listen listenfd) with
        | .error _ => return -1
        | .ok _ => return listenfd

/-- Where a process of the daemon stands: at the head of the loop of `main`, or in the part of it that only
a child runs. -/
inductive Daemon where
  | listening (lfd : Fd)
  | child (c : Child)

namespace Daemon

/-- `main` up to its loop. It ends with an exit code. -/
def main : List Str → DaemonIo (Daemon ⊕ Int32)
  | [_, port] => do
    match ← DaemonIo.call (.setuid 0) with
    | .error _ => return .inr 1
    | .ok _ =>
      let lfd ← openPort port
      if lfd < 0 then return .inr 1 else return .inl (.listening lfd)
  | _ => return .inr 0

/-- The code of `agfs-server.cpp`, run by a child. -/
def serve {α : Type} : ServerIo α → DaemonIo α := Prog.handle fun c => DaemonIo.call (.serve c)

/-- What is left of a pass once a client has been accepted. -/
def dispatch (lfd connfd : Fd) : DaemonIo (Daemon ⊕ Int32) := do
  match ← DaemonIo.call .fork with
  | .error _ =>
    DaemonIo.call (.close connfd)
    return .inl (.listening lfd)
  | .ok 0 =>
    DaemonIo.call (.close lfd)
    return .inl (.child (.fresh connfd))
  | .ok (_ + 1) =>
    DaemonIo.call (.close connfd)
    return .inl (.listening lfd)

/-- A pass of the loop of `main`, or of what a child runs in its place. The child leaves the loop, and `main`
returns 0. -/
def body (host : Endian) : Daemon → DaemonIo (Daemon ⊕ Int32)
  | .listening lfd => do
    match ← DaemonIo.call (.accept lfd) with
    | .error _ => return .inl (.listening lfd)
    | .ok connfd => dispatch lfd connfd
  | .child c => do return (← serve (Child.body host c)).map .child fun _ => 0

end Daemon
end AgFS
