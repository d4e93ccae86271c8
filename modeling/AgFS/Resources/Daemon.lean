import AgFS.Interaction.Forks
import AgFS.Model.Agfsd
import AgFS.Resources.Holding

/-! The processes of the daemon, their descriptors and the connections these refer to. -/
namespace AgFS
open Interaction ByteOrder Sock

/-- What a descriptor refers to. Connections are numbered in the order in which they were accepted. -/
inductive Thing where
  | inherited
  | listener
  | connection (number : Nat)
  | file

abbrev Table := Nat → Option Thing

namespace Table

def close (d : Table) : Fd → Table
  | .ofNat fd => Function.update d fd none
  | .negSucc _ => d

/-- What was open before the daemon began, and files. -/
def holding (inherited files : Finset Nat) : Table := fun fd =>
  if fd ∈ files then some .file else if fd ∈ inherited then some .inherited else none

def waiting (inherited : Finset Nat) (lfd : Nat) : Table :=
  Function.update (holding inherited ∅) lfd (some .listener)

def passing (inherited : Finset Nat) (lfd fd number : Nat) : Table :=
  Function.update (waiting inherited lfd) fd (some (.connection number))

def serving (inherited files : Finset Nat) (fd number : Nat) : Table :=
  Function.update (holding inherited files) fd (some (.connection number))

variable {inherited files : Finset Nat} {lfd fd new number : Nat}

theorem holding_none : holding inherited files fd = none ↔ fd ∉ files ∧ fd ∉ inherited := by
  rw [holding]
  split
  · simp [*]
  · simp [*]

private theorem holding_insert :
    Function.update (holding inherited files) fd (some .file) = holding inherited (insert fd files) := by
  funext n
  by_cases hn : n = fd
  · subst hn
    simp [holding]
  · simp [holding, hn]

private theorem holding_erase (h : fd ∉ inherited) :
    Function.update (holding inherited files) fd none = holding inherited (files.erase fd) := by
  funext n
  by_cases hn : n = fd
  · subst hn
    simp [holding, h]
  · simp [holding, hn]

private theorem close_update {d : Table} (h : d fd = none) (x : Option Thing) :
    close (Function.update d fd x) fd = d := by
  change Function.update (Function.update d fd x) fd none = d
  rw [Function.update_idem, ← h, Function.update_eq_self]

theorem waiting_none (h : waiting inherited lfd fd = none) : fd ∉ inherited ∧ fd ≠ lfd := by
  by_cases hfd : fd = lfd
  · subst hfd
    rw [waiting, Function.update_self] at h
    cases h
  · rw [waiting, Function.update_of_ne hfd] at h
    exact ⟨(holding_none.mp h).2, hfd⟩

theorem serving_none (h : serving inherited files fd number new = none) : new ∉ files ∧ new ∉ inherited ∧ new ≠ fd := by
  by_cases hnew : new = fd
  · subst hnew
    rw [serving, Function.update_self] at h
    cases h
  · rw [serving, Function.update_of_ne hnew] at h
    obtain ⟨hfiles, hinherited⟩ := holding_none.mp h
    exact ⟨hfiles, hinherited, hnew⟩

theorem close_passing (hclosed : fd ∉ inherited) (hother : fd ≠ lfd) :
    (passing inherited lfd fd number).close fd = waiting inherited lfd := by
  refine close_update ?_ _
  rw [waiting, Function.update_of_ne hother]
  exact holding_none.mpr ⟨Finset.notMem_empty fd, hclosed⟩

theorem close_listener (hfree : lfd ∉ inherited) (hother : fd ≠ lfd) :
    (passing inherited lfd fd number).close lfd = serving inherited ∅ fd number := by
  have hnone : Function.update (holding inherited ∅) lfd none = holding inherited ∅ :=
    Function.update_eq_self_iff.mpr (holding_none.mpr ⟨Finset.notMem_empty lfd, hfree⟩).symm
  change Function.update (passing inherited lfd fd number) lfd none = _
  rw [passing, waiting, Function.update_comm hother, Function.update_idem, hnone, serving]

theorem close_connection (hclosed : fd ∉ inherited) (hother : fd ∉ files) :
    (serving inherited files fd number).close fd = holding inherited files :=
  close_update (holding_none.mpr ⟨hother, hclosed⟩) _

theorem serving_insert (h : new ≠ fd) : Function.update (serving inherited files fd number) new (some .file) =
    serving inherited (insert new files) fd number := by
  rw [serving, Function.update_comm h.symm, holding_insert, serving]

theorem close_file (hnew : new ∉ inherited) (h : new ≠ fd) :
    (serving inherited files fd number).close new = serving inherited (files.erase new) fd number := by
  change Function.update (serving inherited files fd number) new none = _
  rw [serving, Function.update_comm h.symm, holding_erase hnew, serving]

end Table

/-- How many connections there have been, and which process has called `read` or `write` on which, in order. -/
structure Kernel where
  accepted : Nat
  transfers : List (Nat × Nat)

def Kernel.transfer (s : Kernel) (n : Nat) (d : Table) : Fd → Kernel
  | .ofNat fd =>
    match d fd with
    | some (.connection c) => { s with transfers := s.transfers ++ [(n, c)] }
    | _ => s
  | .negSucc _ => s

/-- What a call does, and what it can return: a new descriptor is one that was not in use. In the process that
calls it `fork` is here only where it fails. -/
inductive Kernel.Does (n : Nat) : Kernel → Table → (c : DaemonCall) → DaemonSys.Reply c → Kernel → Table → Prop
  | setuid {s d uid r} : Does n s d (.setuid uid) r s d
  | getaddrinfo {s d port r} : Does n s d (.getaddrinfo port) r s d
  | setsockopt {s d fd r} : Does n s d (.setsockopt fd) r s d
  | bind {s d fd r} : Does n s d (.bind fd) r s d
  | listen {s d fd r} : Does n s d (.listen fd) r s d
  | noSocket {s d err} : Does n s d .socket (.error err) s d
  | socket {s d fd} (free : d fd = none) : Does n s d .socket (.ok fd) s (Function.update d fd (some .listener))
  | noClient {s d lfd err} : Does n s d (.accept lfd) (.error err) s d
  | client {s d lfd fd} (free : d fd = none) : Does n s d (.accept lfd) (.ok fd) ⟨s.accepted + 1, s.transfers⟩
      (Function.update d fd (some (.connection s.accepted)))
  | noFork {s d err} : Does n s d .fork (.error err) s d
  | close {s d fd r} : Does n s d (.close fd) r s (d.close fd)
  | recv {s d m fd k r} : Does n s d (.serve (.recv m fd k)) r (s.transfer n d fd) d
  | send {s d m fd bs r} : Does n s d (.serve (.send m fd bs)) r (s.transfer n d fd) d
  | malloc {s d k r} : Does n s d (.serve (.malloc k)) r s d
  | scratch {s d k r} : Does n s d (.serve (.scratch k)) r s d
  | keeping {s d} {c : ServerCall} {r} (h : c.Keeping) : Does n s d (.serve (.sys c)) r s d
  | noFile {s d path flags err} : Does n s d (.serve (.sys (.open path flags))) (.error err) s d
  | file {s d path flags fd} (free : d fd = none) :
      Does n s d (.serve (.sys (.open path flags))) (.ok fd) s (Function.update d fd (some .file))
  | closeFile {s d fd r} : Does n s d (.serve (.sys (.close fd))) r s (d.close fd)

def agfsd (host : Endian) : Forks DaemonSys Daemon Int32 Kernel Table where
  body := Daemon.body host
  fork := .fork
  child := .ok 0
  Forked r := ∃ pid, r = .ok (pid + 1)
  Does := Kernel.Does

def agfsd.start (inherited : Finset Nat) (argv : List Str) : Forks.State DaemonSys Daemon Int32 Kernel Table :=
  .init ⟨0, []⟩ (.holding inherited ∅) (Daemon.main argv)

/-- Where a process stands: it listens on `lfd`, and in between holds a connection on `fd`, which it passes on to
a child. The child closes `lfd` and serves the connection. -/
inductive Station where
  | starting
  | listening (lfd : Nat)
  | holding (lfd fd : Nat)
  | dropping (lfd fd : Nat)
  | born (lfd fd : Nat)
  | serving (fd : Nat) (files : Finset Nat)
  | gone

/-- The stage of a child that holds files, or has closed its connection. -/
def Station.child (fd : Nat) : Option (Finset Nat) → Station
  | some files => .serving fd files
  | none => .gone

inductive Daemon.Acts : Moves DaemonSys Station
  | setuid {uid r} : Daemon.Acts .starting (.setuid uid) r .starting
  | getaddrinfo {port r} : Daemon.Acts .starting (.getaddrinfo port) r .starting
  | noSocket {err} : Daemon.Acts .starting .socket (.error err) .starting
  | socket {lfd} : Daemon.Acts .starting .socket (.ok lfd) (.listening lfd)
  | setsockopt {lfd : Nat} {r} : Daemon.Acts (.listening lfd) (.setsockopt lfd) r (.listening lfd)
  | bind {lfd : Nat} {r} : Daemon.Acts (.listening lfd) (.bind lfd) r (.listening lfd)
  | listen {lfd : Nat} {r} : Daemon.Acts (.listening lfd) (.listen lfd) r (.listening lfd)
  | noClient {lfd : Nat} {err} : Daemon.Acts (.listening lfd) (.accept lfd) (.error err) (.listening lfd)
  | client {lfd fd : Nat} : Daemon.Acts (.listening lfd) (.accept lfd) (.ok fd) (.holding lfd fd)
  | noFork {lfd fd err} : Daemon.Acts (.holding lfd fd) .fork (.error err) (.dropping lfd fd)
  | forked {lfd fd pid} : Daemon.Acts (.holding lfd fd) .fork (.ok (pid + 1)) (.dropping lfd fd)
  | born {lfd fd} : Daemon.Acts (.holding lfd fd) .fork (.ok 0) (.born lfd fd)
  | passed {lfd fd : Nat} {r} : Daemon.Acts (.dropping lfd fd) (.close fd) r (.listening lfd)
  | alone {lfd fd : Nat} {r} : Daemon.Acts (.born lfd fd) (.close lfd) r (.serving fd ∅)
  | serves {fd : Nat} {files c r y} (h : Child.Acts fd (some files) c r y) :
      Daemon.Acts (.serving fd files) (.serve c) r (.child fd y)

/-- Between two passes. -/
def Station.Rests (y : Station) : Daemon ⊕ Int32 → Prop
  | .inl (.listening lfd) => ∃ fd : Nat, lfd = fd ∧ y = .listening fd
  | .inl (.child c) => ∃ fd files, y = .serving fd files ∧ Child.HasConnection fd (some files) (.inl c)
  | .inr _ => True

section Programs
variable {host : Endian}

private theorem openPort_acts (port : Str) : (openPort port).Follows Daemon.Acts
    (fun y (lfd : Fd) => lfd < 0 ∨ ∃ fd : Nat, lfd = fd ∧ y = .listening fd) .starting := by
  intro found
  refine ⟨.starting, .getaddrinfo, ?_⟩
  cases found with
  | false => exact .inl (by decide)
  | true =>
    intro r
    cases r with
    | error err => exact ⟨_, .noSocket, .inl (by decide)⟩
    | ok lfd =>
      refine ⟨.listening lfd, .socket, fun r => ⟨_, .setsockopt, ?_⟩⟩
      cases r with
      | error err => exact .inl (by decide)
      | ok r =>
        refine fun r => ⟨_, .bind, ?_⟩
        cases r with
        | error err => exact .inl (by decide)
        | ok r =>
          refine fun r => ⟨_, .listen, ?_⟩
          cases r with
          | error err => exact .inl (by decide)
          | ok r => exact .inr ⟨lfd, rfl, rfl⟩

theorem main_acts (argv : List Str) : (Daemon.main argv).Follows Daemon.Acts Station.Rests .starting := by
  match argv with
  | [_, port] =>
    refine fun r => ⟨.starting, .setuid, ?_⟩
    cases r with
    | error err => trivial
    | ok r =>
      refine (openPort_acts port).bind fun y lfd hlfd => .ite (fun _ => trivial) fun hneg => ?_
      exact hlfd.resolve_left hneg
  | [] => trivial
  | [_] => trivial
  | _ :: _ :: _ :: _ => trivial

private theorem dispatch_acts (lfd fd : Nat) :
    (Daemon.dispatch lfd fd).Follows Daemon.Acts Station.Rests (.holding lfd fd) := by
  intro r
  match r with
  | .error err => exact ⟨_, .noFork, fun _ => ⟨_, .passed, lfd, rfl, rfl⟩⟩
  | .ok 0 => exact ⟨_, .born, fun _ => ⟨_, .alone, fd, ∅, rfl, rfl, rfl⟩⟩
  | .ok (pid + 1) => exact ⟨_, .forked, fun _ => ⟨_, .passed, lfd, rfl, rfl⟩⟩

/-- The code that serves a client, run by a child. -/
theorem serve_acts {α : Type} {p : ServerIo α} {fd : Nat} {Q : Option (Finset Nat) → α → Prop} {y : Option (Finset Nat)}
    (h : p.Follows (Child.Acts fd) Q y) :
    (Daemon.serve p).Follows Daemon.Acts (fun y a => ∃ y', y = .child fd y' ∧ Q y' a) (.child fd y) := by
  induction p generalizing y with
  | ret a => exact ⟨y, rfl, h⟩
  | call c k ih =>
    intro r
    obtain ⟨y', hy', hk⟩ := h r
    cases y with
    | none => cases hy'
    | some files => exact ⟨_, .serves hy', ih r hk⟩

theorem body_acts {d : Daemon} {y : Station} (h : y.Rests (.inl d)) :
    (Daemon.body host d).Follows Daemon.Acts Station.Rests y := by
  cases d with
  | listening lfd =>
    obtain ⟨lfd, rfl, rfl⟩ := h
    intro r
    cases r with
    | error err => exact ⟨_, .noClient, lfd, rfl, rfl⟩
    | ok fd => exact ⟨_, .client, dispatch_acts lfd fd⟩
  | child c =>
    obtain ⟨fd, files, rfl, hc⟩ := h
    refine (serve_acts (Child.body_holds hc)).bind fun y x => ?_
    rintro ⟨y, rfl, hx⟩
    cases x with
    | inr self => trivial
    | inl c =>
      cases y with
      | none => cases c <;> cases hx.2
      | some files => exact ⟨fd, files, rfl, hx⟩

end Programs
end AgFS
