import AgFS.Concurrency.Acceptance
import AgFS.Concurrency.Serialized
import AgFS.Files.Store

/-! The threads of a client and the server on one connection: what every thread gets is what comes of all
their operations in one order. -/
namespace AgFS
open Interaction ByteOrder Sock Threads

/-- What the threads of a client, whose requests meet `P`, and a server have done on one connection while it lasted,
from where `main` has left the object. The streams deliver in order. -/
structure Concourse {τ : Type} (host host' : Endian) (link : ServerConnection) (P : Request → Prop) (s : Object)
    (sys : τ → (c : ServerCall) → τ × ServerSys.Reply c) (conn : ClientConnection) (u : τ) where
  started : s.Started link
  log : List (Thread × ClientEvent)
  passes : List Pass
  made : ∃ reached, (link.sharing host P).Logs Object.Lasts (.idle s) log reached
  served : Served host' sys conn u passes
  up : unmark (heardBy passes) <+: unmark (said (log.map Prod.snd))
  down : unmark (heard (log.map Prod.snd)) <+: unmark (answeredBy passes)

structure Concourse.Unbroken {τ : Type} {host host' : Endian} {link : ServerConnection} {P : Request → Prop}
    {s : Object} {sys : τ → (c : ServerCall) → τ × ServerSys.Reply c} {conn : ClientConnection} {u : τ}
    (x : Concourse host host' link P s sys conn u) : Prop where
  client : ∀ e ∈ x.log, Flows (fun m => m = Kind.data → True) (fun m => m = Kind.data → False) e.2
  server : ∀ u ∈ x.passes, u.Missed ∨
    ∀ ev ∈ u.calls, Flows (fun m => m = Kind.data → False) (fun m => m = Kind.data → True) ev
  stores : ∀ u ∈ x.passes, StoresAll u.calls

section Concourse
variable {τ : Type} {host host' : Endian} {link : ServerConnection} {P : Request → Prop} {s : Object}
  {sys : τ → (c : ServerCall) → τ × ServerSys.Reply c} {conn : ClientConnection} {u : τ}

/-- What the threads do is what one thread could do that performs their operations one after the other. -/
theorem Concourse.exchange (x : Concourse host host' link P s sys conn u) (hbeat : P .heartbeat) :
    ∃ tasks, Weaves (Request.performing host P) Tests x.log tasks ∧
      ∃ y : Exchange host host' s.socket_ sys conn u, y.errands = tasks.map (fun t => .ofTask t.2) ∧
        (∀ o ∈ y.errands, P o.request) ∧ (x.Unbroken → y.Unbroken) := by
  obtain ⟨reached, hmade⟩ := x.made
  obtain ⟨tasks, hweaves, -⟩ := hmade.weaves (object_monitor _) (sectioned hbeat) x.started.free
  have hlog := (hmade.keeps (I := fun t => t.socket_ = s.socket_)
    (P := fun _ ev => Attends ev.call ∨ ev.call = acquiring ∨ ev.call = givingBack →
      Answered ClientSys.object s.socket_ [ev] s.socket_) lasts_step rfl).2
  obtain ⟨hsaid, hheard⟩ := weaves_bytes hweaves
  have hperformed : Performed host s.socket_ (tasks.map fun t => .ofTask t.2) := by
    refine .of_forall ?_ ?_
    · rw [← List.map_dropLast]
      exact List.forall_mem_map.mpr hweaves.done
    · refine List.forall_mem_map.mpr fun t ht => ⟨t.2.runs, answered_all fun ev hev => ?_⟩
      exact hlog (t.1, ev) (hweaves.mem ht hev) (t.2.op.1.only.runs t.2.runs ev hev)
  refine ⟨tasks, hweaves, ⟨_, x.passes, hperformed, x.served, hsaid ▸ x.up, hheard ▸ x.down⟩, rfl,
    List.forall_mem_map.mpr fun t _ => t.2.op.2, fun h => ?_⟩
  refine ⟨List.forall_mem_map.mpr fun t ht ev hev => ?_, h.server, h.stores⟩
  exact h.client (t.1, ev) (hweaves.mem ht hev)

/-- As long as a connection lasts and its transfers are unbroken, the operations of all threads have returned
what comes of their requests on the server's machine in one order, in which the calls of every thread are its
operations and its tests. -/
theorem threads_serial {x : Concourse host host' link P s sys conn u} (hbeat : P .heartbeat)
    (hheld : ∀ r, P r → r.Held) (hsteady : Steady sys conn.mountPoint_ P) (hconn : 0 ≤ conn.socket_) (h : x.Unbroken) :
    ∃ tasks : List (Thread × Task (Request.performing host P)), Weaves (Request.performing host P) Tests x.log tasks ∧
      (∀ i, Weaves (Request.performing host P) Tests (x.log.filter fun e => e.1 = i) (tasks.filter fun t => t.1 = i)) ∧
      (remoteService sys conn).Serial u (tasks.map fun t => (Errand.ofTask t.2).asked) := by
  obtain ⟨tasks, hweaves, y, hy, hmeets, hunbroken⟩ := x.exchange hbeat
  have hserial := ((hunbroken h).inStep_of_meets hsteady x.started.nonneg hconn hheld hmeets).serial (fun _ => rfl)
    fun _ _ _ => y.performed.done
  rw [hy, List.map_map] at hserial
  exact ⟨tasks, hweaves, hweaves.thread, hserial⟩

/-- With a disk on the server's machine, all threads see one store of files. -/
theorem threads_fileStore {ι : Type} {disk : Disk sys ι} {names : Str → Option ι}
    {x : Concourse host host' link P s sys conn u} (hbeat : P .heartbeat) (hheld : ∀ r, P r → r.Held ∧ r.Gentle)
    (hsteady : Steady sys conn.mountPoint_ P) (hstable : disk.Stable names) (htakes : disk.TakesAll)
    (hdelivers : disk.Delivers) (hconn : 0 ≤ conn.socket_) (h : x.Unbroken) :
    ∃ tasks : List (Thread × Task (Request.performing host P)), Weaves (Request.performing host P) Tests x.log tasks ∧
      (∀ i, Weaves (Request.performing host P) Tests (x.log.filter fun e => e.1 = i) (tasks.filter fun t => t.1 = i)) ∧
      (fileStore fun path => names (cstr (conn.file path.1))).Serial (disk.contents u)
        (tasks.map fun t => (Errand.ofTask t.2).asked) := by
  obtain ⟨tasks, hweaves, y, hy, hmeets, hunbroken⟩ := x.exchange hbeat
  have hstore := ((hunbroken h).inStep_of_meets hsteady x.started.nonneg hconn
    (fun r hr => (hheld r hr).1) hmeets).fileStore
    (fun _ _ _ => y.performed.done) hstable htakes hdelivers fun o ho => (hheld _ (hmeets o ho)).2
  rw [hy, List.map_map] at hstore
  exact ⟨tasks, hweaves, hweaves.thread, hstore⟩

end Concourse

def callsOf (i : Thread) (t : List ClientEvent) : List (Thread × ClientEvent) := t.map fun ev => (i, ev)

section Logs
variable {host : Endian} {link : ServerConnection} {P : Request → Prop} {C : Object → Thread → ClientEvent → Prop}
  {s t : Threads.State (Sock Kind ClientSys) Thread Object} {log : List (Thread × ClientEvent)} {i : Thread}
  {p q : ClientIo Bool} {events : List ClientEvent}

private theorem ServerConnection.logs_plays (h : (link.sharing host P).Logs C s log t) (hidle : t.running i = .ret true)
    (hbegins : link.Begins host P i p) (hruns : Runs p events q) (hplays : t.shared.Plays C i events) :
    (link.sharing host P).Logs C s (log ++ callsOf i events)
      ⟨t.shared.play i events, Function.update t.running i q⟩ :=
  h.plays hidle hbegins hruns hplays.acts

private theorem ServerConnection.logs_resumes (h : (link.sharing host P).Logs C s log t) (hp : t.running i = p)
    (hruns : Runs p events q) (hplays : t.shared.Plays C i events) :
    (link.sharing host P).Logs C s (log ++ callsOf i events)
      ⟨t.shared.play i events, Function.update t.running i q⟩ :=
  h.acts hp hruns hplays.acts

end Logs

/-- Calls of threads that take turns can be answered like this, and satisfy `C`. -/
def Object.PlaysAll (C : Object → Thread → ClientEvent → Prop) (s : Object) : List (Thread × List ClientEvent) → Prop
  | [] => True
  | (i, events) :: turns => s.Plays C i events ∧ (s.play i events).PlaysAll C turns

/-- What a callback that uses one server does with the connection to it. -/
theorem Seen.through {host : Endian} {server : Str} {α : Type} {callback : AgfsIo α}
    (h : callback.Only fun c : AgfsCall => c.server = server) : Seen host server callback (through host callback) := by
  induction callback with
  | ret a => exact .ret a
  | call c k ih => exact .here h.1 fun r => ih r (h.2 r)

def Request.Mild (r : Request) : Prop := r.Held ∧ r.Gentle

theorem writeFile_mild {offset : AgsizeT} (h : offset.toNat < 2 ^ 63) (buf : Buffer) :
    (Request.writeFile (cString storedFile.1) offset buf).Mild := ⟨storedFile_addressable, h⟩

theorem readFile_mild (size : AgsizeT) {offset : AgsizeT} (h : offset.toNat < 2 ^ 63) :
    (Request.readFile (cString storedFile.1) size offset).Mild := ⟨storedFile_addressable, h⟩

/-- Reads and writes use the server of their handle only. -/
theorem only_agfsRead (connections : Connections) (fileHandle : FileHandle) (size : AgsizeT) (offset : Int64) :
    (agfsRead connections fileHandle size offset).Only fun c : AgfsCall => c.server = fileHandle.server := by
  have hrest (retVal : Bytes × AgerrT) : Prog.Only (fun c : AgfsCall => c.server = fileHandle.server)
      (if 0 ≤ retVal.2 then return (retVal.1, (UInt64.ofNat retVal.1.length).toInt64.toInt32)
        else return ([], retVal.2.toInt32) : AgfsIo (Bytes × Int32)) := .ite trivial trivial
  rw [agfsRead, usable]
  split
  · exact ⟨rfl, fun _ => .ite ⟨rfl, hrest⟩ (hrest ([], Errno.ENOENT.neg))⟩
  · exact hrest ([], Errno.ENOENT.neg)

theorem only_agfsWrite (connections : Connections) (fileHandle : FileHandle) (buf : Buffer) (offset : Int64) :
    (agfsWrite connections fileHandle buf offset).Only fun c : AgfsCall => c.server = fileHandle.server := by
  have hrest (retVal : AgsizeT × AgerrT) : Prog.Only (fun c : AgfsCall => c.server = fileHandle.server)
      (if 0 ≤ retVal.2 then return retVal.1.toInt64.toInt32 else return retVal.2.toInt32 : AgfsIo Int32) :=
    .ite trivial trivial
  rw [agfsWrite, usable]
  split
  · exact ⟨rfl, fun _ => .ite ⟨rfl, hrest⟩ (hrest (0, Errno.ENOENT.neg))⟩
  · exact hrest (0, Errno.ENOENT.neg)

abbrev fileOnA : FileHandle := ⟨[0x61], storedFile.1⟩

def writeOnA (connections : Connections) : AgfsIo Int32 := agfsWrite connections fileOnA threeBytes (Int64.ofNat 0)

def readOnA (connections : Connections) : AgfsIo (Bytes × Int32) := agfsRead connections fileOnA 2 (Int64.ofNat 1)

def looked : List ClientEvent := [⟨.sys .getSocket, (3 : Fd)⟩]

def beatBegun : List ClientEvent := ⟨.sys .getClosed, false⟩ :: looked

def writeEnded : List ClientEvent := writeAnswered ++ [⟨.sys .unlock, ()⟩]

section Callbacks
variable {connections : Connections}

private theorem writeOnA_begins : serverA.Begins .big Request.Mild (.callback 0)
    (through .big (writeOnA connections) >>= fun _ => return true) := by
  refine ⟨_, writeOnA connections, _, ?_, .through (only_agfsWrite connections fileOnA _ _), rfl⟩
  exact FuseCall.only (c := .write fileOnA threeBytes (Int64.ofNat 0)) (writeFile_mild (by decide) _)

private theorem readOnA_begins : serverA.Begins .big Request.Mild (.callback 1)
    (through .big (readOnA connections) >>= fun _ => return true) := by
  refine ⟨_, readOnA connections, _, ?_, .through (only_agfsRead connections fileOnA _ _), rfl⟩
  exact FuseCall.only (c := .read fileOnA 2 (Int64.ofNat 1)) (readFile_mild _ (by decide))

variable (hs : [0x61] ∈ connections)
include hs

theorem writeOnA_runs : Runs (through .big (writeOnA connections) >>= fun _ => return true)
    (looked ++ writeSent ++ writeEnded) (.ret true) := by
  rw [writeOnA, agfsWrite, usable, if_pos hs]
  repeat apply Runs.step
  exact .refl _

theorem readOnA_runs : Runs (through .big (readOnA connections) >>= fun _ => return true)
    (looked ++ reading.calls) (.ret true) := by
  rw [readOnA, agfsRead, usable, if_pos hs]
  repeat apply Runs.step
  exact .refl _

end Callbacks

theorem beat_runs : Runs (heartbeatThread .big serverA) (beatBegun ++ beatCalls) (.ret true) := by
  repeat apply Runs.step
  exact .refl _

/-- One thread writes and another one reads. The reader has tested the connection before the writer begins, and
`heartbeatThread` does in the middle of the write. -/
def sharedTurns : List (Thread × List ClientEvent) :=
  [(.callback 1, looked), (.callback 0, looked ++ writeSent), (.heartbeat, beatBegun), (.callback 0, writeEnded),
    (.heartbeat, beatCalls), (.callback 1, reading.calls)]

theorem sharedTurns_plays : loadedA.PlaysAll Object.Lasts sharedTurns := by
  simp [sharedTurns, looked, writeSent, beatBegun, writeEnded, writeAnswered, beatCalls, reading, Object.PlaysAll,
    Object.play, Object.Plays, Object.Possible, Object.Lasts, Object.after, loadedA, Object.note, Object.put,
      Object.heard]

private theorem sharedTurns_logs : ∃ reached, (serverA.sharing .big Request.Mild).Logs Object.Lasts (.idle loadedA)
    (sharedTurns.flatMap fun turn => callsOf turn.1 turn.2) reached := by
  have hs : [0x61] ∈ onlyServerA := Std.TreeMap.mem_insert_self
  obtain ⟨p, hread₁, hread₂⟩ := (readOnA_runs hs).split
  obtain ⟨q, hwrite₁, hwrite₂⟩ := (writeOnA_runs hs).split
  obtain ⟨r, hbeat₁, hbeat₂⟩ := beat_runs.split
  obtain ⟨hplays₁, hplays₂, hplays₃, hplays₄, hplays₅, hplays₆, -⟩ := sharedTurns_plays
  have h₀ : (serverA.sharing .big Request.Mild).Logs Object.Lasts (.idle loadedA) [] (.idle loadedA) := .nil
  have h₁ := ServerConnection.logs_plays h₀ rfl readOnA_begins hread₁ hplays₁
  have h₂ := ServerConnection.logs_plays h₁ (i := .callback 0) rfl writeOnA_begins hwrite₁ hplays₂
  have h₃ := ServerConnection.logs_plays h₂ (i := .heartbeat) rfl rfl hbeat₁ hplays₃
  have h₄ := ServerConnection.logs_resumes h₃ (i := .callback 0) (p := q) rfl hwrite₂ hplays₄
  have h₅ := ServerConnection.logs_resumes h₄ (i := .heartbeat) (p := r) rfl hbeat₂ hplays₅
  exact ⟨_, ServerConnection.logs_resumes h₅ (i := .callback 1) (p := p) rfl hread₂ hplays₆⟩

/-- Two callbacks and `heartbeatThread` share the connection. -/
def sharedByThree : Concourse .big .little serverA Request.Mild loadedA filed rootServer ([], 0) where
  started := loadedA_started
  log := sharedTurns.flatMap fun turn => callsOf turn.1 turn.2
  passes := [writingPass writeStored, beatingPass, readingPass]
  made := sharedTurns_logs
  served := served_writeBeatRead
  up := by decide
  down := by decide

theorem sharedByThree_unbroken : sharedByThree.Unbroken where
  client := by
    simp [sharedByThree, sharedTurns, callsOf, looked, writeSent, beatBegun, writeEnded, writeAnswered, beatCalls,
      reading]
    decide
  server := List.forall_mem_cons.mpr ⟨.inr writingPass_flows, List.forall_mem_cons.mpr ⟨.inr beatingPass_flows,
    List.forall_mem_singleton.mpr (.inr readingPass_flows)⟩⟩
  stores := List.forall_mem_cons.mpr ⟨.of_stored (by decide), List.forall_mem_cons.mpr ⟨.of_stored (by decide),
    List.forall_mem_singleton.mpr (.of_stored (by decide))⟩⟩

theorem threads_serial_sharedByThree :
    ∃ tasks : List (Thread × Task (Request.performing .big Request.Mild)),
      Weaves (Request.performing .big Request.Mild) Tests sharedByThree.log tasks ∧
      (∀ i, Weaves (Request.performing .big Request.Mild) Tests (sharedByThree.log.filter fun e => e.1 = i)
        (tasks.filter fun t => t.1 = i)) ∧
      (remoteService filed rootServer).Serial ([], 0) (tasks.map fun t => (Errand.ofTask t.2).asked) :=
  threads_serial ⟨trivial, trivial⟩ (fun _ h => h.1) filed_steady (by decide) sharedByThree_unbroken

theorem threads_fileStore_sharedByThree :
    ∃ tasks : List (Thread × Task (Request.performing .big Request.Mild)),
      Weaves (Request.performing .big Request.Mild) Tests sharedByThree.log tasks ∧
      (∀ i, Weaves (Request.performing .big Request.Mild) Tests (sharedByThree.log.filter fun e => e.1 = i)
        (tasks.filter fun t => t.1 = i)) ∧
      (fileStore fun _ => some ()).Serial (filed_disk.contents ([], 0))
        (tasks.map fun t => (Errand.ofTask t.2).asked) :=
  threads_fileStore ⟨trivial, trivial⟩ (fun _ h => h) filed_steady filed_stable filed_takesAll filed_delivers
    (by decide) sharedByThree_unbroken

end AgFS
