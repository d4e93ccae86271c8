import AgFS.Codec.Calls
import AgFS.Codec.FreshMemory
import AgFS.Files.Storing
import AgFS.Session.Asking

/-! What the server says when the system call on which a request depends has failed. -/
namespace AgFS
open Interaction ByteOrder Sock

/-- The system calls of a trace of the server. -/
def systemCalls (t : List ServerEvent) : List (Event ServerSys) :=
  t.filterMap fun
    | ⟨.sys c, r⟩ => some ⟨c, r⟩
    | _ => none

def saidBytes (t : List ServerEvent) : Bytes :=
  t.flatMap fun
    | ⟨.send _ _ bs, _⟩ => bs
    | _ => []

def errorBytes (err : AgerrT) : Bytes := htobe64 err.toUInt64

def OpenFails (calls : List (Event ServerSys)) (e : Errno) : Prop :=
  ∃ path flags, ⟨.open path flags, .error e⟩ ∈ calls

/-- The call that decides about a request has failed, with this error. What decides about a
listing is whether the path exists, and then whether it is a directory. -/
def Request.Refused (calls : List (Event ServerSys)) (e : Errno) : Request → Prop
  | heartbeat => False
  | getattr _ => ∃ path, ⟨.lstat path, .error e⟩ ∈ calls
  | access _ _ => ∃ path mode, ⟨.access path mode, .error e⟩ ∈ calls
  | readdir _ => (∃ path, ⟨.fileExists path, .ok false⟩ ∈ calls) ∧ e = .ENOENT ∨
      (∃ path, ⟨.fileExists path, .ok true⟩ ∈ calls) ∧ (∃ path, ⟨.isDirectory path, .ok false⟩ ∈ calls) ∧
        e = .ENOTDIR
  | readFile _ _ _ => OpenFails calls e ∨ ∃ fd n, ⟨.read fd n, .fail e⟩ ∈ calls
  | writeFile _ _ _ => OpenFails calls e ∨ ∃ fd bs, ⟨.write fd bs, .fail e⟩ ∈ calls
  | «open» _ _ => OpenFails calls e

/-- When the server sends that error: `access` and a file read send -1 for any, and a path that
does not exist is none of a directory, unless it has come to be one meanwhile. -/
def Request.Tells (calls : List (Event ServerSys)) (e : Errno) : Request → Prop
  | access _ _ => e.code = 1
  | readdir _ => (∃ path, ⟨.fileExists path, .ok true⟩ ∈ calls) ∨ ∃ path, ⟨.isDirectory path, .ok true⟩ ∈ calls
  | readFile _ _ _ => OpenFails calls e ∨ e.code = 1
  | _ => True

/-- What has been said ends with an error, in a write after the news that the file is open. -/
def Request.Says (r : Request) (said : Bytes) (err : AgerrT) : Prop :=
  said = errorBytes err ∨ ∃ path offset buf, r = .writeFile path offset buf ∧ said = errorBytes 0 ++ errorBytes err

section Traces
variable {t u : List ServerEvent} {α β : Type} {Q : ServerCall → Prop}

private theorem systemCalls_append (t u : List ServerEvent) : systemCalls (t ++ u) = systemCalls t ++ systemCalls u :=
  List.filterMap_append

private theorem saidBytes_append (t u : List ServerEvent) : saidBytes (t ++ u) = saidBytes t ++ saidBytes u :=
  List.flatMap_append

private theorem systemCalls_within {p q : ServerIo α} (hp : p.Only (Within Q)) (h : Runs p t q) :
    ∀ ev ∈ systemCalls t, Q ev.call := by
  intro ev hev
  obtain ⟨⟨call, r⟩, hmem, hcall⟩ := List.mem_filterMap.mp hev
  have hwithin := hp.runs h _ hmem
  cases call with
  | sys c =>
    cases hcall
    exact hwithin
  | _ => cases hcall

private theorem systemCalls_none {p q : ServerIo α} (hp : p.Only (Within fun _ => False)) (h : Runs p t q) :
    systemCalls t = [] :=
  List.eq_nil_iff_forall_not_mem.mpr fun ev hev => systemCalls_within hp h ev hev

def Unsaid : SockCall Kind ServerSys → Prop
  | .send _ _ _ => False
  | _ => True

instance : AllowsMemory Unsaid := ⟨fun _ => trivial, fun _ => trivial, fun _ => trivial⟩

private theorem saidBytes_unsaid {p q : ServerIo α} (hp : p.Only Unsaid) (h : Runs p t q) : saidBytes t = [] := by
  refine List.flatMap_eq_nil_iff.mpr fun ev hev => ?_
  have hunsaid := hp.runs h ev hev
  obtain ⟨call, r⟩ := ev
  cases call with
  | send m fd bs => exact hunsaid.elim
  | _ => rfl

theorem runs_path {host : Endian} {fd : Fd} {f : Int32 × Str → ServerIo β} {b : β}
    (h : Runs (agfsReadString host fd [] >>= f) t (.ret b)) :
    ∃ a u, systemCalls t = systemCalls u ∧ saidBytes t = saidBytes u ∧ Runs (f a) u (.ret b) := by
  obtain ⟨t₁, u, a, rfl, hread, hrest⟩ := Runs.bind_ret_iff.mp h
  refine ⟨a, u, ?_, ?_, hrest⟩
  · rw [systemCalls_append, systemCalls_none (only_readString ..) hread, List.nil_append]
  · rw [saidBytes_append]
    rcases readString_cases hread with ⟨r, -, rfl, -⟩ | ⟨r, block, reply, -, rfl, -⟩
    · rfl
    · rfl

private theorem runs_nextSize {host : Endian} {fd : Fd} {n : AgsizeT} {f : Int32 × AgsizeT → ServerIo β} {b : β} :
    Runs (agfsReadSize host fd n >>= f) t (.ret b) ↔ ∃ r u, t = ⟨.recv .field fd 8, r⟩ :: u ∧
      Runs (f (r.int, be64toh (overlay (host.store 8 n.toNat) r.bytes))) u (.ret b) :=
  Runs.call_ret_iff

theorem runs_lastError {fd : Fd} {err : AgerrT}
    (h : Runs (do let _ ← agfsWriteError fd err : ServerIo Unit) t (.ret ())) :
    systemCalls t = [] ∧ saidBytes t = errorBytes err := by
  obtain ⟨r, u, rfl, hu⟩ := Sock.runs_send.mp h
  obtain ⟨rfl, -⟩ := Runs.ret_iff.mp hu
  exact ⟨rfl, List.append_nil _⟩

theorem runs_negError {fd : Fd} {err : AgerrT} (herr : ¬ 0 ≤ err) {p : ServerIo Unit}
    (h : Runs (do
      let _ ← agfsWriteError fd err
      if 0 ≤ err then p) t (.ret ())) : systemCalls t = [] ∧ saidBytes t = errorBytes err := by
  rw [if_neg herr] at h
  exact runs_lastError h

private theorem errno_neg_eq_iff (e : Errno) : (-1 : AgerrT) = e.neg ↔ e.code = 1 := by
  rw [← Int64.toInt_inj, e.neg_toInt]
  change (-1 : Int) = _ ↔ _
  omega

end Traces

section Handlers
variable {host : Endian} {self : ClientConnection} {t : List ServerEvent} {e : Errno}

private theorem getattr_told {path : CString} (h : Runs (self.processGetAttr host) t (.ret ()))
    (hfail : (Request.getattr path).Refused (systemCalls t) e) : saidBytes t = errorBytes e.neg := by
  obtain ⟨a, u, hcalls, hsaid, h₁⟩ := runs_path h
  obtain ⟨r, v, rfl, h₂⟩ := Sock.runs_sys.mp h₁
  rw [hcalls] at hfail
  obtain ⟨file, hmem⟩ := hfail
  cases r with
  | error err =>
    obtain ⟨hnone, herror⟩ := runs_lastError h₂
    change _ ∈ (⟨_, _⟩ : Event ServerSys) :: systemCalls v at hmem
    rw [hnone] at hmem
    cases List.mem_singleton.mp hmem
    rw [hsaid]
    exact herror
  | ok st =>
    have honly : (do
        let _ ← agfsWriteError self.socket_ 0
        let _ ← agfsWriteStat self.socket_ st : ServerIo Unit).Only (Within fun _ => False) :=
      .bind (only_writeError ..) fun _ => .bind (only_writeStat ..) fun _ => trivial
    have hquiet := systemCalls_none honly h₂
    change _ ∈ (⟨_, _⟩ : Event ServerSys) :: systemCalls v at hmem
    rw [hquiet] at hmem
    cases List.mem_singleton.mp hmem

private theorem access_told {path : CString} {mask : AgmaskT} (h : Runs (self.processAccess host) t (.ret ()))
    (hfail : (Request.access path mask).Refused (systemCalls t) e) : saidBytes t = errorBytes (-1) := by
  obtain ⟨a, u, hcalls, hsaid, h₁⟩ := runs_path h
  obtain ⟨block, v, rfl, h₂⟩ := Sock.runs_scratch.mp h₁
  obtain ⟨r, w, rfl, h₃⟩ := Sock.runs_recv.mp h₂
  obtain ⟨result, x, rfl, h₄⟩ := Sock.runs_sys.mp h₃
  obtain ⟨hnone, herror⟩ := runs_lastError h₄
  rw [hcalls] at hfail
  obtain ⟨file, mode, hmem⟩ := hfail
  change _ ∈ (⟨_, _⟩ : Event ServerSys) :: systemCalls x at hmem
  rw [hnone] at hmem
  rw [hsaid]
  cases List.mem_singleton.mp hmem
  exact herror

private theorem open_told {path : CString} {flags : AgmaskT} (h : Runs (self.processOpen host) t (.ret ()))
    (hfail : (Request.open path flags).Refused (systemCalls t) e) : saidBytes t = errorBytes e.neg := by
  obtain ⟨a, u, hcalls, hsaid, h₁⟩ := runs_path h
  obtain ⟨r, v, rfl, h₂⟩ := Sock.runs_recv.mp h₁
  obtain ⟨result, w, rfl, h₃⟩ := Sock.runs_sys.mp h₂
  rw [hcalls] at hfail
  obtain ⟨file, mode, hmem⟩ := hfail
  cases result with
  | error err =>
    obtain ⟨_, x, rfl, h₄⟩ := Sock.runs_sys.mp h₃
    obtain ⟨hnone, herror⟩ := runs_lastError h₄
    change _ ∈ (⟨_, _⟩ : Event ServerSys) :: ⟨_, _⟩ :: systemCalls x at hmem
    rw [hnone] at hmem
    rw [hsaid]
    obtain hmem | hmem := List.mem_cons.mp hmem
    · cases hmem
      exact herror
    · cases List.mem_singleton.mp hmem
  | ok fd =>
    obtain ⟨_, x, rfl, h₄⟩ := Sock.runs_sys.mp h₃
    obtain ⟨hnone, -⟩ := runs_lastError h₄
    change _ ∈ (⟨_, _⟩ : Event ServerSys) :: ⟨_, _⟩ :: systemCalls x at hmem
    rw [hnone] at hmem
    obtain hmem | hmem := List.mem_cons.mp hmem
    · cases hmem
    · cases List.mem_singleton.mp hmem

theorem runs_orThrow {α β : Type} {r : Except Errno α} {f : α → ServerIo β} {b : β}
    (h : Runs (orThrow r >>= f) t (.ret b)) : ∃ a, r = .ok a ∧ Runs (f a) t (.ret b) := by
  cases r with
  | error err =>
    change Runs (Sock.abort .exception >>= f) t _ at h
    rw [abort_bind] at h
    exact absurd h not_runs_abort
  | ok a => exact ⟨a, rfl, h⟩

/-- Calls that do not decide about a listing. -/
def Undeciding : ServerCall → Prop
  | .fileExists _ => False
  | .isDirectory _ => False
  | _ => True

private theorem only_listing (file : Str) (err : AgerrT) : (do
    let _ ← agfsWriteError self.socket_ err
    if 0 ≤ err then
      let counted ← orThrow (← ServerIo.sys (.entries (cstr file)))
      let _ ← agfsWriteSize self.socket_ (UInt64.ofNat counted.1.length)
      let listed ← orThrow (← ServerIo.sys (.entries (cstr file)))
      self.writeEntries file listed.1 : ServerIo Unit).Only (Within Undeciding) := by
  refine .bind (only_writeError ..) fun _ => .ite ?_ trivial
  refine .bind (only_sys trivial) fun r => .bind (only_orThrow r) fun counted => ?_
  refine .bind (only_writeSize ..) fun _ => .bind (only_sys trivial) fun r => ?_
  exact .bind (only_orThrow r) fun listed => only_writeEntries (fun _ => trivial) listed.1

theorem mem_listing {file : Str} {found directory : Bool} {calls : List (Event ServerSys)}
    (h : ∀ ev ∈ calls, Undeciding ev.call) (b : Bool) :
    ((∃ path, (⟨.fileExists path, .ok b⟩ : Event ServerSys) ∈
        ⟨.fileExists file, .ok found⟩ :: ⟨.isDirectory file, .ok directory⟩ :: calls) ↔ b = found) ∧
      ((∃ path, (⟨.isDirectory path, .ok b⟩ : Event ServerSys) ∈
        ⟨.fileExists file, .ok found⟩ :: ⟨.isDirectory file, .ok directory⟩ :: calls) ↔ b = directory) := by
  constructor
  · constructor
    · rintro ⟨path, hmem⟩
      obtain hmem | hmem := List.mem_cons.mp hmem
      · cases hmem
        rfl
      obtain hmem | hmem := List.mem_cons.mp hmem
      · cases hmem
      · exact (h _ hmem).elim
    · rintro rfl
      exact ⟨file, List.mem_cons_self⟩
  · constructor
    · rintro ⟨path, hmem⟩
      obtain hmem | hmem := List.mem_cons.mp hmem
      · cases hmem
      obtain hmem | hmem := List.mem_cons.mp hmem
      · cases hmem
        rfl
      · exact (h _ hmem).elim
    · rintro rfl
      exact ⟨file, List.mem_cons_of_mem _ List.mem_cons_self⟩

private theorem readdir_told {path : CString} (h : Runs (self.processReaddir host) t (.ret ()))
    (hfail : (Request.readdir path).Refused (systemCalls t) e) :
    ∃ a : AgerrT, a < 0 ∧ saidBytes t = errorBytes a ∧
      (a = e.neg ↔ (Request.readdir path).Tells (systemCalls t) e) := by
  obtain ⟨read, u, hcalls, hsaid, h₁⟩ := runs_path h
  obtain ⟨r, u₁, rfl, h₂⟩ := Sock.runs_sys.mp h₁
  obtain ⟨found, rfl, h₃⟩ := runs_orThrow h₂
  obtain ⟨r, u₂, rfl, h₄⟩ := Sock.runs_sys.mp h₃
  obtain ⟨directory, rfl, h₅⟩ := runs_orThrow h₄
  have hlisted := systemCalls_within (only_listing _ _) h₅
  have hshape : systemCalls t = ⟨.fileExists (cstr (self.file read.2)), .ok found⟩ ::
      ⟨.isDirectory (cstr (self.file read.2)), .ok directory⟩ :: systemCalls u₂ := hcalls
  have hexists (b : Bool) : (∃ path, (⟨.fileExists path, .ok b⟩ : Event ServerSys) ∈ systemCalls t) ↔ b = found := by
    rw [hshape]
    exact (mem_listing hlisted b).1
  have hdirectory (b : Bool) : (∃ path, (⟨.isDirectory path, .ok b⟩ : Event ServerSys) ∈ systemCalls t) ↔
      b = directory := by
    rw [hshape]
    exact (mem_listing hlisted b).2
  have refuses {a : AgerrT}
    (ha : (if directory then (if found then 0 else Errno.ENOENT.neg) else Errno.ENOTDIR.neg) = a)
      (hneg : ¬ 0 ≤ a) : saidBytes t = errorBytes a := by
    rw [hsaid]
    dsimp only at h₅
    rw [ha] at h₅
    exact (runs_negError hneg h₅).2
  simp only [Request.Refused, Request.Tells, hexists, hdirectory] at hfail ⊢
  cases directory with
  | true =>
    cases found with
    | true => simp at hfail
    | false =>
      obtain rfl : e = .ENOENT := by simpa using hfail
      exact ⟨Errno.ENOENT.neg, Errno.neg_lt _, refuses rfl (Errno.not_le_neg _), by simp⟩
  | false =>
    refine ⟨Errno.ENOTDIR.neg, Errno.neg_lt _, refuses rfl (Errno.not_le_neg _), ?_⟩
    cases found with
    | true =>
      obtain rfl : e = .ENOTDIR := by simpa using hfail
      simp
    | false =>
      obtain rfl : e = .ENOENT := by simpa using hfail
      exact iff_of_false (by decide) (by simp)

/-! Files. -/

private theorem readLoop_fails {fd : Fd} {fuel left : Nat} {buf : Bytes} {result : Bytes × AgerrT}
    (h : Runs (ClientConnection.readLoop fd fuel left buf) t (.ret result))
    (hfail : ∃ fd n, (⟨.read fd n, .fail e⟩ : Event ServerSys) ∈ systemCalls t) : result.2 = -1 := by
  induction fuel generalizing left buf t with
  | zero =>
    obtain ⟨rfl, -⟩ := Runs.ret_iff.mp h
    obtain ⟨_, _, hmem⟩ := hfail
    cases hmem
  | succ fuel ih =>
    rw [ClientConnection.readLoop] at h
    by_cases hleft : left = 0
    · rw [if_pos hleft] at h
      obtain ⟨rfl, -⟩ := Runs.ret_iff.mp h
      obtain ⟨_, _, hmem⟩ := hfail
      cases hmem
    · rw [if_neg hleft] at h
      obtain ⟨r, u, rfl, h₁⟩ := Sock.runs_sys.mp h
      cases r with
      | fail err =>
        obtain ⟨-, hret⟩ := Runs.ret_iff.mp h₁
        cases hret
        rfl
      | got bs hbs =>
        have hrest : ∃ fd n, (⟨.read fd n, .fail e⟩ : Event ServerSys) ∈ systemCalls u := by
          obtain ⟨fd', n, hmem⟩ := hfail
          obtain hmem | hmem := List.mem_cons.mp hmem
          · cases hmem
          · exact ⟨fd', n, hmem⟩
        dsimp only at h₁
        by_cases hempty : bs = []
        · rw [if_pos hempty] at h₁
          obtain ⟨rfl, -⟩ := Runs.ret_iff.mp h₁
          obtain ⟨_, _, hmem⟩ := hrest
          cases hmem
        · rw [if_neg hempty] at h₁
          exact ih h₁ hrest

theorem readOpen_told {fd : Nat} {size offset : AgsizeT} (h : Runs (do
      let _ ← ServerIo.sys (.lseek fd offset)
      let _ ← vectorResize size.toNat
      let (buf, error) ← ClientConnection.readLoop fd size.toNat size.toNat []
      let totalRead := UInt64.ofNat buf.length
      let error := if 0 ≤ error then totalRead.toInt64 else error
      let _ ← agfsWriteError self.socket_ error
      if 0 ≤ error then
        let _ ← agfsWriteSize self.socket_ totalRead
        let _ ← Sock.send .data self.socket_ buf) t (.ret ())) :
    ¬ OpenFails (systemCalls t) e ∧
      ((∃ fd n, (⟨.read fd n, .fail e⟩ : Event ServerSys) ∈ systemCalls t) → saidBytes t = errorBytes (-1)) := by
  obtain ⟨r, u, rfl, h₁⟩ := Sock.runs_sys.mp h
  obtain ⟨u₁, u₂, _, rfl, hresize, h₂⟩ := Runs.bind_ret_iff.mp h₁
  obtain ⟨u₃, u₄, ⟨buf, error⟩, rfl, hloop, h₃⟩ := Runs.bind_ret_iff.mp h₂
  have hresizeCalls : systemCalls u₁ = [] := systemCalls_none (only_vectorResize _) hresize
  have hloopCalls : ∀ ev ∈ systemCalls u₃, ∃ n, ev.call = .read fd n :=
    systemCalls_within (Q := fun c => ∃ n, c = .read fd n) (only_readLoop (fun n => ⟨n, rfl⟩) ..) hloop
  have hsaid : saidBytes (u₁ ++ (u₃ ++ u₄)) = saidBytes u₄ := by
    rw [saidBytes_append, saidBytes_append, saidBytes_unsaid (only_vectorResize _) hresize,
      saidBytes_unsaid (only_readLoop (fun _ => trivial) ..) hloop, List.nil_append, List.nil_append]
  have hrest : (do
      let totalRead := UInt64.ofNat buf.length
      let error := if 0 ≤ error then totalRead.toInt64 else error
      let _ ← agfsWriteError self.socket_ error
      if 0 ≤ error then
        let _ ← agfsWriteSize self.socket_ totalRead
        let _ ← Sock.send .data self.socket_ buf : ServerIo Unit).Only (Within fun _ => False) :=
    .bind (only_writeError ..) fun _ => .ite
      (.bind (only_writeSize ..) fun _ => .bind (only_send ..) fun _ => trivial) trivial
  have hcalls : systemCalls (⟨.sys (.lseek fd offset), r⟩ :: (u₁ ++ (u₃ ++ u₄))) =
      ⟨.lseek fd offset, r⟩ :: systemCalls u₃ := by
    change _ :: systemCalls (u₁ ++ (u₃ ++ u₄)) = _
    rw [systemCalls_append, systemCalls_append, hresizeCalls, systemCalls_none hrest h₃, List.append_nil,
      List.nil_append]
  rw [hcalls]
  constructor
  · rintro ⟨path, flags, hmem⟩
    obtain hmem | hmem := List.mem_cons.mp hmem
    · cases hmem
    · obtain ⟨n, hcall⟩ := hloopCalls _ hmem
      cases hcall
  · rintro ⟨fd', n, hmem⟩
    obtain hmem | hmem := List.mem_cons.mp hmem
    · cases hmem
    · obtain rfl : error = -1 := readLoop_fails hloop ⟨fd', n, hmem⟩
      have hneg : ¬ (0 : AgerrT) ≤ -1 := by decide
      exact hsaid.trans (runs_negError hneg h₃).2

private theorem readFile_told {path : CString} {size offset : AgsizeT} (h : Runs (self.processRead host) t (.ret ()))
    (hfail : (Request.readFile path size offset).Refused (systemCalls t) e) :
    ∃ a : AgerrT, a < 0 ∧ saidBytes t = errorBytes a ∧
      (a = e.neg ↔ (Request.readFile path size offset).Tells (systemCalls t) e) := by
  obtain ⟨read, u, hcalls, hsaid, h₁⟩ := runs_path h
  rw [hcalls] at hfail ⊢
  rw [hsaid]
  obtain ⟨size, u₁, rfl, h₂⟩ := runs_nextSize.mp h₁
  obtain ⟨offset, u₂, rfl, h₃⟩ := runs_nextSize.mp h₂
  obtain ⟨r, u₃, rfl, h₄⟩ := Sock.runs_sys.mp h₃
  cases r with
  | error err =>
    obtain ⟨hnone, herror⟩ := runs_lastError h₄
    change Request.Refused (⟨_, _⟩ :: systemCalls u₃) e _ at hfail
    rw [hnone] at hfail
    obtain ⟨file, flags, hmem⟩ | ⟨fd, n, hmem⟩ := hfail
    · cases List.mem_singleton.mp hmem
      exact ⟨e.neg, e.neg_lt, herror, iff_of_true rfl (.inl ⟨_, _, List.mem_cons_self⟩)⟩
    · cases List.mem_singleton.mp hmem
  | ok fd =>
    obtain ⟨hopens, hreads⟩ := readOpen_told h₄
    have hopen : ¬ OpenFails (⟨.open (cstr (self.file read.2)) O_RDONLY, .ok fd⟩ :: systemCalls u₃) e := by
      rintro ⟨file, flags, hmem⟩
      obtain hmem | hmem := List.mem_cons.mp hmem
      · cases hmem
      · exact hopens ⟨file, flags, hmem⟩
    obtain hfails | ⟨fd', n, hmem⟩ := hfail
    · exact absurd hfails hopen
    · have hmem : (⟨.read fd' n, .fail e⟩ : Event ServerSys) ∈ systemCalls u₃ := by
        obtain hmem | hmem := List.mem_cons.mp hmem
        · cases hmem
        · exact hmem
      refine ⟨-1, by decide, hreads ⟨fd', n, hmem⟩, (errno_neg_eq_iff e).trans ?_⟩
      exact (or_iff_right hopen).symm

private theorem only_staleErrno : staleErrno.Only (Within fun c : ServerCall => c = .errno) := by
  have hcall : (ServerIo.sys .errno).Only (Within fun c : ServerCall => c = .errno) := only_sys rfl
  exact .bind hcall fun r => by cases r <;> trivial

theorem storeLoop_fails {socket fd : Fd} {fuel left : Nat} {err : AgerrT} {total : AgsizeT}
    {stored : ClientConnection.Stored}
    (h : Runs (ClientConnection.storeLoop socket fd fuel left err total) t (.ret stored))
    (hfail : ∃ fd bs, (⟨.write fd bs, .fail e⟩ : Event ServerSys) ∈ systemCalls t) : stored = .refused e.neg := by
  induction fuel generalizing left err total t with
  | zero =>
    obtain ⟨rfl, -⟩ := Runs.ret_iff.mp h
    obtain ⟨_, _, hmem⟩ := hfail
    cases hmem
  | succ fuel ih =>
    rw [ClientConnection.storeLoop] at h
    by_cases hleft : left = 0
    · rw [if_pos hleft] at h
      obtain ⟨rfl, -⟩ := Runs.ret_iff.mp h
      obtain ⟨_, _, hmem⟩ := hfail
      cases hmem
    rw [if_neg hleft] at h
    obtain ⟨r, u, rfl, h₁⟩ := Sock.runs_recv.mp h
    cases r with
    | fail err' =>
      obtain ⟨rfl, -⟩ := Runs.ret_iff.mp h₁
      obtain ⟨_, _, hmem⟩ := hfail
      cases hmem
    | got chunk hchunk =>
      dsimp only at h₁
      by_cases hempty : chunk = []
      · rw [if_pos hempty] at h₁
        obtain ⟨rfl, -⟩ := Runs.ret_iff.mp h₁
        obtain ⟨_, _, hmem⟩ := hfail
        cases hmem
      rw [if_neg hempty] at h₁
      obtain ⟨r, v, rfl, h₂⟩ := Sock.runs_sys.mp h₁
      cases r with
      | fail err' =>
        obtain ⟨rfl, hret⟩ := Runs.ret_iff.mp h₂
        cases hret
        obtain ⟨_, _, hmem⟩ := hfail
        cases List.mem_singleton.mp hmem
        rfl
      | wrote count hcount =>
        have hrest : ∃ fd bs, (⟨.write fd bs, .fail e⟩ : Event ServerSys) ∈ systemCalls v := by
          obtain ⟨fd', bs, hmem⟩ := hfail
          obtain hmem | hmem := List.mem_cons.mp hmem
          · cases hmem
          · exact ⟨fd', bs, hmem⟩
        dsimp only at h₂
        by_cases hzero : count = 0
        · -- a write of nothing is not one that has failed: only `errno` is looked at
          rw [if_pos hzero] at h₂
          obtain ⟨v₁, v₂, stale, rfl, hstale, h₃⟩ := Runs.bind_ret_iff.mp h₂
          obtain ⟨rfl, -⟩ := Runs.ret_iff.mp h₃
          obtain ⟨_, _, hmem⟩ := hrest
          rw [List.append_nil] at hmem
          cases systemCalls_within only_staleErrno hstale _ hmem
        · rw [if_neg hzero] at h₂
          exact ih h₂ hrest

private theorem writeFile_told {path : CString} {offset : AgsizeT} {buf : Buffer}
    (h : Runs (self.processWrite host) t (.ret ()))
    (hfail : (Request.writeFile path offset buf).Refused (systemCalls t) e) :
    saidBytes t = errorBytes e.neg ∨ saidBytes t = errorBytes 0 ++ errorBytes e.neg := by
  obtain ⟨read, u, hcalls, hsaid, h₁⟩ := runs_path h
  rw [hcalls] at hfail
  rw [hsaid]
  obtain ⟨r, v, rfl, h₂⟩ := Sock.runs_sys.mp h₁
  cases r with
  | error err =>
    obtain ⟨hnone, herror⟩ := runs_lastError h₂
    change Request.Refused (⟨_, _⟩ :: systemCalls v) e _ at hfail
    rw [hnone] at hfail
    obtain ⟨file, flags, hmem⟩ | ⟨fd, bs, hmem⟩ := hfail
    · cases List.mem_singleton.mp hmem
      exact .inl herror
    · cases List.mem_singleton.mp hmem
  | ok fd =>
    obtain ⟨sent, v₁, rfl, h₃⟩ := Sock.runs_send.mp h₂
    obtain ⟨size, v₂, rfl, h₄⟩ := runs_nextSize.mp h₃
    obtain ⟨offset', v₃, rfl, h₅⟩ := runs_nextSize.mp h₄
    obtain ⟨seek, v₄, rfl, h₆⟩ := Sock.runs_sys.mp h₅
    obtain ⟨w₁, w₂, _, rfl, hresize, h₇⟩ := Runs.bind_ret_iff.mp h₆
    obtain ⟨w₃, w₄, stored, rfl, hloop, hfinish⟩ := Runs.bind_ret_iff.mp h₇
    have hloopCalls : ∀ ev ∈ systemCalls w₃, (∃ bs, ev.call = .write fd bs) ∨ ev.call = .errno :=
      systemCalls_within (Q := fun c => (∃ bs, c = .write fd bs) ∨ c = .errno)
        (only_storeLoop (fun _ => trivial) (fun bs => .inl ⟨bs, rfl⟩) (.inr rfl) ..) hloop
    have honly : (self.finishWrite fd stored).Only (Within fun c : ServerCall => c = .close fd) :=
      only_finishWrite (show (fun c : ServerCall => c = .close fd) (.close fd) from rfl) stored
    have hfinishCalls : ∀ ev ∈ systemCalls w₄, ev.call = .close fd := systemCalls_within honly hfinish
    have hshape (ev : Event ServerSys) (hev : ev ∈ systemCalls (⟨.sys (.open (cstr (self.file read.2)) O_WRONLY),
        .ok fd⟩ :: ⟨.send .field self.socket_ (htobe64 (0 : AgerrT).toUInt64), sent⟩ ::
          ⟨.recv .field self.socket_ 8, size⟩ :: ⟨.recv .field self.socket_ 8, offset'⟩ ::
          ⟨.sys (.lseek fd (be64toh (overlay (host.store 8 0) (ReadReply.bytes offset')))), seek⟩ ::
          (w₁ ++ (w₃ ++ w₄)))) :
        ev ∈ systemCalls w₃ ∨ (∃ file flags, ev = ⟨.open file flags, .ok fd⟩) ∨ (∃ n r, ev = ⟨.lseek fd n, r⟩) ∨
          ev.call = .close fd := by
      obtain rfl | hev := List.mem_cons.mp hev
      · exact .inr (.inl ⟨_, _, rfl⟩)
      obtain rfl | hev := List.mem_cons.mp hev
      · exact .inr (.inr (.inl ⟨_, _, rfl⟩))
      change ev ∈ systemCalls (w₁ ++ (w₃ ++ w₄)) at hev
      rw [systemCalls_append, systemCalls_none (only_vectorResize _) hresize, List.nil_append,
        systemCalls_append] at hev
      obtain hev | hev := List.mem_append.mp hev
      · exact .inl hev
      · exact .inr (.inr (.inr (hfinishCalls ev hev)))
    obtain ⟨file, flags, hmem⟩ | ⟨fd', bs, hmem⟩ := hfail
    · rcases hshape _ hmem with hloopMem | ⟨_, _, heq⟩ | ⟨_, _, heq⟩ | heq
      · rcases hloopCalls _ hloopMem with ⟨_, heq⟩ | heq
        · cases heq
        · cases heq
      · cases heq
      · cases heq
      · cases heq
    · rcases hshape _ hmem with hloopMem | ⟨_, _, heq⟩ | ⟨_, _, heq⟩ | heq
      · obtain rfl := storeLoop_fails hloop ⟨fd', bs, hloopMem⟩
        obtain ⟨-, herror⟩ := runs_lastError hfinish
        refine .inr ?_
        change errorBytes 0 ++ saidBytes (w₁ ++ (w₃ ++ w₄)) = _
        rw [saidBytes_append, saidBytes_append, saidBytes_unsaid (only_vectorResize _) hresize,
          saidBytes_unsaid (only_storeLoop (fun _ => trivial) (fun _ => trivial) trivial ..) hloop, herror,
          List.nil_append, List.nil_append]
      · cases heq
      · cases heq
      · cases heq

/-- A handler whose call has failed says so with some error, which is that of the call just in
the cases above. -/
theorem handler_told {r : Request} (h : Runs (r.handler host self) t (.ret ()))
    (hfail : r.Refused (systemCalls t) e) :
    ∃ err : AgerrT, err < 0 ∧ r.Says (saidBytes t) err ∧ (err = e.neg ↔ r.Tells (systemCalls t) e) := by
  cases r with
  | heartbeat => exact hfail.elim
  | getattr path => exact ⟨e.neg, e.neg_lt, .inl (getattr_told h hfail), iff_of_true rfl trivial⟩
  | access path mask => exact ⟨-1, by decide, .inl (access_told h hfail), errno_neg_eq_iff e⟩
  | readdir path =>
    obtain ⟨err, hneg, hsaid, htells⟩ := readdir_told h hfail
    exact ⟨err, hneg, .inl hsaid, htells⟩
  | readFile path size offset =>
    obtain ⟨err, hneg, hsaid, htells⟩ := readFile_told h hfail
    exact ⟨err, hneg, .inl hsaid, htells⟩
  | writeFile path offset buf =>
    refine ⟨e.neg, e.neg_lt, ?_, iff_of_true rfl trivial⟩
    exact (writeFile_told h hfail).imp id fun hsaid => ⟨path, offset, buf, rfl, hsaid⟩
  | «open» path flags => exact ⟨e.neg, e.neg_lt, .inl (open_told h hfail), iff_of_true rfl trivial⟩

end Handlers
end AgFS
