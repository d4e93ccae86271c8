import AgFS.Session.Asking

/-! The server's half of an exchange: what a handler takes, and the answer it gives. -/
namespace AgFS
open Interaction ByteOrder
open ClientConnection (processHeartbeat processGetAttr processAccess processReaddir processRead
  processWrite processOpen)

namespace Request

/-- The handler that the command of a request selects. -/
def handler (host : Endian) (self : ClientConnection) : Request → ServerIo Unit
  | heartbeat => self.processHeartbeat
  | getattr _ => self.processGetAttr host
  | access _ _ => self.processAccess host
  | readdir _ => self.processReaddir host
  | readFile _ _ _ => self.processRead host
  | writeFile _ _ _ => self.processWrite host
  | «open» _ _ => self.processOpen host

theorem dispatch_command (host : Endian) (self : ClientConnection) (r : Request) :
    self.dispatch host r.command = (do r.handler host self; return .inl self) := by
  cases r <;> rfl

end Request

/-- A handler does what its request stands for and answers with the outcome, which is one
that the answer determines. -/
structure Serves {ν τ : Type} (e : Env Kind ServerSys ν τ) (conn : ClientConnection)
    (host : Endian) (r : Request) (s : τ) : Prop where
  does : e.Does (r.handler host conn) s r.args (r.reply (e.run (r.remote conn) s).1) (.ret ())
    (e.run (r.remote conn) s).2
  plain : r.Plain (e.run (r.remote conn) s).1

private theorem Serves.of_run {ν τ : Type} {e : Env Kind ServerSys ν τ} {conn : ClientConnection}
    {host : Endian} {r : Request} {s s' : τ} {res : r.Result}
    (hrun : e.run (r.remote conn) s = (res, s')) (hplain : r.Plain res)
    (hdoes : e.Does (r.handler host conn) s r.args (r.reply res) (.ret ()) s') :
    Serves e conn host r s := by
  constructor
  · rw [hrun]
    exact hdoes
  · rw [hrun]
    exact hplain

section Serving
variable {ν τ : Type} {e : Env Kind ServerSys ν τ} {recvAll : Prop} {self : ClientConnection}
  (he : Orderly e recvAll True) (hf : 0 ≤ self.socket_) (host : Endian)
include he hf

private theorem serves_heartbeat (s : τ) : Serves e self host .heartbeat s :=
  .of_run rfl rfl ((does_writeCmd he hf _ s).returns rfl)

private theorem serves_getattr {path : CString} (hs : Addressable path.1) (s : τ) :
    Serves e self host (.getattr path) s := by
  rcases hsys : e.sys s (.lstat (cstr (self.file path.1))) with ⟨s', err | st⟩
  · refine .of_run (run_ask hsys) ((if_neg err.not_le_neg).mpr rfl) ?_
    simp only [Request.reply, if_neg err.not_le_neg, List.append_nil]
    refine (does_readString he hf host _ hs path.2 s).takes ?_
    exact Env.does_sys_then hsys ((does_writeError he hf _ s').returns rfl)
  · refine .of_run (run_ask hsys) rfl ?_
    refine (does_readString he hf host _ hs path.2 s).takes ?_
    refine Env.does_sys_then hsys ((does_writeError he hf 0 s').andThen ?_)
    exact (does_writeStat he hf st s').returns rfl

private theorem serves_access {path : CString} (hs : Addressable path.1) (mask : AgmaskT) (s : τ) :
    Serves e self host (.access path mask) s := by
  rcases hsys : e.sys s (.access (cstr (self.file path.1)) mask) with ⟨s', err | ⟨⟩⟩
  all_goals
    refine .of_run (run_ask hsys) trivial ?_
    refine (does_readString he hf host _ hs path.2 s).andThen ?_
    refine Env.does_scratch 4 s fun b => ?_
    refine (does_readMask he hf host _ mask s).takes ?_
    exact Env.does_sys_then hsys ((does_writeError he hf _ s').returns rfl)

private theorem serves_open {path : CString} (hs : Addressable path.1) (flags : AgmaskT) (s : τ) :
    Serves e self host (.open path flags) s := by
  rcases hsys : e.sys s (.open (cstr (self.file path.1)) flags) with ⟨s', err | fd⟩
  all_goals
    refine .of_run (run_ask hsys) trivial ?_
    refine (does_readString he hf host _ hs path.2 s).andThen ?_
    refine (does_readMask he hf host _ flags s).takes ?_
    refine Env.does_sys_then hsys (Env.does_sys_then rfl ?_)
    exact (does_writeError he hf _ _).returns rfl

/-! Directories. -/

omit he hf in
private theorem fileName_addressable (entry : FileName) : Addressable entry.name := by
  have h := entry.short
  unfold Addressable
  omega

omit he hf in
private theorem run_examine_cons (file : Str) (entry : FileName) (rest : List FileName) (s : τ) :
    e.run (Request.examine file (entry :: rest)) s =
      let looked := e.sys s (.lstat (cstr (pathAppend file entry.name)))
      let examined := e.run (Request.examine file rest) looked.1
      ((entry.name, (Request.orElse Stat.zero looked.2).transmitted) :: examined.1, examined.2) := by
  rcases hsys : e.sys s (.lstat (cstr (pathAppend file entry.name))) with ⟨s', err | st⟩
  all_goals
    rw [Request.examine]
    refine (run_ask hsys).trans ?_
    rw [Env.run_bind]
    rfl

omit he hf in
theorem examine_length (file : Str) (names : List FileName) (s : τ) :
    (e.run (Request.examine file names) s).1.length = names.length := by
  induction names generalizing s with
  | nil => rfl
  | cons entry rest ih => simp [run_examine_cons, ih]

omit he hf in
theorem examine_plain (file : Str) (names : List FileName) (s : τ) :
    ∀ x ∈ (e.run (Request.examine file names) s).1,
      NulFree x.1 ∧ Addressable x.1 ∧ x.2.transmitted = x.2 := by
  induction names generalizing s with
  | nil => simp [Request.examine]
  | cons entry rest ih =>
    intro x hx
    rw [run_examine_cons] at hx
    rcases List.mem_cons.mp hx with rfl | hx
    · exact ⟨entry.nulFree, fileName_addressable entry, rfl⟩
    · exact ih _ x hx

private theorem does_writeEntries (file : Str) (names : List FileName) (s : τ) :
    e.Does (self.writeEntries file names) s []
      ((e.run (Request.examine file names) s).1.flatMap fun x => encString x.1 ++ encStat x.2)
      (.ret ()) (e.run (Request.examine file names) s).2 := by
  induction names generalizing s with
  | nil => exact .refl _ s
  | cons entry rest ih =>
    rw [run_examine_cons, List.flatMap_cons, List.append_assoc]
    refine (does_writeString he hf entry.name s).andThen ?_
    rcases hsys : e.sys s (.lstat (cstr (pathAppend file entry.name))) with ⟨s', err | st⟩
    all_goals
      refine Env.does_sys_then hsys ?_
      exact (does_writeStat he hf _ s').andThen (ih s')

theorem does_processReaddir {path : CString} (hs : Addressable path.1) {s s₁ s₂ s₃ s₄ : τ}
    {counted listed : Listing} (h₁ : e.sys s (.fileExists (cstr (self.file path.1))) = (s₁, .ok true))
    (h₂ : e.sys s₁ (.isDirectory (cstr (self.file path.1))) = (s₂, .ok true))
    (h₃ : e.sys s₂ (.entries (cstr (self.file path.1))) = (s₃, .ok counted))
    (h₄ : e.sys s₃ (.entries (cstr (self.file path.1))) = (s₄, .ok listed)) :
    e.Does (self.processReaddir host) s (encString path.1)
      (encError 0 ++ (encSize (UInt64.ofNat counted.1.length) ++
        (e.run (Request.examine (self.file path.1) listed.1) s₄).1.flatMap fun x => encString x.1 ++ encStat x.2))
      (.ret ()) (e.run (Request.examine (self.file path.1) listed.1) s₄).2 := by
  refine (does_readString he hf host _ hs path.2 s).takes ?_
  refine Env.does_sys_then h₁ (Env.does_sys_then h₂ ?_)
  refine (does_writeError he hf 0 s₂).andThen ?_
  refine Env.does_sys_then h₃ ((does_writeSize he hf _ s₃).andThen ?_)
  refine Env.does_sys_then h₄ ?_
  exact does_writeEntries he hf _ _ s₄

private theorem serves_readdir {P : Request → Prop} (hsteady : Steady e.sys self.mountPoint_ P) {path : CString}
    (hp : P (.readdir path)) (hs : Addressable path.1) (s : τ) : Serves e self host (.readdir path) s := by
  obtain ⟨found, hfound⟩ : ∃ b, (e.sys s (.fileExists (cstr (self.file path.1)))).2 = .ok b :=
    hsteady.fileExists hp s
  rcases h₁ : e.sys s (.fileExists (cstr (self.file path.1))) with ⟨s₁, r⟩
  obtain rfl : r = .ok found := by simpa [h₁] using hfound
  obtain ⟨directory, hdirectory⟩ : ∃ b, (e.sys s₁ (.isDirectory (cstr (self.file path.1)))).2 = .ok b :=
    hsteady.isDirectory hp s₁
  rcases h₂ : e.sys s₁ (.isDirectory (cstr (self.file path.1))) with ⟨s₂, r⟩
  obtain rfl : r = .ok directory := by simpa [h₂] using hdirectory
  have refuse (err : Errno) (hrun : e.run ((Request.readdir path).remote self) s = (([], err.neg), s₂))
      (herr : (if directory then (if found then 0 else Errno.ENOENT.neg)
        else Errno.ENOTDIR.neg : AgerrT) = err.neg) : Serves e self host (.readdir path) s := by
    refine .of_run hrun ((if_neg err.not_le_neg).mpr rfl) ?_
    simp only [Request.reply, if_neg err.not_le_neg, List.append_nil]
    refine (does_readString he hf host _ hs path.2 s).takes ?_
    refine Env.does_sys_then h₁ (Env.does_sys_then h₂ ?_)
    change e.Does (do
      let _ ← agfsWriteError self.socket_
        (if directory then (if found then 0 else Errno.ENOENT.neg) else Errno.ENOTDIR.neg)
      _) s₂ [] _ (.ret ()) s₂
    rw [herr]
    exact (does_writeError he hf err.neg s₂).returns (if_neg err.not_le_neg)
  cases directory with
  | false => exact refuse .ENOTDIR ((run_ask h₁).trans (run_ask h₂)) rfl
  | true =>
    cases found with
    | false => exact refuse .ENOENT ((run_ask h₁).trans (run_ask h₂)) rfl
    | true =>
      obtain ⟨listed, s₃, h₃, hlisted⟩ : ∃ l t, e.sys s₂ (.entries (cstr (self.file path.1))) = (t, .ok l) ∧
          (e.sys t (.entries (cstr (self.file path.1)))).2 = .ok l := hsteady.entries hp h₂
      rcases h₄ : e.sys s₃ (.entries (cstr (self.file path.1))) with ⟨s₄, r⟩
      obtain rfl : r = .ok listed := by simpa [h₄] using hlisted
      have hrun : e.run ((Request.readdir path).remote self) s =
          (((e.run (Request.examine (self.file path.1) listed.1) s₄).1, 0),
            (e.run (Request.examine (self.file path.1) listed.1) s₄).2) :=
        (run_ask h₁).trans ((run_ask h₂).trans ((run_ask h₃).trans
          ((run_ask h₄).trans (e.run_bind _ _ s₄))))
      have hlen := examine_length (e := e) (self.file path.1) listed.1 s₄
      refine .of_run hrun ⟨by rw [hlen]; exact listed.2, examine_plain _ _ _⟩ ?_
      simp only [Request.reply, if_pos (show (0 : AgerrT) ≤ 0 by decide), hlen]
      exact does_processReaddir he hf host hs h₁ h₂ h₃ h₄

/-! Reading a file. -/

omit he hf in
private theorem does_readLoop (fd : Fd) (fuel left : Nat) (buf : Bytes) (s : τ) :
    e.Does (ClientConnection.readLoop fd fuel left buf) s [] []
      (.ret (e.run (Request.fetch fd fuel left buf) s).1)
      (e.run (Request.fetch fd fuel left buf) s).2 := by
  induction fuel generalizing left buf s with
  | zero => exact .refl _ s
  | succ fuel ih =>
    rw [ClientConnection.readLoop, Request.fetch]
    by_cases hl : left = 0
    · rw [if_pos hl, if_pos hl]
      exact .refl _ s
    · rw [if_neg hl, if_neg hl]
      rcases hsys : e.sys s (.read fd left) with ⟨s', err | ⟨bs, hbs⟩⟩
      · rw [run_ask hsys]
        exact Env.does_sys_then hsys (.refl _ s')
      · rw [run_ask hsys]
        refine Env.does_sys_then hsys ?_
        by_cases hb : bs = []
        · simp only [if_pos hb]
          exact .refl _ s'
        · simp only [if_neg hb]
          exact ih _ _ s'

omit he hf in
/-- A fetch gets no more than was asked for, and ends with 0 or with -1. -/
theorem fetch_result (fd : Fd) (fuel left : Nat) (buf : Bytes) (s : τ) :
    (e.run (Request.fetch fd fuel left buf) s).1.1.length ≤ buf.length + left ∧
      ((e.run (Request.fetch fd fuel left buf) s).1.2 = 0 ∨
        (e.run (Request.fetch fd fuel left buf) s).1.2 = -1) := by
  induction fuel generalizing left buf s with
  | zero => exact ⟨Nat.le_add_right _ _, .inl rfl⟩
  | succ fuel ih =>
    rw [Request.fetch]
    by_cases hl : left = 0
    · rw [if_pos hl]
      exact ⟨Nat.le_add_right _ _, .inl rfl⟩
    · rw [if_neg hl]
      rcases hsys : e.sys s (.read fd left) with ⟨s', err | ⟨bs, hbs⟩⟩
      · rw [run_ask hsys]
        exact ⟨Nat.le_add_right _ _, .inr rfl⟩
      · rw [run_ask hsys]
        by_cases hb : bs = []
        · simp only [if_pos hb]
          exact ⟨Nat.le_add_right _ _, .inl rfl⟩
        · simp only [if_neg hb]
          obtain ⟨hlen, herr⟩ := ih (left - bs.length) (buf ++ bs) s'
          rw [List.length_append] at hlen
          exact ⟨by omega, herr⟩

omit he hf in
theorem int64_ofNat_nonneg {n : Nat} (h : n < 2 ^ 63) : 0 ≤ Int64.ofNat n := by
  rw [Int64.le_iff_toInt_le, Int64.toInt_ofNat_of_lt h, Int64.toInt_zero]
  exact Int.natCast_nonneg n

theorem serves_readFile_refused {path : CString} (hs : Addressable path.1) (size offset : AgsizeT)
    {s s' : τ} {err : Errno} (hopen : e.sys s (.open (cstr (self.file path.1)) O_RDONLY) = (s', .error err)) :
    Serves e self host (.readFile path size offset) s := by
  refine .of_run (run_ask hopen) ((if_neg err.not_le_neg).mpr rfl) ?_
  simp only [Request.args, Request.reply, List.append_assoc, List.append_nil, if_neg err.not_le_neg]
  refine (does_readString he hf host _ hs path.2 s).andThen ?_
  refine (does_readSize he hf host _ size s).andThen ?_
  refine (does_readSize he hf host _ offset s).takes ?_
  exact Env.does_sys_then hopen ((does_writeError he hf _ s').returns rfl)

theorem serves_readFile {path : CString} (hs : Addressable path.1) {size : AgsizeT}
    (hsize : size.toNat < 2 ^ 63) (offset : AgsizeT) (s : τ) :
    Serves e self host (.readFile path size offset) s := by
  rcases h₁ : e.sys s (.open (cstr (self.file path.1)) O_RDONLY) with ⟨s₁, err | fd⟩
  · exact serves_readFile_refused he hf host hs size offset h₁
  · rcases h₂ : e.sys s₁ (.lseek fd offset) with ⟨s₂, r⟩
    have hloop := does_readLoop (e := e) fd size.toNat size.toNat [] s₂
    obtain ⟨hlen, herr⟩ := fetch_result (e := e) fd size.toNat size.toNat [] s₂
    have hrun : e.run ((Request.readFile path size offset).remote self) s = _ :=
      (run_ask h₁).trans ((run_ask h₂).trans (e.run_bind _ _ s₂))
    rcases hfetch : e.run (Request.fetch fd size.toNat size.toNat []) s₂ with ⟨⟨data, err⟩, s₃⟩
    rw [hfetch] at hloop hlen herr hrun
    simp only [List.length_nil, Nat.zero_add] at hlen
    rcases herr with rfl | rfl
    · have hnonneg := int64_ofNat_nonneg (n := data.length) (by omega)
      refine .of_run hrun
        ((if_pos hnonneg).mpr ⟨by omega, rfl⟩) ?_
      simp only [Request.args, Request.reply, List.append_assoc, if_pos hnonneg]
      refine (does_readString he hf host _ hs path.2 s).andThen ?_
      refine (does_readSize he hf host _ size s).andThen ?_
      refine (does_readSize he hf host _ offset s).takes ?_
      refine Env.does_sys_then h₁ (Env.does_sys_then h₂ (does_vectorResize he hsize s₂ ?_))
      refine hloop.takes ?_
      refine (does_writeError he hf (Int64.ofNat data.length) s₃).andThen ?_
      change e.Does (if 0 ≤ Int64.ofNat data.length then _ else _) s₃ [] _ (.ret ()) s₃
      rw [if_pos hnonneg]
      refine (does_writeSize he hf _ s₃).andThen ?_
      exact (Env.does_send he (m := .data) (fun _ => trivial) hf data s₃).returns rfl
    · refine .of_run hrun rfl ?_
      simp only [Request.args, Request.reply, List.append_assoc, List.append_nil,
        if_neg (show ¬ (0 : AgerrT) ≤ -1 by decide)]
      refine (does_readString he hf host _ hs path.2 s).andThen ?_
      refine (does_readSize he hf host _ size s).andThen ?_
      refine (does_readSize he hf host _ offset s).takes ?_
      refine Env.does_sys_then h₁ (Env.does_sys_then h₂ (does_vectorResize he hsize s₂ ?_))
      refine hloop.takes ?_
      exact (does_writeError he hf _ s₃).returns rfl

/-! Writing a file. -/

private theorem serves_writeFile_refused {path : CString} (hs : Addressable path.1) (offset : AgsizeT)
    (buf : Buffer) {s s' : τ} {err : Errno}
    (hopen : e.sys s (.open (cstr (self.file path.1)) O_WRONLY) = (s', .error err)) :
    Serves e self host (.writeFile path offset buf) s := by
  refine .of_run (run_ask hopen) ⟨err.neg_lt, rfl⟩ ?_
  refine (does_readString he hf host _ hs path.2 s).takes ?_
  exact Env.does_sys_then hopen ((does_writeError he hf _ s').returns rfl)

omit he hf in
/-- The request asks for a file to be opened for writing, and it can be. -/
def Request.Opens (e : Env Kind ServerSys ν τ) (self : ClientConnection) (s : τ) : Request → Prop
  | .writeFile path _ _ => ∃ s' fd, e.sys s (.open (cstr (self.file path.1)) O_WRONLY) = (s', .ok fd)
  | _ => False

/-- Every request but a write that may begin is settled with one answer. -/
theorem serves {P : Request → Prop} (hsteady : Steady e.sys self.mountPoint_ P) {r : Request} (hp : P r)
    (hv : r.Held) (hr : r.Fits) {s : τ} (ho : ¬ r.Opens e self s) : Serves e self host r s := by
  cases r with
  | heartbeat => exact serves_heartbeat he hf host s
  | getattr path => exact serves_getattr he hf host hv s
  | access path mask => exact serves_access he hf host hv mask s
  | readdir path => exact serves_readdir he hf host hsteady hp hv s
  | readFile path size offset => exact serves_readFile he hf host hv hr offset s
  | «open» path flags => exact serves_open he hf host hv flags s
  | writeFile path offset buf =>
    rcases hopen : e.sys s (.open (cstr (self.file path.1)) O_WRONLY) with ⟨s', err | fd⟩
    · exact serves_writeFile_refused he hf host hv offset buf hopen
    · exact absurd ⟨s', fd, hopen⟩ ho

theorem does_processWrite (path : CString) (hs : Addressable path.1) {s s' : τ} {fd : Nat}
    (hopen : e.sys s (.open (cstr (self.file path.1)) O_WRONLY) = (s', .ok fd)) :
    e.Does (self.processWrite host) s (encString path.1) (encError 0)
      (self.receiveData host fd) s' := by
  refine (does_readString he hf host _ hs path.2 s).takes ?_
  refine Env.does_sys_then hopen ?_
  exact (does_writeError he hf 0 s').bind fun _ => self.receiveData host fd

theorem does_receiveData (fd : Nat) {size : AgsizeT} (hsize : size.toNat < 2 ^ 63)
    (offset : AgsizeT) (s : τ) :
    e.Does (self.receiveData host fd) s (encSize size ++ encSize offset) []
      (ClientConnection.storeLoop self.socket_ fd size.toNat size.toNat 0 0 >>=
        self.finishWrite fd) (e.sys s (.lseek fd offset)).1 := by
  refine (does_readSize he hf host _ size s).andThen ?_
  refine (does_readSize he hf host _ offset s).takes ?_
  refine Env.does_sys_then rfl ?_
  exact does_vectorResize he hsize _ (.refl _ _)

theorem does_finishWrite_refused (fd : Nat) (err : AgerrT) (s : τ) :
    e.Does (self.finishWrite fd (.refused err)) s [] (encError err) (.ret ()) s :=
  (does_writeError he hf err s).returns rfl

theorem does_finishWrite_ended (fd : Nat) (err : AgerrT) (total : AgsizeT) (s : τ) :
    e.Does (self.finishWrite fd (.ended err total)) s []
      (encError err ++ if 0 ≤ err then encSize total else []) (.ret ())
      (e.sys s (.close fd)).1 := by
  refine Env.does_sys_then rfl ((does_writeError he hf err _).andThen ?_)
  by_cases herr : 0 ≤ err
  · simp only [if_pos herr]
    exact (does_writeSize he hf total _).returns rfl
  · simp only [if_neg herr]
    exact .refl _ _

omit he hf in
theorem storeLoop_done (socket fd : Fd) (fuel : Nat) (err : AgerrT) (total : AgsizeT) :
    ClientConnection.storeLoop socket fd fuel 0 err total = .ret (.ended err total) := by
  cases fuel <;> rfl

omit he hf in
def storeChunk (socket fd : Fd) (fuel left : Nat) (total : AgsizeT) (chunk : Bytes) :
    ServerIo ClientConnection.Stored := do
  match ← ServerIo.sys (.write fd chunk) with
  | .fail err => return .refused err.neg
  | .wrote count _ =>
    if count = 0 then return .refused (← staleErrno)
    ClientConnection.storeLoop socket fd fuel (left - chunk.length) (Int64.ofNat count)
      (total + UInt64.ofNat count)

omit he hf in
theorem storeLoop_step (socket fd : Fd) {fuel left : Nat} (hl : left ≠ 0) (err : AgerrT)
    (total : AgsizeT) :
    ClientConnection.storeLoop socket fd (fuel + 1) left err total = (do
      match ← Sock.recv .data socket left with
      | .fail _ => return .ended (-1) total
      | .got chunk _ =>
        if chunk = [] then return .ended 0 total
        storeChunk socket fd fuel left total chunk) :=
  if_neg hl

end Serving
end AgFS
