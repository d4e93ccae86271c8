import AgFS.Files.WriteThrough

/-! A read from the callback to the file and back. -/
namespace AgFS
open Interaction ByteOrder Contents

/-- What `agfs_read` makes of an answer: what it copies, and its result. -/
def readResult (retVal : Bytes × AgerrT) : Bytes × Int32 :=
  if 0 ≤ retVal.2 then (retVal.1, (UInt64.ofNat retVal.1.length).toInt64.toInt32)
  else ([], retVal.2.toInt32)

section Fetching
variable {ν τ ι : Type} {e : Env Kind ServerSys ν τ}

/-- The loop of `processRead`: however short its reads come, it gets what the file holds. -/
theorem run_fetch (disk : Disk e.sys ι) (hdelivers : disk.Delivers) {fd : Fd} {fuel left : Nat}
    (hfuel : left ≤ fuel) (buf : Bytes) {s : τ} {c : Cursor ι} (hc : disk.cursor s fd O_RDONLY = some c) :
    ∃ t, e.run (Request.fetch fd fuel left buf) s =
        ((buf ++ slice (disk.contents s c.file) c.offset left, 0), t) ∧
      disk.contents t = disk.contents s := by
  induction fuel generalizing left buf s c with
  | zero =>
    obtain rfl := Nat.le_zero.mp hfuel
    exact ⟨s, by simp [Request.fetch, slice_zero], rfl⟩
  | succ fuel ih =>
    rw [Request.fetch]
    by_cases hl : left = 0
    · subst hl
      exact ⟨s, by simp [slice_zero], rfl⟩
    · obtain ⟨t, bs, hbs, hread, hprefix, hempty, hkeeps, hcursor⟩ := hdelivers (n := left) hc
      rw [if_neg hl, run_ask hread]
      by_cases hb : bs = []
      · have hpast := (hempty hb).resolve_left hl
        exact ⟨t, by simp [hb, slice_past hpast], hkeeps⟩
      · have hpos : 0 < bs.length := List.length_pos_iff.mpr hb
        have hrest : left - bs.length ≤ fuel := by omega
        obtain ⟨t', hrun, hkeeps'⟩ := ih hrest (buf ++ bs) hcursor
        refine ⟨t', ?_, hkeeps'.trans hkeeps⟩
        simp only [if_neg hb, hrun, hkeeps, List.append_assoc, slice_append hprefix hbs]

/-- A read of a file has failed. -/
def FailsToRead (events : List (Event ServerSys)) : Prop :=
  ∃ fd n err, ⟨.read fd n, .fail err⟩ ∈ events

private theorem not_failsToRead_nil : ¬ FailsToRead [] := by
  rintro ⟨_, _, _, h⟩
  cases h

theorem FailsToRead.of_cons {c : ServerCall} {r : ServerSys.Reply c} {events : List (Event ServerSys)}
    (h : FailsToRead (⟨c, r⟩ :: events)) (hc : ∀ fd n err, (⟨c, r⟩ : Event ServerSys) ≠ ⟨.read fd n, .fail err⟩) :
    FailsToRead events := by
  obtain ⟨fd, n, err, h⟩ := h
  rcases List.mem_cons.mp h with h | h
  · exact absurd h.symm (hc fd n err)
  · exact ⟨fd, n, err, h⟩

private theorem trace_ask {α : Type} {c : ServerCall} {s t : τ} {r : ServerSys.Reply c} (hc : e.sys s c = (t, r))
    (f : ServerSys.Reply c → Prog ServerSys α) :
    e.trace (ask c >>= f) s = ⟨c, r⟩ :: e.trace (f r) t := by
  change ⟨c, (e.sys s c).2⟩ :: e.trace (f (e.sys s c).2) (e.sys s c).1 = _
  rw [hc]

theorem run_fetch_fails {fd : Fd} {fuel left : Nat} {buf : Bytes} {s : τ}
    (h : FailsToRead (e.trace (Request.fetch fd fuel left buf) s)) :
    (e.run (Request.fetch fd fuel left buf) s).1.2 = -1 := by
  induction fuel generalizing left buf s with
  | zero => exact absurd h not_failsToRead_nil
  | succ fuel ih =>
    rw [Request.fetch] at h ⊢
    by_cases hl : left = 0
    · rw [if_pos hl] at h
      exact absurd h not_failsToRead_nil
    · rw [if_neg hl] at h ⊢
      rcases hsys : e.sys s (.read fd left) with ⟨t, err | ⟨bs, hbs⟩⟩
      · rw [run_ask hsys]
        rfl
      · rw [trace_ask hsys] at h
        rw [run_ask hsys]
        have h := h.of_cons fun fd n err heq => by cases heq
        by_cases hb : bs = []
        · simp only [if_pos hb] at h
          exact absurd h not_failsToRead_nil
        · simp only [if_neg hb] at h ⊢
          exact ih h

variable (self : ClientConnection) (path : CString) (size : AgsizeT) {offset : AgsizeT}

/-- What a request to read comes to on a machine that delivers what its files hold. -/
theorem run_readFile (disk : Disk e.sys ι) (hdelivers : disk.Delivers) (hoffset : offset.toNat < 2 ^ 63)
    {s t : τ} {fd : Nat} (hopen : e.sys s (.open (cstr (self.file path.1)) O_RDONLY) = (t, .ok fd)) :
    ∃ i t', disk.cursor t fd O_RDONLY = some ⟨i, 0⟩ ∧ disk.contents t' = disk.contents s ∧
      e.run ((Request.readFile path size offset).remote self) s =
        ((slice (disk.contents s i) offset.toNat size.toNat,
          Int64.ofNat (slice (disk.contents s i) offset.toNat size.toNat).length), t') := by
  obtain ⟨hkeeps, i, hcursor⟩ := disk.open_keeps (.inl rfl) hopen
  obtain ⟨hseek, hplace⟩ := disk.lseek_moves hcursor hoffset
  obtain ⟨t', hfetch, hsame⟩ := run_fetch disk hdelivers le_rfl [] hplace
  rw [hseek, hkeeps, List.nil_append] at hfetch
  refine ⟨i, t', hcursor, hsame.trans (hseek.trans hkeeps), ?_⟩
  rw [Request.remote, run_ask hopen]
  change e.run (Request.fetch fd _ _ [] >>= _) (e.sys t (.lseek fd offset)).1 = _
  rw [Env.run_bind, hfetch]
  rfl

/-- A read that fails on the way is what the request comes to. -/
theorem run_readFile_fails {s : τ}
    (h : FailsToRead (e.trace ((Request.readFile path size offset).remote self) s)) :
    (e.run ((Request.readFile path size offset).remote self) s).1 = ([], -1) := by
  rw [Request.remote] at h ⊢
  rcases hopen : e.sys s (.open (cstr (self.file path.1)) O_RDONLY) with ⟨t, err | fd⟩
  · rw [trace_ask hopen] at h
    exact absurd (h.of_cons fun fd n err heq => by cases heq) not_failsToRead_nil
  · rw [trace_ask hopen] at h
    have h := h.of_cons fun fd n err heq => by cases heq
    rw [run_ask hopen]
    rcases hseek : e.sys t (.lseek fd offset) with ⟨t', r⟩
    dsimp only at h ⊢
    rw [trace_ask hseek] at h
    have h := h.of_cons fun fd n err heq => by cases heq
    rw [run_ask hseek, Env.run_bind]
    rw [Env.trace_bind] at h
    have hfetch : (e.run (Request.fetch fd size.toNat size.toNat []) t').1.2 = -1 := by
      refine run_fetch_fails ?_
      obtain ⟨fd', n, err, hmem⟩ := h
      refine ⟨fd', n, err, (List.mem_append.mp hmem).resolve_right fun hmem => ?_⟩
      -- what follows the loop makes no call
      split at hmem <;> cases hmem
    simp only [hfetch]
    rfl

end Fetching

section Reading
variable {ν τ ν' τ' α : Type} {e : Env Kind ClientSys ν τ} {e' : Env Kind ServerSys ν' τ'}
  {sock : τ → Fd} {self : ClientConnection} {connections : Connections} {fileHandle : FileHandle}

/-- A callback begins, its server is at the head of its loop, and nothing is in flight. -/
def facing (e : Env Kind ClientSys ν τ) (e' : Env Kind ServerSys ν' τ') (host host' : Endian)
    (self : ClientConnection) (callback : AgfsIo α) (w : ν × τ) (w' : ν' × τ') :
    Interaction.Net (e.machine α) (e'.loop (Child.body host')) :=
  ⟨(through host callback, w), (Child.body host' (.serving self), w'), [], []⟩

/-- A callback that makes one request of its server, which has one answer. -/
theorem facing_endsIn {sendAll recvAll : Prop} (he : Orderly e True sendAll) (ho : KeepsObject e sock)
    (he' : Orderly e' recvAll True) (hf' : 0 ≤ self.socket_) (host host' : Endian) {w : ν × τ}
    (hf : 0 ≤ sock w.2) {w' : ν' × τ'} {r : Request} {callback : AgfsIo α} {f : r.Result → α}
    (hcallback : e.Does (through host callback) w.2 [] []
      (r.perform host >>= fun res => .ret (f res)) w.2) (hserves : Serves e' self host' r w'.2)
    {P : Env.Config Kind ClientSys ν τ α → Env.Config Kind ServerSys ν' τ' (Child ⊕ ClientConnection) → Prop}
    (hP : ∀ v v', P (.ret (f (e'.run (r.remote self) w'.2).1), v, w.2)
      (Child.body host' (.serving self), v', (e'.run (r.remote self) w'.2).2)) :
    (facing e e' host host' self callback w w').EndsIn P := by
  obtain ⟨v, s⟩ := w
  obtain ⟨v', s'⟩ := w'
  have hasks := (asks he ho hf host r hserves.plain).bind fun res => .ret (f res)
  have htalks := Env.Talks.round (Env.Asks.tell hcallback hasks) (does_serve he' hf' host' hserves)
  obtain ⟨v₁, v₁', htalk⟩ := htalks v v'
  have hlooped := htalk.map (C := e.machine α) (D := e'.loop (Child.body host')) (f := id)
    (fun hr => hr) fun hr => e'.reaches_loop hr
  exact hlooped.endsIn ⟨rfl, serving_waits he' hf' host' _⟩ (hP v₁ v₁')

private theorem does_agfsRead (host : Endian) (ho : KeepsObject e sock) {s : τ} (hf : 0 ≤ sock s)
    (hs : fileHandle.server ∈ connections) (size : AgsizeT) (offset : Int64) :
    e.Does (through host (agfsRead connections fileHandle size offset)) s [] []
      (ServerConnection.readFile host (cString fileHandle.file) size offset.toUInt64 >>= fun retVal =>
        .ret (readResult retVal)) s := by
  have h := does_usable host ho hf hs fun b => if b then
      AgfsIo.readFile fileHandle.server (cString fileHandle.file) size offset.toUInt64 >>=
        fun retVal => .ret (readResult retVal)
    else .ret ([], Errno.ENOENT.neg.toInt32)
  have hresult (retVal : Bytes × AgerrT) :
      (if 0 ≤ retVal.2 then return (retVal.1, (UInt64.ofNat retVal.1.length).toInt64.toInt32)
        else return ([], retVal.2.toInt32) : AgfsIo (Bytes × Int32)) = .ret (readResult retVal) := by
    unfold readResult
    split <;> rfl
  have hcallback : agfsRead connections fileHandle size offset =
      usable connections fileHandle.server >>= fun b => if b then
          AgfsIo.readFile fileHandle.server (cString fileHandle.file) size offset.toUInt64 >>=
            fun retVal => .ret (readResult retVal)
        else .ret ([], Errno.ENOENT.neg.toInt32) := by
    unfold agfsRead
    simp only [hresult]
    rfl
  rw [hcallback]
  exact h

theorem readResult_got {bs : Bytes} (h : bs.length < 2 ^ 63) :
    readResult (bs, Int64.ofNat bs.length) = (bs, Int32.ofNat bs.length) := by
  rw [readResult, if_pos (int64_ofNat_nonneg h)]
  simp only [UInt64.toInt64_ofNat', Int64.toInt32_ofNat']

variable (he : Orderly e True True) (ho : KeepsObject e sock) (he' : Orderly e' True True)
  (hf' : 0 ≤ self.socket_)
include he ho he' hf'

/-- A read through the file system: on files whose reads deliver, in pieces of any size,
every interleaving ends with just the bytes asked for in the caller's buffer; if a read of
the file fails, every interleaving ends with an error. -/
theorem agfsRead_delivers (host host' : Endian) {w : ν × τ} (hf : 0 ≤ sock w.2)
    (hs : fileHandle.server ∈ connections) (hfile : Addressable fileHandle.file) {size offset : Nat}
    (hsize : size < 2 ^ 31) (hoffset : offset < 2 ^ 63) (w' : ν' × τ') :
    let callback := agfsRead connections fileHandle (UInt64.ofNat size) (Int64.ofNat offset)
    (∀ {ι} (disk : Disk e'.sys ι), disk.Delivers → ∀ {t' fd},
      e'.sys w'.2 (.open (cstr (self.file (cstr fileHandle.file))) O_RDONLY) = (t', .ok fd) →
        ∃ i, disk.cursor t' fd O_RDONLY = some ⟨i, 0⟩ ∧
          (facing e e' host host' self callback w w').EndsIn fun a b =>
            ∃ n v v' t, a = (.ret (slice (disk.contents w'.2 i) offset size, n), v, w.2) ∧
              n.toInt = (slice (disk.contents w'.2 i) offset size).length ∧
              b = (Child.body host' (.serving self), v', t) ∧ disk.contents t = disk.contents w'.2) ∧
    (FailsToRead (e'.trace ((Request.readFile (cString fileHandle.file) (UInt64.ofNat size)
        (Int64.ofNat offset).toUInt64).remote self) w'.2) →
      (facing e e' host host' self callback w w').EndsIn fun a b =>
        ∃ n v v' t, a = (.ret ([], n), v, w.2) ∧ n < 0 ∧
          b = (Child.body host' (.serving self), v', t)) := by
  have hoff : (Int64.ofNat offset).toUInt64.toNat = offset := by
    rw [Int64.toUInt64_ofNat', UInt64.toNat_ofNat_of_lt' (by simp only [UInt64.size]; omega)]
  have hsz : (UInt64.ofNat size).toNat = size :=
    UInt64.toNat_ofNat_of_lt' (by simp only [UInt64.size]; omega)
  have hserves : Serves e' self host' (.readFile (cString fileHandle.file) (UInt64.ofNat size)
      (Int64.ofNat offset).toUInt64) w'.2 :=
    serves_readFile he' hf' host' (cstr_addressable hfile) (by omega) _ _
  have hcallback := does_agfsRead host ho hf hs (UInt64.ofNat size) (Int64.ofNat offset)
  constructor
  · intro ι disk hdelivers t' fd hopen
    obtain ⟨i, t, hcursor, hkeeps, hrun⟩ := run_readFile self (cString fileHandle.file)
      (UInt64.ofNat size) disk hdelivers (by rwa [hoff]) hopen
    rw [hoff, hsz] at hrun
    refine ⟨i, hcursor, facing_endsIn he ho he' hf' host host' hf hcallback hserves fun v v' => ?_⟩
    rw [hrun]
    have hlen : (slice (disk.contents w'.2 i) offset size).length < 2 ^ 31 :=
      (List.length_take_le _ _).trans_lt hsize
    rw [readResult_got (by omega)]
    exact ⟨_, v, v', t, rfl, Int32.toInt_ofNat_of_lt hlen, rfl, hkeeps⟩
  · intro hfails
    refine facing_endsIn he ho he' hf' host host' hf hcallback hserves fun v v' => ?_
    rw [run_readFile_fails self _ _ hfails]
    exact ⟨-1, v, v', _, rfl, by decide, rfl⟩

end Reading

/-- The callback of the next theorem: 4 bytes from place 1 of a file. -/
def readFour : AgfsIo (Bytes × Int32) :=
  agfsRead ((∅ : Connections).insert [0x61] ⟨[0x61], [], []⟩) ⟨[0x61], [0x2F, 0x66]⟩ (UInt64.ofNat 4)
    (Int64.ofNat 1)

/-- A file of three bytes, and a machine on which no read succeeds. -/
theorem agfsRead_delivers_readFour :
    (∃ i, oneFile_disk.cursor ([1, 2, 3], 0) (5 : Nat) O_RDONLY = some ⟨i, 0⟩ ∧
      (facing (.whole ClientSys.object) (.whole oneFile) .little .big ⟨[0x2F], 4, 0⟩ readFour ((), 3)
        ((), ([1, 2, 3], 0))).EndsIn fun a b =>
          ∃ n v v' t, a = (.ret ([2, 3], n), v, 3) ∧ n.toInt = 2 ∧
            b = (Child.body .big (.serving ⟨[0x2F], 4, 0⟩), v', t) ∧
            oneFile_disk.contents t = oneFile_disk.contents ([1, 2, 3], 0)) ∧
    (facing (.whole ClientSys.object) (.whole fun (s : Unit) c => (s, ServerSys.roomy c)) .little .big
      ⟨[0x2F], 4, 0⟩ readFour ((), 3) ((), ())).EndsIn fun a b =>
        ∃ n v v' t, a = (.ret ([], n), v, 3) ∧ n < 0 ∧
          b = (Child.body .big (.serving ⟨[0x2F], 4, 0⟩), v', t) := by
  constructor
  · exact (agfsRead_delivers (Env.whole_prompt _) ClientSys.object_keeps (Env.whole_prompt _) (by decide)
      .little .big (w := ((), 3)) (by decide) Std.TreeMap.mem_insert_self (by decide) (by decide)
      (by decide) _).1 oneFile_disk oneFile_delivers rfl
  · exact (agfsRead_delivers (Env.whole_prompt _) ClientSys.object_keeps (Env.whole_prompt _) (by decide)
      .little .big (w := ((), 3)) (by decide) Std.TreeMap.mem_insert_self (by decide) (by decide)
      (by decide) _).2 ⟨_, _, _, List.mem_cons_of_mem _ (List.mem_cons_of_mem _ List.mem_cons_self)⟩

end AgFS
