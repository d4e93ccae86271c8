import AgFS.Files.Storing

/-! The runs of `processWrite`, and what they make of the file. -/
namespace AgFS
open Interaction ByteOrder Contents Sock

/-- The bytes that each read of a field has stored. -/
def fieldsTaken (t : List ServerEvent) : List Bytes :=
  t.filterMap fun
    | ⟨.recv .field _ _, r⟩ => some (ReadReply.bytes r)
    | _ => none

def SeekFails (t : List ServerEvent) : Prop :=
  ∃ fd offset err, (⟨.sys (.lseek fd offset), Except.error err⟩ : ServerEvent) ∈ t

/-- A file that is open, and where the next write goes. -/
structure OpenFile where
  contents : Bytes
  place : Nat

namespace OpenFile

def after (f : OpenFile) : ServerEvent → OpenFile
  | ⟨.sys (.lseek _ offset), r⟩ =>
    match (r : Except Errno Unit) with
    | .error _ => f
    | .ok _ => { f with place := offset.toNat }
  | ⟨.sys (.write _ bs), r⟩ =>
    let count := storedCount (n := bs.length) r
    ⟨layOver 0 f.contents f.place (bs.take count), f.place + count⟩
  | _ => f

def run (f : OpenFile) (t : List ServerEvent) : OpenFile := t.foldl after f

end OpenFile

/-- Calls that concern neither a field, nor the payload, nor a file. -/
def Idle : SockCall Kind ServerSys → Prop
  | .recv .text _ _ => True
  | .malloc _ => True
  | _ => False

/-- Traces between which none of this can tell. -/
structure SameWrite (t u : List ServerEvent) : Prop where
  taken : fieldsTaken t = fieldsTaken u
  said : fieldsSaid t = fieldsSaid u
  payload : payloadHeard t = payloadHeard u
  writes : fileWrites t = fileWrites u
  opens : Opens t ↔ Opens u
  refuses : Refuses t ↔ Refuses u
  fails : ReadFails t ↔ ReadFails u
  seeks : SeekFails t ↔ SeekFails u
  run (f : OpenFile) : f.run t = f.run u

namespace SameWrite
variable {t u v : List ServerEvent}

private theorem refl (t : List ServerEvent) : SameWrite t t :=
  ⟨rfl, rfl, rfl, rfl, Iff.rfl, Iff.rfl, Iff.rfl, Iff.rfl, fun _ => rfl⟩

private theorem trans (h : SameWrite t u) (h' : SameWrite u v) : SameWrite t v :=
  ⟨h.taken.trans h'.taken, h.said.trans h'.said, h.payload.trans h'.payload, h.writes.trans h'.writes,
    h.opens.trans h'.opens, h.refuses.trans h'.refuses, h.fails.trans h'.fails, h.seeks.trans h'.seeks,
    fun f => (h.run f).trans (h'.run f)⟩

private theorem seekFails_cons {ev : ServerEvent}
    (h : ∀ fd offset err, ev ≠ ⟨.sys (.lseek fd offset), Except.error err⟩) :
    SeekFails (ev :: t) ↔ SeekFails t := by
  constructor
  · rintro ⟨fd, offset, err, hmem⟩
    exact ⟨fd, offset, err, (List.mem_cons.mp hmem).resolve_left fun heq => h fd offset err heq.symm⟩
  · rintro ⟨fd, offset, err, hmem⟩
    exact ⟨fd, offset, err, List.mem_cons_of_mem _ hmem⟩

private theorem idle {ev : ServerEvent} (h : Idle ev.call) (t : List ServerEvent) : SameWrite (ev :: t) t := by
  obtain ⟨call, r⟩ := ev
  cases call with
  | recv m fd n =>
    cases m with
    | text =>
      have hsame := SameUse.cons (⟨.recv .text fd n, r⟩ : ServerEvent) trivial t
      have hpayload : payloadHeard (⟨.recv .text fd n, r⟩ :: t) = payloadHeard t := by
        rw [payloadHeard, heard, only_append, only_mark]
        rfl
      exact ⟨rfl, rfl, hpayload, rfl, hsame.opens, hsame.refuses, readFails_cons (by rintro _ _ _ ⟨⟩),
        seekFails_cons (by rintro _ _ _ ⟨⟩), fun _ => rfl⟩
    | _ => exact h.elim
  | malloc n =>
    have hsame := SameUse.cons (⟨.malloc n, r⟩ : ServerEvent) trivial t
    exact ⟨rfl, rfl, rfl, rfl, hsame.opens, hsame.refuses, readFails_cons (by rintro _ _ _ ⟨⟩),
      seekFails_cons (by rintro _ _ _ ⟨⟩), fun _ => rfl⟩
  | _ => exact h.elim

private theorem append (h : ∀ ev ∈ t, Idle ev.call) (u : List ServerEvent) : SameWrite (t ++ u) u := by
  induction t with
  | nil => exact .refl u
  | cons ev t ih =>
    obtain ⟨hev, ht⟩ := List.forall_mem_cons.mp h
    exact (idle hev _).trans (ih ht)

theorem left (h : SameWrite t u) (v : List ServerEvent) : SameWrite (v ++ t) (v ++ u) where
  taken := by rw [fieldsTaken, fieldsTaken, List.filterMap_append, List.filterMap_append]; exact congrArg _ h.taken
  said := by rw [fieldsSaid, fieldsSaid, List.filterMap_append, List.filterMap_append]; exact congrArg _ h.said
  payload := by rw [payloadHeard_append, payloadHeard_append, h.payload]
  writes := by rw [fileWrites_append, fileWrites_append, h.writes]
  opens := by
    have hopens := h.opens
    simp only [Opens, List.mem_append, exists_or] at hopens ⊢
    rw [hopens]
  refuses := by rw [refuses_append, refuses_append, h.refuses]
  fails := by rw [readFails_append, readFails_append, h.fails]
  seeks := by
    have hseeks := h.seeks
    simp only [SeekFails, List.mem_append, exists_or] at hseeks ⊢
    rw [hseeks]
  run f := by rw [OpenFile.run, OpenFile.run, List.foldl_append, List.foldl_append]; exact h.run _

end SameWrite

section Handler
variable {host : Endian} {self : ClientConnection} {t : List ServerEvent}

private theorem runs_readSize {fd : Fd} {old : AgsizeT} {p : Int32 × AgsizeT}
    (h : Runs (agfsReadSize host fd old : ServerIo _) t (.ret p)) :
    ∃ r : ReadReply 8, t = [⟨.recv .field fd 8, r⟩] ∧
      p = (r.int, be64toh (overlay (host.store 8 old.toNat) r.bytes)) := by
  obtain ⟨r, u, rfl, h₁⟩ := Sock.runs_recv.mp h
  obtain ⟨rfl, hret⟩ := Runs.ret_iff.mp h₁
  cases hret
  exact ⟨r, rfl, rfl⟩

private theorem runs_writeError {fd : Fd} {err : AgerrT} {n : Int32}
    (h : Runs (agfsWriteError fd err : ServerIo _) t (.ret n)) :
    ∃ r, t = [⟨.send .field fd (htobe64 err.toUInt64), r⟩] := by
  obtain ⟨r, u, rfl, h₁⟩ := Sock.runs_send.mp h
  obtain ⟨rfl, -⟩ := Runs.ret_iff.mp h₁
  exact ⟨r, rfl⟩

private theorem runs_writeSize {fd : Fd} {size : AgsizeT} {n : Int32}
    (h : Runs (agfsWriteSize fd size : ServerIo _) t (.ret n)) :
    ∃ r, t = [⟨.send .field fd (htobe64 size), r⟩] := by
  obtain ⟨r, u, rfl, h₁⟩ := Sock.runs_send.mp h
  obtain ⟨rfl, -⟩ := Runs.ret_iff.mp h₁
  exact ⟨r, rfl⟩

theorem readString_sameWrite {fd : Fd} {str : Str} {p : Int32 × Str}
    (h : Runs (agfsReadString host fd str : ServerIo _) t (.ret p)) :
    ∃ r : ReadReply 8, ∀ u, SameWrite (t ++ u) (⟨.recv .field fd 8, r⟩ :: u) := by
  obtain ⟨t₁, t₂, ⟨err, pathLen⟩, rfl, h₁, h₂⟩ := Runs.bind_ret_iff.mp h
  obtain ⟨r, rfl, -⟩ := runs_readSize h₁
  refine ⟨r, fun u => ?_⟩
  have hidle : ∀ ev ∈ t₂, Idle ev.call := by
    dsimp only at h₂
    split at h₂
    · obtain ⟨rfl, -⟩ := Runs.ret_iff.mp h₂
      exact List.forall_mem_nil _
    · obtain ⟨block, t₃, rfl, h₃⟩ := Sock.runs_malloc.mp h₂
      cases block with
      | none => exact (Sock.not_runs_abort h₃).elim
      | some block =>
        obtain ⟨r', t₄, rfl, h₄⟩ := Sock.runs_recv.mp h₃
        have hlast : t₄ = [] := by
          split at h₄
          · rw [Sock.abort_bind] at h₄
            exact (Sock.not_runs_abort h₄).elim
          · split at h₄ <;> exact (Runs.ret_iff.mp h₄).1
        subst hlast
        exact List.forall_mem_cons.mpr ⟨trivial, List.forall_mem_cons.mpr ⟨trivial, List.forall_mem_nil _⟩⟩
  exact (SameWrite.append hidle u).left [_]

private theorem vectorResize_idle {n : Nat} {bs : Bytes} (h : Runs (vectorResize n : ServerIo _) t (.ret bs)) :
    n < 2 ^ 63 ∧ ∀ ev ∈ t, Idle ev.call := by
  rw [vectorResize] at h
  split at h
  · next hzero =>
    obtain ⟨rfl, -⟩ := Runs.ret_iff.mp h
    exact ⟨by omega, List.forall_mem_nil _⟩
  · split at h
    · rw [Sock.abort_bind] at h
      exact (Sock.not_runs_abort h).elim
    · next hlt =>
      obtain ⟨block, u, rfl, h₁⟩ := Sock.runs_malloc.mp h
      cases block with
      | none => exact (Sock.not_runs_abort h₁).elim
      | some block =>
        obtain ⟨rfl, -⟩ := Runs.ret_iff.mp h₁
        exact ⟨by omega, List.forall_mem_cons.mpr ⟨trivial, List.forall_mem_nil _⟩⟩

/-- What `processWrite` has done when its file opens: the fields it has read, with what the loop
did in between the place it took in the file and its report. -/
structure Receives (host : Endian) (conn : ClientConnection) (t : List ServerEvent) where
  length : ReadReply 8
  path : Str
  fd : Nat
  sent : WriteReply (htobe64 (0 : AgerrT).toUInt64).length
  size : ReadReply 8
  offset : ReadReply 8
  seek : Except Errno Unit
  loop : List ServerEvent
  stored : ClientConnection.Stored
  rest : List ServerEvent
  same : SameWrite t ([⟨.recv .field conn.socket_ 8, length⟩, ⟨.sys (.open path O_WRONLY), Except.ok fd⟩,
    ⟨.send .field conn.socket_ (htobe64 (0 : AgerrT).toUInt64), sent⟩,
    ⟨.recv .field conn.socket_ 8, size⟩, ⟨.recv .field conn.socket_ 8, offset⟩,
    ⟨.sys (.lseek fd (be64toh (overlay (host.store 8 (0 : AgsizeT).toNat) offset.bytes))), seek⟩] ++
      (loop ++ rest))
  storing : Storing (be64toh (overlay (host.store 8 (0 : AgsizeT).toNat) size.bytes)).toNat 0 loop stored
  refuses : Refuses loop ↔ ∃ err, stored = .refused err
  calls : ∀ ev ∈ loop, Within (fun c : ServerCall => c = .errno ∨ ∃ fd bs, c = .write fd bs) ev.call
  finish : Runs (conn.finishWrite fd stored) rest (.ret ())

theorem processWrite_trace (h : Runs (self.processWrite host) t (.ret ())) :
    (¬ Opens t ∧ ∃ err, fieldsSaid t = [err]) ∨ Nonempty (Receives host self t) := by
  obtain ⟨t₁, u₁, read, rfl, h₁, k₁⟩ := Runs.bind_ret_iff.mp h
  obtain ⟨length, hpath⟩ := readString_sameWrite h₁
  obtain ⟨r, u₂, rfl, k₂⟩ := Sock.runs_sys.mp k₁
  cases r with
  | error err =>
    obtain ⟨t₂, u₃, n, rfl, h₂, k₃⟩ := Runs.bind_ret_iff.mp k₂
    obtain ⟨sent, rfl⟩ := runs_writeError h₂
    obtain ⟨rfl, -⟩ := Runs.ret_iff.mp k₃
    have hsame := hpath (⟨.sys (.open (cstr (self.file read.2)) O_WRONLY), Except.error err⟩ ::
      [⟨.send .field self.socket_ (htobe64 err.neg.toUInt64), sent⟩])
    refine .inl ⟨?_, _, hsame.said⟩
    rw [List.append_nil, hsame.opens]
    rintro ⟨_, _, _, hmem⟩
    rcases List.mem_cons.mp hmem with heq | hmem
    · cases heq
    rcases List.mem_cons.mp hmem with heq | hmem
    · cases heq
    · cases List.mem_singleton.mp hmem
  | ok fd =>
    obtain ⟨t₂, u₃, _, rfl, h₂, k₃⟩ := Runs.bind_ret_iff.mp k₂
    obtain ⟨sent, rfl⟩ := runs_writeError h₂
    obtain ⟨t₃, u₄, _, rfl, h₃, k₄⟩ := Runs.bind_ret_iff.mp k₃
    obtain ⟨size, rfl, rfl⟩ := runs_readSize h₃
    obtain ⟨t₄, u₅, _, rfl, h₄, k₅⟩ := Runs.bind_ret_iff.mp k₄
    obtain ⟨offset, rfl, rfl⟩ := runs_readSize h₄
    obtain ⟨seek, u₆, rfl, k₆⟩ := Sock.runs_sys.mp k₅
    obtain ⟨t₅, u₇, _, rfl, h₅, k₇⟩ := Runs.bind_ret_iff.mp k₆
    obtain ⟨hlong, hidle⟩ := vectorResize_idle h₅
    obtain ⟨loop, rest, stored, rfl, hloop, hfinish⟩ := Runs.bind_ret_iff.mp k₇
    refine .inr ⟨⟨length, cstr (self.file read.2), fd, sent, size, offset, seek, loop, stored, rest, ?_,
      storeLoop_storing hloop hlong (by decide), storeLoop_refuses hloop, ?_, hfinish⟩⟩
    · exact (hpath _).trans ((SameWrite.append hidle _).left [_, _, _, _, _, _])
    · exact (only_storeLoop (fun _ => trivial) (fun bs => .inr ⟨_, bs, rfl⟩) (.inl rfl) ..).runs hloop

/-- What the handler sends when its loop has ended. -/
inductive Finish (socket fd : Fd) : ClientConnection.Stored → List ServerEvent → Prop
  | refused {err : AgerrT} {r : WriteReply (htobe64 err.toUInt64).length} :
    Finish socket fd (.refused err) [⟨.send .field socket (htobe64 err.toUInt64), r⟩]
  | fails {err : AgerrT} {n : AgsizeT} {c : Unit} {r : WriteReply (htobe64 err.toUInt64).length}
      (herr : ¬ 0 ≤ err) :
    Finish socket fd (.ended err n)
      [⟨.sys (.close fd), c⟩, ⟨.send .field socket (htobe64 err.toUInt64), r⟩]
  | reports {err : AgerrT} {n : AgsizeT} {c : Unit} {r : WriteReply (htobe64 err.toUInt64).length}
      {r' : WriteReply (htobe64 n).length} (herr : 0 ≤ err) :
    Finish socket fd (.ended err n)
      [⟨.sys (.close fd), c⟩, ⟨.send .field socket (htobe64 err.toUInt64), r⟩,
        ⟨.send .field socket (htobe64 n), r'⟩]

theorem finishWrite_finish {fd : Fd} {stored : ClientConnection.Stored}
    (h : Runs (self.finishWrite fd stored) t (.ret ())) : Finish self.socket_ fd stored t := by
  cases stored with
  | refused err =>
    obtain ⟨t₁, t₂, n, rfl, h₁, h₂⟩ := Runs.bind_ret_iff.mp h
    obtain ⟨r, rfl⟩ := runs_writeError h₁
    obtain ⟨rfl, -⟩ := Runs.ret_iff.mp h₂
    exact .refused
  | ended err n =>
    obtain ⟨c, t₁, rfl, h₁⟩ := Sock.runs_sys.mp h
    obtain ⟨t₂, t₃, m, rfl, h₂, h₃⟩ := Runs.bind_ret_iff.mp h₁
    obtain ⟨r, rfl⟩ := runs_writeError h₂
    split at h₃
    · next herr =>
      obtain ⟨t₄, t₅, m', rfl, h₄, h₅⟩ := Runs.bind_ret_iff.mp h₃
      obtain ⟨r', rfl⟩ := runs_writeSize h₄
      obtain ⟨rfl, -⟩ := Runs.ret_iff.mp h₅
      exact .reports herr
    · next herr =>
      obtain ⟨rfl, -⟩ := Runs.ret_iff.mp h₃
      exact .fails herr

/-- Nothing of what the handler does after its loop concerns the file. -/
structure AfterLoop (t : List ServerEvent) : Prop where
  payload : payloadHeard t = []
  writes : fileWrites t = []
  fails : ¬ ReadFails t
  refuses : ¬ Refuses t
  seeks : ¬ SeekFails t
  run (f : OpenFile) : f.run t = f

private theorem Finish.afterLoop {socket fd : Fd} {stored : ClientConnection.Stored} (h : Finish socket fd stored t) :
    AfterLoop t := by
  cases h
  all_goals
    refine ⟨rfl, rfl, ?_, ?_, ?_, fun _ => rfl⟩
    · rintro ⟨_, _, _, hmem⟩
      simp at hmem
    · rintro ⟨_, _, _, hmem, -⟩
      simp at hmem
    · rintro ⟨_, _, _, hmem⟩
      simp at hmem

theorem OpenFile.run_writes (f : OpenFile) (h : ∀ ev ∈ t, ∀ fd offset, ev.call ≠ .sys (.lseek fd offset)) :
    f.run t = ⟨layOver 0 f.contents f.place (keptParts (fileWrites t)),
      f.place + keptLength (fileWrites t)⟩ := by
  induction t generalizing f with
  | nil => rw [fileWrites, List.filterMap_nil, keptParts, List.flatMap_nil, layOver_nil]; rfl
  | cons ev t ih =>
    obtain ⟨hev, ht⟩ := List.forall_mem_cons.mp h
    obtain ⟨call, r⟩ := ev
    cases call with
    | sys c =>
      cases c with
      | lseek fd offset => exact absurd rfl (hev fd offset)
      | write fd bs =>
        have hcount : storedCount (n := bs.length) r ≤ bs.length :=
          fileWrites_kept [⟨.sys (.write fd bs), r⟩] _ (List.mem_singleton_self _)
        have hlength : (bs.take (storedCount (n := bs.length) r)).length = storedCount (n := bs.length) r := by
          rw [List.length_take, Nat.min_eq_left hcount]
        have hwrites : fileWrites (⟨.sys (.write fd bs), r⟩ :: t) =
            (bs, storedCount (n := bs.length) r) :: fileWrites t := rfl
        have hafter : f.after ⟨.sys (.write fd bs), r⟩ =
            ⟨layOver 0 f.contents f.place (bs.take (storedCount (n := bs.length) r)),
              f.place + storedCount (n := bs.length) r⟩ := rfl
        rw [OpenFile.run, List.foldl_cons, hafter]
        change OpenFile.run _ t = _
        rw [ih _ ht, hwrites, keptParts_cons, keptLength_cons, ← layOver_append, hlength, Nat.add_assoc]
      | _ => exact ih f ht
    | _ => exact ih f ht

namespace Receives
variable (w : Receives host self t)

def place : AgsizeT := be64toh (overlay (host.store 8 (0 : AgsizeT).toNat) w.offset.bytes)

private theorem after : AfterLoop w.rest := (finishWrite_finish w.finish).afterLoop

theorem taken : (fieldsTaken t)[2]? = some w.offset.bytes := by
  rw [w.same.taken]
  rfl

theorem said : fieldsSaid t = htobe64 (0 : AgerrT).toUInt64 :: fieldsSaid w.rest := by
  have hloop : fieldsSaid (w.loop ++ w.rest) = fieldsSaid w.rest := by
    rw [fieldsSaid, List.filterMap_append]
    exact congrArg (· ++ fieldsSaid w.rest) w.storing.said
  rw [w.same.said]
  exact congrArg (htobe64 (0 : AgerrT).toUInt64 :: ·) hloop

theorem payload : payloadHeard t = payloadHeard w.loop := by
  have hloop : payloadHeard (w.loop ++ w.rest) = payloadHeard w.loop := by
    rw [payloadHeard_append, w.after.payload, List.append_nil]
  rw [w.same.payload, payloadHeard_append, hloop]
  simp [payloadHeard, heard, only_append, only_mark]

theorem writes : fileWrites t = fileWrites w.loop := by
  rw [w.same.writes, fileWrites_append, fileWrites_append, w.after.writes, List.append_nil]
  rfl

theorem opens (w : Receives host self t) : Opens t := by
  rw [w.same.opens]
  exact ⟨w.path, O_WRONLY, w.fd, by simp⟩

theorem refuses_iff : Refuses t ↔ Refuses w.loop := by
  rw [w.same.refuses, refuses_append, refuses_append, or_iff_left w.after.refuses, or_iff_right]
  rintro ⟨_, _, _, hmem, -⟩
  simp at hmem

theorem fails_iff : ReadFails t ↔ ReadFails w.loop := by
  rw [w.same.fails, readFails_append, readFails_append, or_iff_left w.after.fails, or_iff_right]
  rintro ⟨_, _, _, hmem⟩
  simp at hmem

private theorem loop_calls {ev : ServerEvent} (hev : ev ∈ w.loop) (fd : Fd) (offset : AgsizeT) :
    ev.call ≠ .sys (.lseek fd offset) := by
  intro hcall
  have hwithin := w.calls ev hev
  rw [hcall] at hwithin
  rcases hwithin with hwithin | ⟨_, _, hwithin⟩ <;> cases hwithin

theorem seeks_iff : SeekFails t ↔ ∃ err, w.seek = .error err := by
  have hloop : ¬ SeekFails (w.loop ++ w.rest) := by
    rintro ⟨fd, offset, err, hmem⟩
    rcases List.mem_append.mp hmem with hmem | hmem
    · exact w.loop_calls hmem fd offset rfl
    · exact w.after.seeks ⟨fd, offset, err, hmem⟩
  rw [w.same.seeks]
  constructor
  · rintro ⟨fd, offset, err, hmem⟩
    rcases List.mem_append.mp hmem with hmem | hmem
    · have heq : (fd = w.fd ∧ offset = w.place) ∧ Except.error err = w.seek := by
        simpa [place] using hmem
      exact ⟨err, heq.2.symm⟩
    · exact absurd ⟨fd, offset, err, hmem⟩ hloop
  · rintro ⟨err, heq⟩
    exact ⟨w.fd, w.place, err, List.mem_append_left _ (by simp [heq, place])⟩

theorem contents (held : Bytes) : ((OpenFile.mk held 0).run t).contents =
    layOver 0 held (w.seek.toOption.elim 0 fun _ => w.place.toNat) (keptParts (fileWrites t)) := by
  rw [w.same.run, OpenFile.run, List.foldl_append, List.foldl_append]
  change (OpenFile.run _ w.rest).contents = _
  rw [w.after.run, w.writes]
  change (OpenFile.run _ w.loop).contents = _
  rw [OpenFile.run_writes _ fun ev hev => w.loop_calls hev]
  cases hseek : w.seek with
  | error err => simp [List.foldl, OpenFile.after, Except.toOption]
  | ok u => simp [List.foldl, OpenFile.after, Except.toOption, place]

theorem count {e : AgerrT} {n : AgsizeT} (h : w.stored = .ended e n) :
    n.toNat = keptLength (fileWrites t) := by
  have hkept := keptLength_le (fileWrites_kept w.loop)
  rw [← w.storing.payload] at hkept
  have hshort := w.storing.short
  have hsize := (be64toh (overlay (host.store 8 (0 : AgsizeT).toNat) w.size.bytes)).toNat_lt
  rw [w.storing.count h, UInt64.zero_add, w.writes]
  exact UInt64.toNat_ofNat_of_lt' (by simp only [UInt64.size]; omega)

end Receives

end Handler
end AgFS
