import AgFS.Codec.FreshFields

/-! The decoders whose variables start out with whatever memory holds: `agfs_read_stat`, and all of
them together. -/
namespace AgFS
open Interaction ByteOrder Sock

section ReadStat
variable {L : Signature} {host : Endian} {fd : Fd} {t : List (Event (Sock Kind L))}

/-- `agfs_read_stat` after `dev` and `mode`. -/
def statRest (host : Endian) (fd : Fd) (dev : UInt64) (mode : UInt32) (totalRead : Int32) : Io L (Int32 × Stat) := do
  let (temp, size) ← agfsReadSize host fd 0
  if temp < 0 then return (temp, Stat.zero)
  let totalRead := totalRead + temp
  let r ← Sock.recv .field fd 8
  let temp := r.int
  if temp < 0 then return (temp, Stat.zero)
  let atime := be64toh (overlay (host.store 8 0) r.bytes)
  let totalRead := totalRead + temp
  let r ← Sock.recv .field fd 8
  let temp := r.int
  if temp < 0 then return (temp, Stat.zero)
  let mtime := be64toh (overlay (host.store 8 0) r.bytes)
  let totalRead := totalRead + temp
  let r ← Sock.recv .field fd 8
  let temp := r.int
  if temp < 0 then return (temp, Stat.zero)
  let ctimestamp := be64toh (overlay (host.store 8 0) r.bytes)
  let totalRead := totalRead + temp
  return (totalRead, { Stat.zero with
    stSize := size.toInt64, stMode := mode, stDev := dev
    stAtime := atime.toInt64, stMtime := mtime.toInt64, stCtime := ctimestamp.toInt64 })

private theorem readStat_eq :
    (agfsReadStat host fd : Io L _) = Sock.scratch 8 >>= fun dev => Sock.recv .field fd 8 >>= fun r =>
    if r.int < 0 then .ret (r.int, Stat.zero) else Sock.scratch 4 >>= fun mode => Sock.recv .field fd 4 >>= fun r' =>
      if r'.int < 0 then .ret (r'.int, Stat.zero) else
        statRest host fd (be64toh (overlay dev.1 r.bytes)) (be32toh (overlay mode.1 r'.bytes)) (r.int + r'.int) := rfl

/-- A program that hands on `dev` and `mode` as they are, unless a read of its own fails. -/
def HandsOn (p : UInt64 → UInt32 → Io L (Int32 × Stat)) : Prop :=
  ∀ t dev mode a, Runs (p dev mode) t (.ret a) →
    (none ∈ readCounts t ∧ ∀ dev' mode', Runs (p dev' mode') t (.ret a)) ∨
      (none ∉ readCounts t ∧ a.2.stDev = dev ∧ a.2.stMode = mode ∧
        ∀ dev' mode', Runs (p dev' mode') t (.ret (a.1, { a.2 with stDev := dev', stMode := mode' })))

private theorem handsOn_ret (n : Int32) (st : Stat) :
    HandsOn fun dev mode => (.ret (n, { st with stDev := dev, stMode := mode }) : Io L _) := by
  intro t dev mode a h
  obtain ⟨rfl, hret⟩ := Runs.ret_iff.mp h
  cases hret
  exact .inr ⟨List.not_mem_nil, rfl, rfl, fun dev' mode' => .refl _⟩

private theorem handsOn_field {k : Nat} (hk : k < 2 ^ 31) {g : ReadReply k → UInt64 → UInt32 → Io L (Int32 × Stat)}
    (hg : ∀ r, HandsOn (g r)) :
    HandsOn fun dev mode => Sock.recv .field fd k >>= fun r =>
      if r.int < 0 then .ret (r.int, Stat.zero) else g r dev mode := by
  intro t dev mode a h
  obtain ⟨r, u, rfl, hu⟩ := runs_recv.mp h
  rw [readCounts_recv]
  by_cases hneg : r.int < 0
  · rw [if_pos hneg] at hu
    refine .inl ⟨(countOf_eq_none hk r).mpr hneg ▸ List.mem_cons_self, fun dev' mode' => .step r ?_⟩
    change Runs (if r.int < 0 then _ else _) _ _
    rwa [if_pos hneg]
  · rw [if_neg hneg] at hu
    have hread : none ≠ countOf r := fun hnone => hneg ((countOf_eq_none hk r).mp hnone.symm)
    have goesOn {dev' : UInt64} {mode' : UInt32} {b : Int32 × Stat} (hb : Runs (g r dev' mode') u (.ret b)) :
        Runs (Sock.recv .field fd k >>= fun r => if r.int < 0 then .ret (r.int, Stat.zero) else g r dev' mode')
          (⟨.recv .field fd k, r⟩ :: u) (.ret b) := by
      refine .step r ?_
      change Runs (if r.int < 0 then _ else _) _ _
      rwa [if_neg hneg]
    rcases hg r u dev mode a hu with ⟨hfail, hall⟩ | ⟨hnone, hdev, hmode, hall⟩
    · exact .inl ⟨List.mem_cons_of_mem _ hfail, fun dev' mode' => goesOn (hall dev' mode')⟩
    · exact .inr ⟨List.not_mem_cons_of_ne_of_not_mem hread hnone, hdev, hmode, fun dev' mode' =>
        goesOn (hall dev' mode')⟩

private theorem handsOn_statRest (n : Int32) : HandsOn fun dev mode => (statRest host fd dev mode n : Io L _) := by
  refine handsOn_field (k := 8) (by decide) fun size => ?_
  refine handsOn_field (k := 8) (by decide) fun atime => ?_
  refine handsOn_field (k := 8) (by decide) fun mtime => ?_
  refine handsOn_field (k := 8) (by decide) fun ctime => ?_
  exact handsOn_ret _ { Stat.zero with
    stSize := (be64toh (overlay (host.store 8 0) size.bytes)).toInt64
    stAtime := (be64toh (overlay (host.store 8 0) atime.bytes)).toInt64
    stMtime := (be64toh (overlay (host.store 8 0) mtime.bytes)).toInt64
    stCtime := (be64toh (overlay (host.store 8 0) ctime.bytes)).toInt64 }

private theorem statRest_remembering (dev : UInt64) (mode : UInt32) (n : Int32) :
    (statRest host fd dev mode n : Io L _).Only Remembering := by
  refine ⟨trivial, fun size => .ite trivial ?_⟩
  refine ⟨trivial, fun atime => .ite trivial ?_⟩
  refine ⟨trivial, fun mtime => .ite trivial ?_⟩
  exact ⟨trivial, fun ctime => .ite trivial trivial⟩

/-- The calls of `agfs_read_stat` up to its second field, and the rest. -/
def statTrace (fd : Fd) (dev : Block 8) (r : ReadReply 8) (mode : Block 4) (r' : ReadReply 4)
    (v : List (Event (Sock Kind L))) : List (Event (Sock Kind L)) :=
  ⟨.scratch 8, dev⟩ :: ⟨.recv .field fd 8, r⟩ :: ⟨.scratch 4, mode⟩ :: ⟨.recv .field fd 4, r'⟩ :: v

private theorem readStat_goes {r : ReadReply 8} (hr : ¬ r.int < 0) {r' : ReadReply 4} (hr' : ¬ r'.int < 0)
    (dev : Block 8) (mode : Block 4) {v : List (Event (Sock Kind L))} {a : Int32 × Stat}
    (h : Runs (statRest host fd (be64toh (overlay dev.1 r.bytes)) (be32toh (overlay mode.1 r'.bytes))
      (r.int + r'.int) : Io L _) v (.ret a)) :
    Runs (agfsReadStat host fd : Io L _) (statTrace fd dev r mode r' v) (.ret a) := by
  rw [readStat_eq]
  apply Runs.step
  apply Runs.step
  change Runs (if r.int < 0 then _ else _) _ _
  rw [if_neg hr]
  apply Runs.step
  apply Runs.step
  change Runs (if r'.int < 0 then _ else _) _ _
  rwa [if_neg hr']

private theorem readStat_cases {a : Int32 × Stat} (h : Runs (agfsReadStat host fd : Io L _) t (.ret a)) :
    (∃ (dev : Block 8) (r : ReadReply 8), r.int < 0 ∧ t = [⟨.scratch 8, dev⟩, ⟨.recv .field fd 8, r⟩] ∧
        a = (r.int, Stat.zero)) ∨
      (∃ dev r mode r', ¬ r.int < 0 ∧ r'.int < 0 ∧ t = statTrace fd dev r mode r' [] ∧ a = (r'.int, Stat.zero)) ∨
      ∃ dev r mode r' v, ¬ r.int < 0 ∧ ¬ r'.int < 0 ∧ t = statTrace fd dev r mode r' v ∧
        Runs (statRest host fd (be64toh (overlay dev.1 r.bytes)) (be32toh (overlay mode.1 r'.bytes))
          (r.int + r'.int) : Io L _) v (.ret a) := by
  rw [readStat_eq] at h
  obtain ⟨dev, t₁, rfl, h₁⟩ := runs_scratch.mp h
  obtain ⟨r, t₂, rfl, h₂⟩ := runs_recv.mp h₁
  by_cases hr : r.int < 0
  · rw [if_pos hr] at h₂
    obtain ⟨rfl, hret⟩ := Runs.ret_iff.mp h₂
    cases hret
    exact .inl ⟨dev, r, hr, rfl, rfl⟩
  · rw [if_neg hr] at h₂
    obtain ⟨mode, t₃, rfl, h₃⟩ := runs_scratch.mp h₂
    obtain ⟨r', t₄, rfl, h₄⟩ := runs_recv.mp h₃
    by_cases hr' : r'.int < 0
    · rw [if_pos hr'] at h₄
      obtain ⟨rfl, hret⟩ := Runs.ret_iff.mp h₄
      cases hret
      exact .inr (.inl ⟨dev, r, mode, r', hr, hr', rfl, rfl⟩)
    · rw [if_neg hr'] at h₄
      exact .inr (.inr ⟨dev, r, mode, r', t₄, hr, hr', rfl, h₄⟩)

private theorem readCounts_statTrace (dev : Block 8) (r : ReadReply 8) (mode : Block 4) (r' : ReadReply 4)
    (v : List (Event (Sock Kind L))) :
    readCounts (statTrace fd dev r mode r' v) = countOf r :: countOf r' :: readCounts v := by
  change readCounts (⟨.recv .field fd 8, r⟩ :: ⟨.scratch 4, mode⟩ :: ⟨.recv .field fd 4, r'⟩ :: v) = _
  rw [readCounts_recv]
  exact congrArg (countOf r :: ·) (readCounts_recv r' v)

theorem apart_statTrace {dev : Block 8} {r : ReadReply 8} {mode : Block 4} {r' : ReadReply 4}
    {u v : List (Event (Sock Kind L))} (hv : ∀ ev ∈ v, Remembering ev.call)
    (h : SameButMemory (statTrace fd dev r mode r' v) u) :
    ∃ dev' mode', u = statTrace fd dev' r mode' r' v := by
  obtain ⟨dev', u₁, rfl, h₁⟩ := apart_scratch h
  obtain ⟨u₂, rfl, h₂⟩ := apart_recv h₁
  obtain ⟨mode', u₃, rfl, h₃⟩ := apart_scratch h₂
  obtain ⟨u₄, rfl, h₄⟩ := apart_recv h₃
  obtain rfl := h₄.eq hv
  exact ⟨dev', mode', rfl⟩

private theorem statTrace_apart (dev dev' : Block 8) (r : ReadReply 8) (mode mode' : Block 4) (r' : ReadReply 4)
    (v : List (Event (Sock Kind L))) :
    SameButMemory (statTrace fd dev r mode r' v) (statTrace fd dev' r mode' r' v) :=
  .cons (.scratch dev dev') (.cons (.same _) (.cons (.scratch mode mode') (SameButMemory.refl _)))

/-- Where all runs that differ from a trace in memory return the same, it is free of memory. -/
theorem memoryFree_of_returns {α : Type} {p : Io L α} (a : α)
    (h : ∀ u b, SameButMemory t u → Runs p u (.ret b) → b = a) : MemoryFree p Prog.returned t := by
  intro u u' q q' b b' hu hu' hq hq' hb hb'
  rw [Prog.returned_eq_some] at hb hb'
  subst hb hb'
  rw [h u b hu hq, h u' b' hu' hq']

private theorem readStat_memoryFree_iff {a : Int32 × Stat} (h : Runs (agfsReadStat host fd : Io L _) t (.ret a)) :
    MemoryFree (agfsReadStat host fd : Io L _) Prog.returned t ↔
      none ∈ readCounts t ∨ [some 8, some 4] <+: readCounts t := by
  rcases readStat_cases h with ⟨dev, r, hr, rfl, rfl⟩ | ⟨dev, r, mode, r', hr, hr', rfl, rfl⟩ |
    ⟨dev, r, mode, r', v, hr, hr', rfl, hrest⟩
  · refine iff_of_true (memoryFree_of_returns (r.int, Stat.zero) fun u b hu hb => ?_) (.inl ?_)
    · obtain ⟨dev', u₁, rfl, h₁⟩ := apart_scratch hu
      obtain ⟨u₂, rfl, hnil⟩ := apart_recv h₁
      cases hnil
      rcases readStat_cases hb with ⟨_, _, -, heq, rfl⟩ | ⟨_, _, _, _, -, -, heq, -⟩ | ⟨_, _, _, _, _, -, -, heq, -⟩
      · cases heq
        rfl
      · cases heq
      · cases heq
    · change none ∈ readCounts [(⟨.recv .field fd 8, r⟩ : Event (Sock Kind L))]
      rw [readCounts_recv, (countOf_eq_none (by decide) r).mpr hr]
      exact List.mem_cons_self
  · refine iff_of_true (memoryFree_of_returns (r'.int, Stat.zero) fun u b hu hb => ?_) (.inl ?_)
    · obtain ⟨dev', mode', rfl⟩ := apart_statTrace (by simp) hu
      rcases readStat_cases hb with ⟨_, _, -, heq, -⟩ | ⟨_, _, _, _, -, -, heq, rfl⟩ | ⟨_, _, _, _, _, -, hpos, heq, -⟩
      · cases heq
      · cases heq
        rfl
      · cases heq
        exact absurd hr' hpos
    · rw [readCounts_statTrace, (countOf_eq_none (by decide) r').mpr hr']
      exact List.mem_cons_of_mem _ List.mem_cons_self
  · have hremembering := (statRest_remembering _ _ _).runs hrest
    have hfirst : none ≠ countOf r := fun hnone => hr ((countOf_eq_none (by decide) r).mp hnone.symm)
    have hsecond : none ≠ countOf r' := fun hnone => hr' ((countOf_eq_none (by decide) r').mp hnone.symm)
    rw [readCounts_statTrace]
    rcases handsOn_statRest _ v _ _ a hrest with ⟨hfail, hall⟩ | ⟨hnone, -, -, hall⟩
    · refine iff_of_true (memoryFree_of_returns a fun u b hu hb => ?_)
        (.inl (List.mem_cons_of_mem _ (List.mem_cons_of_mem _ hfail)))
      obtain ⟨dev', mode', rfl⟩ := apart_statTrace hremembering hu
      exact Runs.ret_unique hb (readStat_goes hr hr' dev' mode' (hall _ _))
    · have hpresent : none ∉ countOf r :: countOf r' :: readCounts v :=
        List.not_mem_cons_of_ne_of_not_mem hfirst (List.not_mem_cons_of_ne_of_not_mem hsecond hnone)
      rw [or_iff_right hpresent, List.cons_prefix_cons, List.cons_prefix_cons, eq_comm,
        countOf_eq_iff (by decide), eq_comm (a := some 4), countOf_eq_iff (by decide)]
      have returns (dev' : Block 8) (mode' : Block 4) := readStat_goes hr hr' dev' mode' (hall
        (be64toh (overlay dev'.1 r.bytes)) (be32toh (overlay mode'.1 r'.bytes)))
      constructor
      · intro hfree
        let devs (b : UInt8) : Block 8 := ⟨List.replicate 8 b, List.length_replicate⟩
        let modes (b : UInt8) : Block 4 := ⟨List.replicate 4 b, List.length_replicate⟩
        have hsame := hfree _ _ _ _ _ _ (statTrace_apart dev (devs 0) r mode (modes 0) r' v)
          (statTrace_apart dev (devs 1) r mode (modes 1) r' v) (returns _ _) (returns _ _) rfl rfl
        refine ⟨by_contra fun hne => ?_, by_contra fun hne => ?_, List.nil_prefix⟩
        · have hlt : r.bytes.length < 8 := lt_of_le_of_ne (ReadReply.bytes_le r) hne
          exact be64toh_ne hlt (congrArg (fun b : Int32 × Stat => b.2.stDev) hsame)
        · have hlt : r'.bytes.length < 4 := lt_of_le_of_ne (ReadReply.bytes_le r') hne
          exact be32toh_ne hlt (congrArg (fun b : Int32 × Stat => b.2.stMode) hsame)
      · rintro ⟨hdev, hmode, -⟩
        refine memoryFree_of_returns (a.1, { a.2 with stDev := be64toh r.bytes, stMode := be32toh r'.bytes })
          fun u b hu hb => ?_
        obtain ⟨dev', mode', rfl⟩ := apart_statTrace hremembering hu
        have hvalue := Runs.ret_unique hb (returns dev' mode')
        rwa [overlay_whole hdev, overlay_whole hmode] at hvalue

end ReadStat

/-- What the decoders return and what is asked of `access` depends on nothing but what was received
exactly under these conditions. -/
theorem decoders_memoryFree_iff (host : Endian) :
    (∀ (L : Signature) (fd : Fd) (str : Str) (t : List (Event (Sock Kind L))) (a : Int32 × Str),
      Runs (agfsReadString host fd str : Io L _) t (.ret a) →
        ((MemoryFree (agfsReadString host fd str : Io L _) Prog.returned t ∧ (a.2 = str ∨ a.2 <+: textOf t)) ↔
          TextWhole t)) ∧
    (∀ (L : Signature) (fd : Fd) (t : List (Event (Sock Kind L))) (a : Int32 × Stat),
      Runs (agfsReadStat host fd : Io L _) t (.ret a) →
        (MemoryFree (agfsReadStat host fd : Io L _) Prog.returned t ↔
          none ∈ readCounts t ∨ [some 8, some 4] <+: readCounts t)) ∧
    (∀ (path : CString) (mask : AgmaskT) (t : List (Event (Sock Kind ClientSys))) (a : AgerrT),
      Runs (ServerConnection.access host path mask) t (.ret a) →
        (MemoryFree (ServerConnection.access host path mask) Prog.returned t ↔ readCounts t = [some 8])) ∧
    ∀ (self : ClientConnection) (t : List (Event (Sock Kind ServerSys))) (q : ServerIo Unit)
      (v : Str × UInt32), Runs (self.processAccess host) t q → asked q = some v →
        (MemoryFree (self.processAccess host) asked t ↔
          (0 ∈ self.mountPoint_ ∨ TextWhole t) ∧ (readCounts t).getLast? = some (some 4)) :=
  ⟨fun _ _ _ _ _ => readString_memoryFree_iff, fun _ _ _ _ => readStat_memoryFree_iff,
    fun _ _ _ _ => access_memoryFree_iff, fun _ _ _ _ => processAccess_memoryFree_iff⟩

/-- `access` of `/` on a connection that has been lost, up to its reply. -/
def lostHead : List (Event (Sock Kind ClientSys)) :=
  [⟨.sys .lock, ()⟩,
    ⟨.sys .getSocket, (-1 : Fd)⟩, ⟨.send .command (-1) (htobe16 cmd.ACCESS), .fail .EBADF⟩,
    ⟨.sys .getSocket, (-1 : Fd)⟩, ⟨.send .field (-1) (htobe64 1), .fail .EBADF⟩,
    ⟨.sys .getSocket, (-1 : Fd)⟩, ⟨.send .field (-1) (htobe32 0), .fail .EBADF⟩]

private theorem runs_lostHead : Runs (accessHead ⟨[0x2F], by decide⟩ 0) lostHead (.ret ()) := by
  repeat apply Runs.step
  exact .refl _

/-- The whole operation, with what was in the variable of the reply. -/
abbrev lostAccess (block : Block 8) : List (Event (Sock Kind ClientSys)) :=
  lostHead ++ accessTrace (-1) block (.fail .EBADF)

theorem runs_lostAccess (block : Block 8) :
    Runs (ServerConnection.access .little ⟨[0x2F], by decide⟩ 0) (lostAccess block) (.ret (be64toh block.1).toInt64) :=
  access_goes runs_lostHead (-1) block (.fail .EBADF)

theorem decoders_memoryFree_iff_lost :
    MemoryFree (ServerConnection.access .little ⟨[0x2F], by decide⟩ 0) Prog.returned (lostAccess (Block.zeros 8)) ↔
      readCounts (lostAccess (Block.zeros 8)) = [some 8] :=
  (decoders_memoryFree_iff .little).2.2.1 _ _ _ _ (runs_lostAccess (Block.zeros 8))

theorem not_memoryFree_lost :
    ¬ MemoryFree (ServerConnection.access .little ⟨[0x2F], by decide⟩ 0) Prog.returned
      (lostAccess (Block.zeros 8)) := by
  intro hfree
  let ones : Block 8 := ⟨List.replicate 8 1, List.length_replicate⟩
  have hapart : SameButMemory (lostAccess (Block.zeros 8)) (lostAccess ones) := by
    refine List.rel_append (SameButMemory.refl _) ?_
    exact .cons (.scratch _ _) (SameButMemory.refl _)
  have hsame := hfree _ _ _ _ _ _ (SameButMemory.refl _) hapart (runs_lostAccess _) (runs_lostAccess ones) rfl rfl
  exact absurd hsame (by decide)

end AgFS
