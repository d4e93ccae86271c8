import AgFS.Files.Receiving

/-! Whether the number of bytes that `processWrite` reports is that of the first bytes of the
payload, and those are what the file holds. -/
namespace AgFS
open Interaction ByteOrder Contents Sock

/-- The handler has sent this error with this number of bytes. -/
def Reports (t : List ServerEvent) (error : AgerrT) (n : AgsizeT) : Prop :=
  ∃ opened, fieldsSaid t = [opened, htobe64 error.toUInt64, htobe64 n]

/-- When `n` bytes are reported, the file holds the first `n` of the payload at the offset, and
is as it was everywhere else. -/
def StoresPrefix (payload : Bytes) (offset : AgsizeT) (t : List ServerEvent) : Prop :=
  ∀ error n, Reports t error n → 0 ≤ error → ∀ held,
    ((OpenFile.mk held 0).run t).contents = layOver 0 held offset.toNat (payload.take n.toNat)

/-- The file opens and takes something of every part, and no read of payload fails. -/
def Completes (t : List ServerEvent) : Prop := Opens t ∧ ¬ Refuses t ∧ ¬ ReadFails t

/-- The first write goes to the offset, if there is one. -/
def Placed (offset : AgsizeT) (t : List ServerEvent) : Prop :=
  offset = 0 ∨ fileWrites t = [] ∨ ¬ SeekFails t

section Handler
variable {host : Endian} {self : ClientConnection} {t : List ServerEvent}

/-- The handler reports a number of bytes if it completes, and only then. -/
theorem Receives.reports_cases (w : Receives host self t) :
    (¬ Completes t ∧ ∀ error n, ¬ Reports t error n) ∨
      ∃ e n, w.stored = .ended e n ∧ Completes t ∧ 0 ≤ e ∧ ∀ error n',
        Reports t error n' ↔ error = e ∧ n' = n := by
  have hopens := w.opens
  have hsaid := w.said
  have hfinish := finishWrite_finish w.finish
  have hrefuses := w.refuses
  have herror {e : AgerrT} {n : AgsizeT} := w.storing.error (e := e) (n := n)
  have hnever (bs : Bytes) (hrest : fieldsSaid w.rest = [bs]) : ∀ error n, ¬ Reports t error n := by
    rintro error n ⟨opened, hthree⟩
    rw [hsaid, hrest] at hthree
    cases hthree
  generalize w.stored = stored at hfinish hrefuses herror
  generalize w.rest = rest at hfinish hsaid hnever
  cases hfinish with
  | refused =>
    refine .inl ⟨fun hcompletes => hcompletes.2.1 ?_, hnever _ rfl⟩
    rw [w.refuses_iff, hrefuses]
    exact ⟨_, rfl⟩
  | fails hneg =>
    refine .inl ⟨fun hcompletes => hneg ?_, hnever _ rfl⟩
    rw [herror rfl, ← w.fails_iff]
    exact hcompletes.2.2
  | @reports e n c r r' hle =>
    refine .inr ⟨e, n, rfl, ⟨hopens, ?_, ?_⟩, hle, fun error n' => ?_⟩
    · rw [w.refuses_iff, hrefuses]
      rintro ⟨_, ⟨⟩⟩
    · rw [w.fails_iff]
      exact (herror rfl).mp hle
    · rw [Reports, hsaid]
      constructor
      · rintro ⟨opened, hthree⟩
        obtain ⟨-, herr, hn⟩ : _ = opened ∧ htobe64 e.toUInt64 = htobe64 error.toUInt64 ∧
            htobe64 n = htobe64 n' := by simpa [fieldsSaid] using hthree
        have herr := congrArg (fun bs => (be64toh bs).toInt64) herr
        have hn := congrArg be64toh hn
        simp only [be64toh_htobe64, Int64.toInt64_toUInt64] at herr hn
        exact ⟨herr.symm, hn.symm⟩
      · rintro ⟨rfl, rfl⟩
        exact ⟨_, rfl⟩

theorem keptParts_eq_nil (h : ¬ Refuses t) : keptParts (fileWrites t) = [] ↔ fileWrites t = [] := by
  constructor
  · intro hnil
    refine List.eq_nil_iff_forall_not_mem.mpr fun p hp => h ?_
    obtain ⟨ev, hev, hsome⟩ := List.mem_filterMap.mp hp
    obtain ⟨call, r⟩ := ev
    cases call with
    | sys c =>
      cases c with
      | write fd bs =>
        cases hsome
        refine ⟨fd, bs, r, hev, ?_⟩
        rintro count fits rfl
        have hpart := List.flatMap_eq_nil_iff.mp hnil _ hp
        rcases List.take_eq_nil_iff.mp hpart with hzero | hempty
        · exact hzero
        · have hbs : bs = [] := hempty
          rw [hbs] at fits
          exact Nat.le_zero.mp fits
      | _ => cases hsome
    | _ => cases hsome
  · intro hnil
    rw [hnil]
    rfl

/-- A report of `processWrite` is true of the file exactly when the first write went to the
offset, and no part after one that was cut short was stored for other bytes. -/
theorem storesPrefix_iff (h : Runs (self.processWrite host) t (.ret ())) {offset : AgsizeT}
    (hoffset : ∀ bs, (fieldsTaken t)[2]? = some bs → bs = htobe64 offset) {payload : Bytes}
    (hpayload : payloadHeard t <+: payload) :
    StoresPrefix payload offset t ↔
      (Completes t → Placed offset t ∧
        Lined payload 0 0 ((fileWrites t).map fun w => (w.1.length, w.2))) := by
  rcases processWrite_trace h with ⟨hno, err, hsaid⟩ | hreceives
  · refine iff_of_true ?_ fun hcompletes => absurd hcompletes.1 hno
    rintro error n ⟨opened, hthree⟩
    rw [hsaid] at hthree
    cases hthree
  obtain ⟨w⟩ := hreceives
  rcases w.reports_cases with ⟨hincomplete, hnever⟩ | ⟨e, n, hended, hcompletes, hle, hreports⟩
  · exact iff_of_true (fun error n hreport => absurd hreport (hnever error n))
      fun hcompletes => absurd hcompletes hincomplete
  have hstores : StoresPrefix payload offset t ↔
      ∀ held, ((OpenFile.mk held 0).run t).contents = layOver 0 held offset.toNat (payload.take n.toNat) := by
    constructor
    · exact fun h => h e n ((hreports e n).mpr ⟨rfl, rfl⟩) hle
    · intro h error n' hreport _
      obtain ⟨rfl, rfl⟩ := (hreports error n').mp hreport
      exact h
  have hplace : w.place = offset := by
    rw [Receives.place, hoffset _ w.taken, overlay_full, be64toh_htobe64]
    rw [Endian.store_length, htobe64, beBytes_length]
  have hparts : (fileWrites t).flatMap Prod.fst <+: payload.drop 0 := by
    rw [List.drop_zero, w.writes, ← w.storing.payload, ← w.payload]
    exact hpayload
  have hkept := fileWrites_kept t
  have hlined := keptParts_eq_iff hparts hkept le_rfl
  rw [slice, List.drop_zero] at hlined
  have hlength : (keptParts (fileWrites t)).length = (payload.take n.toNat).length := by
    have hpart := (keptLength_le hkept).trans hparts.length_le
    rw [List.drop_zero] at hpart
    rw [keptParts_length hkept, List.length_take, w.count hended, Nat.min_eq_left hpart]
  have hfile : (∀ held, ((OpenFile.mk held 0).run t).contents =
      layOver 0 held offset.toNat (payload.take n.toNat)) ↔
      keptParts (fileWrites t) = payload.take n.toNat ∧
        (keptParts (fileWrites t) = [] ∨ (w.seek.toOption.elim 0 fun _ => w.place.toNat) = offset.toNat) := by
    rw [← layOver_inj 0 hlength]
    exact forall_congr' fun held => by rw [w.contents]
  have hplaced : (keptParts (fileWrites t) = [] ∨
      (w.seek.toOption.elim 0 fun _ => w.place.toNat) = offset.toNat) ↔ Placed offset t := by
    rw [keptParts_eq_nil hcompletes.2.1, Placed, w.seeks_iff, hplace]
    cases hseek : w.seek with
    | error err =>
      have hzero : (0 = offset.toNat) ↔ offset = 0 := by
        rw [eq_comm, ← UInt64.toNat_inj]
        rfl
      simp only [Except.toOption, Option.elim_none, hzero, Except.error.injEq, exists_eq', not_true,
        or_false]
      exact or_comm
    | ok u => simp [Except.toOption]
  rw [hstores, hfile, hplaced, w.count hended, hlined, imp_iff_right hcompletes]
  exact and_comm

end Handler

private theorem field_fits (b : UInt8) : [0, 0, 0, 0, 0, 0, 0, b].length ≤ 8 := le_rfl

private theorem path_fits : [(0x61 : UInt8)].length ≤ 1 := le_rfl

private def pathBlock : Block 2 := .zeros 2

/-- A field with one byte that is not 0. -/
private def smallField (b : UInt8) : ReadReply 8 := .got [0, 0, 0, 0, 0, 0, 0, b] (field_fits b)

/-- Three bytes for the file `/a`, two of which come first: the file takes one of them. -/
def shortWrite : List ServerEvent :=
  [⟨.recv .field 4 8, smallField 1⟩, ⟨.malloc 2, some pathBlock⟩,
    ⟨.recv .text 4 1, .got [0x61] path_fits⟩, ⟨.sys (.open [0x2F, 0x61] O_WRONLY), Except.ok 5⟩,
    ⟨.send .field 4 (htobe64 0), .all _⟩, ⟨.recv .field 4 8, smallField 3⟩,
    ⟨.recv .field 4 8, smallField 0⟩, ⟨.sys (.lseek 5 0), Except.ok ()⟩,
    ⟨.malloc 3, some ⟨[0, 0, 0], rfl⟩⟩, ⟨.recv .data 4 3, .got [1, 2] (Nat.le_succ 2)⟩,
    ⟨.sys (.write 5 [1, 2]), WriteReply.wrote 1 (Nat.le_succ 1)⟩, ⟨.recv .data 4 1, .got [3] le_rfl⟩,
    ⟨.sys (.write 5 [3]), WriteReply.all 1⟩, ⟨.sys (.close 5), ()⟩,
    ⟨.send .field 4 (htobe64 1), .all _⟩, ⟨.send .field 4 (htobe64 2), .all _⟩]

private theorem runs_shortWrite : Runs (rootServer.processWrite .little) shortWrite (.ret ()) := by
  repeat apply Runs.step
  exact .refl _

private theorem offset_shortWrite : ∀ bs, (fieldsTaken shortWrite)[2]? = some bs → bs = htobe64 0 := by
  rintro _ ⟨⟩
  decide

private theorem payload_shortWrite : payloadHeard shortWrite <+: [1, 2, 3] := by decide

theorem storesPrefix_iff_shortWrite :
    StoresPrefix [1, 2, 3] 0 shortWrite ↔
      (Completes shortWrite → Placed 0 shortWrite ∧
        Lined ([1, 2, 3] : Bytes) 0 0 ((fileWrites shortWrite).map fun w => (w.1.length, w.2))) :=
  storesPrefix_iff runs_shortWrite offset_shortWrite payload_shortWrite

/-- Two bytes are reported, and they are the first and the third. -/
theorem not_storesPrefix_shortWrite :
    Runs (rootServer.processWrite .little) shortWrite (.ret ()) ∧
      payloadHeard shortWrite <+: [1, 2, 3] ∧ ¬ StoresPrefix [1, 2, 3] 0 shortWrite := by
  refine ⟨runs_shortWrite, payload_shortWrite, fun h => ?_⟩
  have hfile := h 1 2 ⟨htobe64 0, by decide⟩ (by decide) []
  exact absurd hfile (by decide)

end AgFS
