import AgFS.Failure.Reports

/-! Which losses on a connection an operation of the client reports as an error. -/
namespace AgFS
open Interaction ByteOrder Sock

/-- Memory whose first byte has its highest bit set. -/
def Flagged (memory : Bytes) : Prop := ∃ b rest, memory = b :: rest ∧ 128 ≤ b.toNat

/-- In network byte order such memory spells a negative number. -/
theorem toInt64_neg_iff {memory : Bytes} (h : memory.length = 8) :
    (be64toh memory).toInt64 < 0 ↔ Flagged memory := by
  obtain ⟨b, rest, rfl⟩ := List.exists_cons_of_length_eq_add_one h
  have hrest : rest.length = 7 := by simpa using h
  have hlt := beNat_lt rest
  have hb := b.toNat_lt
  have hnat : (be64toh (b :: rest)).toNat = b.toNat * 256 ^ 7 + beNat rest := by
    rw [be64toh, beNat, hrest]
    refine UInt64.toNat_ofNat_of_lt' ?_
    rw [hrest] at hlt
    simp only [UInt64.size]
    omega
  rw [Int64.lt_iff_toInt_lt, Int64.toInt_zero]
  change (be64toh (b :: rest)).toBitVec.toInt < 0 ↔ _
  rw [BitVec.toInt_neg_iff]
  change 2 ^ 64 ≤ 2 * (be64toh (b :: rest)).toNat ↔ _
  rw [hnat]
  rw [hrest] at hlt
  constructor
  · intro hle
    exact ⟨b, rest, rfl, by omega⟩
  · rintro ⟨b', rest', he, hle⟩
    obtain ⟨rfl, rfl⟩ := List.cons.inj he
    omega

theorem error_neg_iff {old bs : Bytes} (ho : old.length = 8) (hb : bs.length ≤ 8) :
    (be64toh (overlay old bs)).toInt64 < 0 ↔ Flagged (overlay old bs) :=
  toInt64_neg_iff (by rw [overlay_length (by omega), ho])

section Error
variable {host : Endian} {fd : Fd} {α : Type} {t : List ClientEvent} {a : α}

theorem runs_readError {old : AgerrT} {f : Int32 × AgerrT → ClientIo α}
    (h : Runs (ServerConnection.socket_ >>= fun fd => agfsReadError host fd old >>= f) t (.ret a)) :
    ∃ bs n err u, bs.length ≤ 8 ∧
      err = (be64toh (overlay (host.store 8 old.toUInt64.toNat) bs)).toInt64 ∧
      fieldsHeard t = bs :: fieldsHeard u ∧ scratches t = scratches u ∧ dataSent t = dataSent u ∧
      dataHeard t = dataHeard u ∧ Runs (f (n, err)) u (.ret a) := by
  obtain ⟨fd, t', ht, h⟩ := skip unseen_socket h
  obtain ⟨t₁, u, ⟨n, err⟩, rfl, hread, h₁⟩ := Runs.bind_ret_iff.mp h
  obtain ⟨r, t₂, rfl, h₂⟩ := Sock.runs_recv.mp hread
  obtain ⟨rfl, hret⟩ := Runs.ret_iff.mp h₂
  cases hret
  have hfits : r.bytes.length ≤ 8 := by
    cases r with
    | fail e => exact Nat.zero_le 8
    | got bs hbs => exact hbs
  exact ⟨r.bytes, _, _, u, hfits, rfl, ht.fields, ht.scratched, ht.sent, ht.heard, h₁⟩

theorem runs_request {c : CmdT} {path : Str} {p : ClientIo α}
    (h : Runs (ServerConnection.monitored do
      let _ ← agfsWriteCmd (← ServerConnection.socket_) c
      let _ ← agfsWriteString (← ServerConnection.socket_) path
      p) t (.ret a)) : ∃ u, Amid t u ∧ Runs p u (.ret a) := by
  obtain ⟨u₁, hu₁, h₁⟩ := runs_monitored h
  obtain ⟨_, u₂, hu₂, h₂⟩ := skip_send (fun fd => unseen_writeCmd fd c) h₁
  obtain ⟨_, u₃, hu₃, h₃⟩ := skip_send (fun fd => unseen_writeString fd path) h₂
  exact ⟨u₃, hu₁.trans (hu₂.trans hu₃), h₃⟩

end Error

namespace Request

def error : (r : Request) → r.Result → AgerrT
  | heartbeat, err => err
  | getattr _, (_, err) => err
  | access _ _, err => err
  | readdir _, (_, err) => err
  | readFile _ _ _, (_, err) => err
  | writeFile _ _ _, (_, err) => err
  | «open» _ _, err => err

end Request

def firstHeard (t : List ClientEvent) : Bytes := (fieldsHeard t)[0]?.getD []

/-- The first error an operation has read is negative. The variable was 0 before, in
`access` whatever the memory held. -/
def FirstNegative (host : Endian) : Request → List ClientEvent → Prop
  | .access _ _, t => Flagged (overlay ((scratches t)[0]?.getD []) (firstHeard t))
  | _, t => Flagged (overlay (host.store 8 0) (firstHeard t))

/-- A variable after writes to the socket: the count of the last one, if there was one. -/
def lastCount (err : AgerrT) (sent : List (Option Nat)) : AgerrT :=
  match sent.getLast? with
  | some (some count) => Int64.ofNat count
  | _ => err

/-- What the variable of `writeFile` held before its second error was read. -/
def secondBefore (host : Endian) (t : List ClientEvent) : AgerrT :=
  lastCount (be64toh (overlay (host.store 8 0) (firstHeard t))).toInt64 (dataSent t)

/-- What the second read of an error has stored. -/
def secondHeard (t : List ClientEvent) : Bytes := (fieldsHeard t)[1]?.getD []

/-- The losses that an operation notices: an error whose first byte is that of a negative
number; in `readFile` a read of data that fails; in `writeFile` a write of data that fails,
or a negative second error. -/
def Noticed (host : Endian) : Request → List ClientEvent → Prop
  | .readFile path size offset, t =>
    FirstNegative host (.readFile path size offset) t ∨ ∃ x ∈ dataHeard t, x < 0
  | .writeFile path offset buf, t =>
    FirstNegative host (.writeFile path offset buf) t ∨ none ∈ dataSent t ∨
      Flagged (overlay (host.store 8 (secondBefore host t).toUInt64.toNat) (secondHeard t))
  | r, t => FirstNegative host r t

section Operations
variable {host : Endian} {t : List ClientEvent}

/-- The sign of the first error, by what has arrived of it. -/
theorem first_neg_iff {bs : Bytes} {rest : List Bytes} {err : AgerrT}
    (ht : fieldsHeard t = bs :: rest) (hbs : bs.length ≤ 8)
    (herr : err = (be64toh (overlay (host.store 8 (0 : AgerrT).toUInt64.toNat) bs)).toInt64) :
    err < 0 ↔ Flagged (overlay (host.store 8 0) (firstHeard t)) := by
  have hfirst : firstHeard t = bs := by rw [firstHeard, ht]; rfl
  rw [herr, hfirst]
  exact error_neg_iff (host.store_length 8 _) hbs

private theorem getattr_noticed {path : CString} {res : Stat × AgerrT}
    (h : Runs (ServerConnection.getattr host path) t (.ret res)) :
    res.2 < 0 ↔ Noticed host (.getattr path) t := by
  obtain ⟨u, hu, h₁⟩ := runs_request h
  obtain ⟨bs, n, err, v, hbs, herr, hfields, -, -, -, h₂⟩ := runs_readError h₁
  have hres : res.2 = err := by
    refine Prog.Ends.runs (P := fun res : Stat × AgerrT => res.2 = err) ?_ h₂
    refine .ite (fun _ => .bind _ fun _ => .bind _ fun _ => ?_) fun _ => ?_
    · rfl
    · rfl
  rw [hres]
  exact first_neg_iff (hu.fields.trans hfields) hbs herr

private theorem readdir_noticed {path : CString} {res : List (Str × Stat) × AgerrT}
    (h : Runs (ServerConnection.readdir host path) t (.ret res)) :
    res.2 < 0 ↔ Noticed host (.readdir path) t := by
  obtain ⟨u, hu, h₁⟩ := runs_request h
  obtain ⟨bs, n, err, v, hbs, herr, hfields, -, -, -, h₂⟩ := runs_readError h₁
  have hres : res.2 = err := by
    refine Prog.Ends.runs (P := fun res : List (Str × Stat) × AgerrT => res.2 = err) ?_ h₂
    refine .ite (fun _ => .bind _ fun _ => .bind _ fun _ => .bind _ fun _ => ?_) fun _ => ?_
    · rfl
    · rfl
  rw [hres]
  exact first_neg_iff (hu.fields.trans hfields) hbs herr

private theorem open_noticed {path : CString} {flags : AgmaskT} {res : AgerrT}
    (h : Runs (ServerConnection.open host path flags) t (.ret res)) :
    res < 0 ↔ Noticed host (.open path flags) t := by
  obtain ⟨u, hu, h₁⟩ := runs_request h
  obtain ⟨_, w, hw, h₂⟩ := skip_send (fun fd => unseen_writeMask fd flags) h₁
  obtain ⟨bs, n, err, v, hbs, herr, hfields, -, -, -, h₃⟩ := runs_readError h₂
  obtain ⟨-, hret⟩ := Runs.ret_iff.mp h₃
  cases hret
  exact first_neg_iff (hu.fields.trans (hw.fields.trans hfields)) hbs herr

private theorem access_noticed {path : CString} {mask : AgmaskT} {res : AgerrT}
    (h : Runs (ServerConnection.access host path mask) t (.ret res)) :
    res < 0 ↔ Noticed host (.access path mask) t := by
  obtain ⟨u, hu, h₁⟩ := runs_request h
  obtain ⟨_, w, hw, h₂⟩ := skip_send (fun fd => unseen_writeMask fd mask) h₁
  obtain ⟨block, x, rfl, h₃⟩ := Sock.runs_scratch.mp h₂
  obtain ⟨bs, n, err, v, hbs, herr, hfields, -, -, -, h₄⟩ := runs_readError h₃
  obtain ⟨-, hret⟩ := Runs.ret_iff.mp h₄
  cases hret
  have hmemory : host.store 8 (UInt64.ofNat (host.load block.1)).toInt64.toUInt64.toNat = block.1 := by
    have hlt := host.load_lt block.1
    rw [block.2] at hlt
    rw [UInt64.toUInt64_toInt64, UInt64.toNat_ofNat_of_lt' hlt, host.store_load block.2]
  have hfirst : firstHeard t = bs := by
    rw [firstHeard, hu.fields, hw.fields]
    exact congrArg (fun l : List Bytes => l[0]?.getD []) hfields
  have hscratch : (scratches t)[0]?.getD [] = block.1 := by
    rw [hu.scratched, hw.scratched]
    rfl
  change res < 0 ↔ Flagged (overlay ((scratches t)[0]?.getD []) (firstHeard t))
  rw [herr, hmemory, hfirst, hscratch]
  exact error_neg_iff block.2 hbs

/-- Calls that read no file data. -/
def Quiet : SockCall Kind ClientSys → Prop
  | .recv .data _ _ => False
  | _ => True

theorem skip_quiet {α β : Type} {p : ClientIo α} {f : α → ClientIo β} {b : β}
    (hp : p.Only Quiet) (h : Runs (p >>= f) t (.ret b)) :
    ∃ a u, dataHeard t = dataHeard u ∧ Runs (f a) u (.ret b) := by
  obtain ⟨t₁, u, a, rfl, h₁, h₂⟩ := Runs.bind_ret_iff.mp h
  have hnone : dataHeard t₁ = [] := by
    refine List.filterMap_eq_nil_iff.mpr fun ev hev => ?_
    have hquiet := hp.runs h₁ ev hev
    obtain ⟨call, r⟩ := ev
    cases call with
    | recv m fd n =>
      cases m with
      | data => exact hquiet.elim
      | _ => rfl
    | _ => rfl
  refine ⟨a, u, ?_, h₂⟩
  rw [dataHeard, List.filterMap_append]
  exact congrArg (· ++ dataHeard u) hnone

private theorem socket_quiet : ServerConnection.socket_.Only Quiet := ⟨trivial, fun _ => trivial⟩

private theorem readSize_quiet (host : Endian) (fd : Fd) (n : AgsizeT) :
    (agfsReadSize host fd n : ClientIo _).Only Quiet := ⟨trivial, fun _ => trivial⟩

private theorem vectorResize_quiet (n : Nat) :
    (vectorResize n : ClientIo _).Only Quiet := by
  refine .ite trivial (.ite ?_ ⟨trivial, fun block => ?_⟩)
  · rw [abort_bind]
    exact ⟨trivial, nofun⟩
  · cases block with
    | none => exact ⟨trivial, nofun⟩
    | some block => trivial

private theorem min_neg_iff {x y : Int64} (hy : 0 ≤ y) : min x y < 0 ↔ x < 0 := by
  rw [Int64.le_iff_toInt_le, Int64.toInt_zero] at hy
  change (if x ≤ y then x else y) < 0 ↔ x < 0
  split
  · exact Iff.rfl
  · rename_i hle
    rw [Int64.le_iff_toInt_le] at hle
    rw [Int64.lt_iff_toInt_lt, Int64.lt_iff_toInt_lt, Int64.toInt_zero]
    omega

theorem readData_noticed {err : AgerrT} {res : Bytes × AgerrT}
    (h : Runs (if 0 ≤ err then do
      let (_, amountRead) ← agfsReadSize host (← ServerConnection.socket_) 0
      let data ← vectorResize amountRead.toNat
      let r ← Sock.recv .data (← ServerConnection.socket_) amountRead.toNat
      return (overlay data r.bytes, min r.ssize err)
    else return ([], err)) t (.ret res)) :
    res.2 < 0 ↔ err < 0 ∨ ∃ x ∈ dataHeard t, x < 0 := by
  by_cases hpos : 0 ≤ err
  · rw [if_pos hpos] at h
    have hneg : ¬ err < 0 := by
      rw [Int64.lt_iff_toInt_lt]
      rw [Int64.le_iff_toInt_le] at hpos
      omega
    obtain ⟨fd, u₁, hu₁, h₁⟩ := skip_quiet socket_quiet h
    obtain ⟨⟨n, amountRead⟩, u₂, hu₂, h₂⟩ := skip_quiet (readSize_quiet host fd 0) h₁
    obtain ⟨data, u₃, hu₃, h₃⟩ := skip_quiet (vectorResize_quiet _) h₂
    obtain ⟨fd', u₄, hu₄, h₄⟩ := skip_quiet socket_quiet h₃
    obtain ⟨r, u₅, rfl, h₅⟩ := Sock.runs_recv.mp h₄
    obtain ⟨rfl, hret⟩ := Runs.ret_iff.mp h₅
    cases hret
    rw [hu₁, hu₂, hu₃, hu₄]
    simp only [hneg, false_or]
    refine (min_neg_iff hpos).trans ?_
    simp [dataHeard]
  · rw [if_neg hpos] at h
    obtain ⟨rfl, hret⟩ := Runs.ret_iff.mp h
    cases hret
    simp [dataHeard]

private theorem readFile_noticed {path : CString} {size offset : AgsizeT} {res : Bytes × AgerrT}
    (h : Runs (ServerConnection.readFile host path size offset) t (.ret res)) :
    res.2 < 0 ↔ Noticed host (.readFile path size offset) t := by
  obtain ⟨u, hu, h₁⟩ := runs_request h
  obtain ⟨_, w₁, hw₁, h₂⟩ := skip_send (fun fd => unseen_writeSize fd size) h₁
  obtain ⟨_, w₂, hw₂, h₃⟩ := skip_send (fun fd => unseen_writeSize fd offset) h₂
  obtain ⟨bs, n, err, v, hbs, herr, hfields, -, -, hheard, h₄⟩ := runs_readError h₃
  have hw := hu.trans (hw₁.trans hw₂)
  have hdata : dataHeard t = dataHeard v := hw.heard.trans hheard
  change res.2 < 0 ↔ Flagged (overlay (host.store 8 0) (firstHeard t)) ∨ ∃ x ∈ dataHeard t, x < 0
  rw [← first_neg_iff (hw.fields.trans hfields) hbs herr, hdata]
  exact readData_noticed h₄

/-- Calls that send no file data. -/
def Mute : SockCall Kind ClientSys → Prop
  | .send .data _ _ => False
  | _ => True

private theorem dataSent_of_mute {α : Type} {p q : ClientIo α} (hp : p.Only Mute) (h : Runs p t q) :
    dataSent t = [] := by
  refine List.filterMap_eq_nil_iff.mpr fun ev hev => ?_
  have hmute := hp.runs h ev hev
  obtain ⟨call, r⟩ := ev
  cases call with
  | send m fd bs =>
    cases m with
    | data => exact hmute.elim
    | _ => rfl
  | _ => rfl

private theorem lastCount_cons {err : AgerrT} {count : Nat} {sent : List (Option Nat)} (h : none ∉ sent) :
    lastCount err (some count :: sent) = lastCount (Int64.ofNat count) sent := by
  unfold lastCount
  rw [List.getLast?_cons]
  cases hlast : sent.getLast? with
  | none => rfl
  | some x =>
    cases x with
    | none => exact absurd (List.mem_of_getLast? hlast) h
    | some n => rfl

/-- How sending a buffer has ended, seen from what the writes have moved. -/
def SentAs (err : AgerrT) (sent : List (Option Nat)) : Except Errno AgerrT → Prop
  | .error _ => none ∈ sent
  | .ok last => none ∉ sent ∧ last = lastCount err sent

theorem sendBuffer_sent {fuel : Nat} {rest : Bytes} {total total' : AgsizeT} {err : AgerrT}
    {result : Except Errno AgerrT}
    (h : Runs (ServerConnection.sendBuffer fuel rest total err) t (.ret (total', result))) :
    fieldsHeard t = [] ∧ SentAs err (dataSent t) result := by
  induction fuel generalizing rest total err t with
  | zero =>
    obtain ⟨rfl, hret⟩ := Runs.ret_iff.mp h
    cases hret
    exact ⟨rfl, List.not_mem_nil, rfl⟩
  | succ fuel ih =>
    rw [ServerConnection.sendBuffer] at h
    by_cases hrest : rest = []
    · rw [if_pos hrest] at h
      obtain ⟨rfl, hret⟩ := Runs.ret_iff.mp h
      cases hret
      exact ⟨rfl, List.not_mem_nil, rfl⟩
    · rw [if_neg hrest] at h
      obtain ⟨fd, u, rfl, h₁⟩ := Sock.runs_sys.mp h
      obtain ⟨r, v, rfl, h₂⟩ := Sock.runs_send.mp h₁
      cases r with
      | fail e =>
        obtain ⟨rfl, hret⟩ := Runs.ret_iff.mp h₂
        cases hret
        exact ⟨rfl, List.mem_cons_self⟩
      | wrote count hcount =>
        dsimp only at h₂
        by_cases hzero : count = 0
        · rw [if_pos hzero] at h₂
          obtain ⟨rfl, hret⟩ := Runs.ret_iff.mp h₂
          cases hret
          subst hzero
          exact ⟨rfl, List.not_mem_cons_of_ne_of_not_mem nofun List.not_mem_nil, rfl⟩
        · rw [if_neg hzero] at h₂
          obtain ⟨hfields, hsent⟩ := ih h₂
          refine ⟨hfields, ?_⟩
          cases result with
          | error e => exact List.mem_cons_of_mem _ hsent
          | ok last =>
            obtain ⟨hnone, hlast⟩ := hsent
            refine ⟨?_, hlast.trans (lastCount_cons hnone).symm⟩
            exact List.not_mem_cons_of_ne_of_not_mem nofun hnone

theorem finish_noticed {last : AgerrT} {total : AgsizeT} {res : AgsizeT × AgerrT}
    (h : Runs (do
      let (_, error) ← agfsReadError host (← ServerConnection.socket_) last
      if 0 ≤ error then
        let (_, totalWritten) ← agfsReadSize host (← ServerConnection.socket_) total
        return (totalWritten, error)
      else
        return (total, error)) t (.ret res)) :
    (res.2 < 0 ↔ Flagged (overlay (host.store 8 last.toUInt64.toNat) (firstHeard t))) ∧
      dataSent t = [] := by
  obtain ⟨bs, n, err, u, hbs, herr, hfields, -, hsent, -, h₁⟩ := runs_readError h
  have hmute : (if 0 ≤ err then do
      let (_, totalWritten) ← agfsReadSize host (← ServerConnection.socket_) total
      return (totalWritten, err)
    else return (total, err) : ClientIo (AgsizeT × AgerrT)).Only Mute :=
    .ite ⟨trivial, fun _ => ⟨trivial, fun _ => trivial⟩⟩ trivial
  have hres : res.2 = err := by
    refine Prog.Ends.runs (P := fun res : AgsizeT × AgerrT => res.2 = err) ?_ h₁
    exact .ite (fun _ => .bind _ fun _ => .bind _ fun _ => rfl) fun _ => rfl
  have hfirst : firstHeard t = bs := by rw [firstHeard, hfields]; rfl
  rw [hres, herr, hfirst]
  exact ⟨error_neg_iff (host.store_length 8 _) hbs, hsent.trans (dataSent_of_mute hmute h₁)⟩

private theorem writeFile_noticed {path : CString} {offset : AgsizeT} {buf : Buffer}
    {res : AgsizeT × AgerrT}
    (h : Runs (ServerConnection.writeFile host path offset buf) t (.ret res)) :
    res.2 < 0 ↔ Noticed host (.writeFile path offset buf) t := by
  obtain ⟨u, hu, h₁⟩ := runs_request h
  obtain ⟨bs, n, err, v, hbs, herr, hfields, -, hsent, -, h₂⟩ := runs_readError h₁
  have hfields' := hu.fields.trans hfields
  have hsent' := hu.sent.trans hsent
  have hfirst := first_neg_iff hfields' hbs herr
  dsimp only at h₂
  change res.2 < 0 ↔ Flagged (overlay (host.store 8 0) (firstHeard t)) ∨ none ∈ dataSent t ∨
    Flagged (overlay (host.store 8 (secondBefore host t).toUInt64.toNat) (secondHeard t))
  rw [← hfirst]
  by_cases hneg : err < 0
  · rw [if_pos hneg] at h₂
    obtain ⟨-, hret⟩ := Runs.ret_iff.mp h₂
    cases hret
    simp only [hneg, true_or]
  · rw [if_neg hneg] at h₂
    obtain ⟨_, w₁, hw₁, h₃⟩ := skip_send (fun fd => unseen_writeSize fd buf.size) h₂
    obtain ⟨_, w₂, hw₂, h₄⟩ := skip_send (fun fd => unseen_writeSize fd offset) h₃
    obtain ⟨t₁, t₂, ⟨total, result⟩, rfl, hloop, h₅⟩ := Runs.bind_ret_iff.mp h₄
    obtain ⟨hdeaf, hsentAs⟩ := sendBuffer_sent hloop
    have hdata : dataSent t = dataSent t₁ ++ dataSent t₂ := by
      rw [hsent', hw₁.sent, hw₂.sent]
      exact List.filterMap_append
    have hread : fieldsHeard v = fieldsHeard t₂ := by
      rw [hw₁.fields, hw₂.fields]
      exact List.filterMap_append.trans (congrArg (· ++ fieldsHeard t₂) hdeaf)
    simp only [hneg, false_or]
    cases result with
    | error e =>
      obtain ⟨rfl, hret⟩ := Runs.ret_iff.mp h₅
      cases hret
      have hmem : none ∈ dataSent t := hdata ▸ List.mem_append_left _ hsentAs
      simp only [e.neg_lt, hmem, true_or]
    | ok last =>
      obtain ⟨hnone, hlast⟩ := hsentAs
      obtain ⟨hsecond, hmute⟩ := finish_noticed h₅
      rw [hmute, List.append_nil] at hdata
      have hbefore : secondBefore host t = last := by
        rw [secondBefore, hdata, hlast, herr, firstHeard, hfields']
        rfl
      have hheard : secondHeard t = firstHeard t₂ := by
        rw [secondHeard, hfields', hread]
        rfl
      rw [hsecond, hbefore, hheard, hdata]
      simp only [hnone, false_or]

theorem perform_noticed {r : Request} (hr : r ≠ .heartbeat) {res : r.Result}
    (h : Runs (r.perform host) t (.ret res)) : r.error res < 0 ↔ Noticed host r t := by
  cases r with
  | heartbeat => exact absurd rfl hr
  | getattr path => exact getattr_noticed h
  | access path mask => exact access_noticed h
  | readdir path => exact readdir_noticed h
  | readFile path size offset => exact readFile_noticed h
  | writeFile path offset buf => exact writeFile_noticed h
  | «open» path flags => exact open_noticed h

end Operations

end AgFS
