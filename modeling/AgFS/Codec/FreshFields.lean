import AgFS.Codec.Calls
import AgFS.Codec.FreshMemory
import AgFS.Model.ServerConnection

/-! Fields that are read into variables with whatever memory holds: the error of `access` and the
mask of `processAccess`. -/
namespace AgFS
open Interaction ByteOrder Sock

section Fields
variable {L : Signature}

/-- A variable of which a read has filled less than all can be told from one with other contents. -/
theorem overlay_replicate_ne {w : Nat} {bs : Bytes} (h : bs.length < w) :
    overlay (List.replicate w 0) bs ≠ overlay (List.replicate w 1) bs := by
  intro heq
  rw [overlay, overlay, List.drop_replicate, List.drop_replicate] at heq
  have hrest := List.append_cancel_left heq
  have hsucc : w - bs.length = w - bs.length - 1 + 1 := by omega
  rw [hsucc, List.replicate_succ, List.replicate_succ] at hrest
  exact absurd (List.cons.inj hrest).1 (by decide)

theorem be64toh_ne {bs : Bytes} (h : bs.length < 8) :
    be64toh (overlay (List.replicate 8 0) bs) ≠ be64toh (overlay (List.replicate 8 1) bs) := by
  intro heq
  have hlength (b : UInt8) : (overlay (List.replicate 8 b) bs).length = 8 := by
    rw [overlay_length (by rw [List.length_replicate]; omega), List.length_replicate]
  have hmemory := congrArg htobe64 heq
  rw [htobe64_be64toh (hlength 0), htobe64_be64toh (hlength 1)] at hmemory
  exact overlay_replicate_ne h hmemory

theorem be32toh_ne {bs : Bytes} (h : bs.length < 4) :
    be32toh (overlay (List.replicate 4 0) bs) ≠ be32toh (overlay (List.replicate 4 1) bs) := by
  intro heq
  have hlength (b : UInt8) : (overlay (List.replicate 4 b) bs).length = 4 := by
    rw [overlay_length (by rw [List.length_replicate]; omega), List.length_replicate]
  have hmemory := congrArg htobe32 heq
  rw [htobe32_be32toh (hlength 0), htobe32_be32toh (hlength 1)] at hmemory
  exact overlay_replicate_ne h hmemory

def countOf {n : Nat} : ReadReply n → Option Nat
  | .fail _ => none
  | .got bs _ => some bs.length

theorem readCounts_recv {m : Kind} {fd : Fd} {n : Nat} (r : ReadReply n) (t : List (Event (Sock Kind L))) :
    readCounts (⟨.recv m fd n, r⟩ :: t) = countOf r :: readCounts t := by
  cases r with
  | fail e => rfl
  | got bs hbs => rfl

private theorem readCounts_append (t u : List (Event (Sock Kind L))) :
    readCounts (t ++ u) = readCounts t ++ readCounts u := List.filterMap_append

theorem countOf_eq_iff {n : Nat} (hn : n ≠ 0) (r : ReadReply n) : countOf r = some n ↔ r.bytes.length = n := by
  cases r with
  | fail e =>
    constructor
    · rintro ⟨⟩
    · intro h
      exact absurd h.symm hn
  | got bs hbs => exact Option.some_inj

theorem countOf_eq_none {n : Nat} (hn : n < 2 ^ 31) (r : ReadReply n) : countOf r = none ↔ r.int < 0 := by
  cases r with
  | fail e => exact iff_of_true rfl (show (-1 : Int32) < 0 by decide)
  | got bs hbs => exact iff_of_false nofun (int32_ofNat_nonneg (by omega))

theorem overlay_whole {n : Nat} {r : ReadReply n} (h : r.bytes.length = n) (block : Block n) :
    overlay block.1 r.bytes = r.bytes :=
  overlay_full (block.2.trans h.symm).le

end Fields

/-- Calls that send or that are of the system: none that read, and none for memory. -/
def Telling {L : Signature} : SockCall Kind L → Prop
  | .send _ _ _ => True
  | .sys _ => True
  | _ => False

instance {L : Signature} (fd : Fd) : AllowsSend (L := L) Telling fd := ⟨fun _ _ => trivial⟩

section Telling
variable {L : Signature} {t u : List (Event (Sock Kind L))}

private theorem apart_telling (ht : ∀ ev ∈ t, Telling ev.call) (h : SameButMemory t u) : u = t := by
  refine h.eq fun ev hev => ?_
  have htelling := ht ev hev
  obtain ⟨call, r⟩ := ev
  cases call with
  | malloc n => exact htelling
  | scratch n => exact htelling
  | _ => trivial

private theorem readCounts_telling (ht : ∀ ev ∈ t, Telling ev.call) : readCounts t = [] := by
  refine List.filterMap_eq_nil_iff.mpr fun ev hev => ?_
  have htelling := ht ev hev
  obtain ⟨call, r⟩ := ev
  cases call with
  | recv m fd n => exact htelling.elim
  | _ => rfl

end Telling

/-! `ServerConnection::access` -/

/-- `access` up to its reply. -/
def accessHead (path : CString) (mask : AgmaskT) : ClientIo Unit := do
  ClientIo.sys .lock
  let _ ← agfsWriteCmd (← ServerConnection.socket_) cmd.ACCESS
  let _ ← agfsWriteString (← ServerConnection.socket_) path.1
  let _ ← agfsWriteMask (← ServerConnection.socket_) mask

/-- The rest of it, with what was in the variable of the reply. -/
def accessTail (host : Endian) (block : Block 8) : ClientIo AgerrT := do
  let fd ← ServerConnection.socket_
  let (_, retValue) ← agfsReadError host fd (UInt64.ofNat (host.load block.1)).toInt64
  ClientIo.sys .unlock
  return retValue

section Access
variable {host : Endian} {path : CString} {mask : AgmaskT} {t : List (Event (Sock Kind ClientSys))}

private theorem access_eq : ServerConnection.access host path mask =
    accessHead path mask >>= fun _ => Sock.scratch 8 >>= accessTail host := by
  simp only [ServerConnection.access, ServerConnection.monitored, accessHead, bind_assoc, pure_bind]
  rfl

private theorem accessHead_telling : (accessHead path mask).Only Telling := by
  have hsys (c : ClientCall) : (ClientIo.sys c).Only Telling := ⟨trivial, fun _ => trivial⟩
  refine .bind (hsys _) fun _ => ?_
  refine .bind (hsys _) fun fd => .bind (only_writeCmd fd _) fun _ => ?_
  refine .bind (hsys _) fun fd => .bind (only_writeString fd _) fun _ => ?_
  refine .bind (hsys _) fun fd => .bind (only_writeMask fd _) fun _ => ?_
  trivial

theorem store_scratch (host : Endian) (block : Block 8) :
    host.store 8 (UInt64.ofNat (host.load block.1)).toInt64.toUInt64.toNat = block.1 := by
  have hlt := host.load_lt block.1
  rw [block.2] at hlt
  rw [UInt64.toUInt64_toInt64, UInt64.toNat_ofNat_of_lt' hlt, host.store_load block.2]

def accessTrace (fd : Fd) (block : Block 8) (r : ReadReply 8) : List (Event (Sock Kind ClientSys)) :=
  [⟨.scratch 8, block⟩, ⟨.sys .getSocket, fd⟩, ⟨.recv .field fd 8, r⟩, ⟨.sys .unlock, ()⟩]

theorem access_goes {t : List (Event (Sock Kind ClientSys))} (h : Runs (accessHead path mask) t (.ret ()))
    (fd : Fd) (block : Block 8) (r : ReadReply 8) :
    Runs (ServerConnection.access host path mask) (t ++ accessTrace fd block r)
      (.ret (be64toh (overlay block.1 r.bytes)).toInt64) := by
  rw [access_eq]
  refine Runs.bind_ret_iff.mpr ⟨t, _, (), rfl, h, ?_⟩
  apply Runs.step
  apply Runs.step
  apply Runs.step
  apply Runs.step
  change Runs (.ret (be64toh (overlay (host.store 8
    (UInt64.ofNat (host.load block.1)).toInt64.toUInt64.toNat) r.bytes)).toInt64) [] _
  rw [store_scratch]
  exact .refl _

private theorem access_cases {a : AgerrT} (h : Runs (ServerConnection.access host path mask) t (.ret a)) :
    ∃ t₁ fd block r, Runs (accessHead path mask) t₁ (.ret ()) ∧ t = t₁ ++ accessTrace fd block r ∧
      a = (be64toh (overlay block.1 r.bytes)).toInt64 := by
  have hrun := h
  rw [access_eq] at hrun
  obtain ⟨t₁, t₂, _, rfl, h₁, h₂⟩ := Runs.bind_ret_iff.mp hrun
  obtain ⟨block, t₃, rfl, h₃⟩ := runs_scratch.mp h₂
  obtain ⟨fd, t₄, rfl, h₄⟩ := runs_sys.mp h₃
  obtain ⟨r, t₅, rfl, h₅⟩ := Runs.call_ret_iff.mp h₄
  obtain ⟨_, t₆, rfl, h₆⟩ := Runs.call_ret_iff.mp h₅
  obtain ⟨rfl, -⟩ := Runs.ret_iff.mp h₆
  exact ⟨t₁, fd, block, r, h₁, rfl, Runs.ret_unique h (access_goes h₁ fd block r)⟩

/-- The error that `access` returns is that of the server exactly if all of it has arrived. -/
theorem access_memoryFree_iff {a : AgerrT} (h : Runs (ServerConnection.access host path mask) t (.ret a)) :
    MemoryFree (ServerConnection.access host path mask) Prog.returned t ↔ readCounts t = [some 8] := by
  obtain ⟨t₁, fd, block, r, h₁, rfl, -⟩ := access_cases h
  have htelling := accessHead_telling.runs h₁
  have hcounts : readCounts (t₁ ++ accessTrace fd block r) = [countOf r] := by
    rw [readCounts_append, readCounts_telling htelling]
    exact readCounts_recv r _
  rw [hcounts, List.cons.injEq, countOf_eq_iff (by decide)]
  constructor
  · intro hfree
    refine ⟨by_contra fun hne => ?_, rfl⟩
    have hlt : r.bytes.length < 8 := lt_of_le_of_ne (ReadReply.bytes_le r) hne
    let filled (b : UInt8) : Block 8 := ⟨List.replicate 8 b, List.length_replicate⟩
    have hapart (b : UInt8) : SameButMemory (t₁ ++ accessTrace fd block r) (t₁ ++ accessTrace fd (filled b) r) := by
      refine List.rel_append (SameButMemory.refl t₁) ?_
      exact .cons (.scratch block _) (SameButMemory.refl _)
    have hsame := hfree _ _ _ _ _ _ (hapart 0) (hapart 1) (access_goes h₁ fd (filled 0) r)
      (access_goes h₁ fd (filled 1) r) rfl rfl
    have hfields := congrArg Int64.toUInt64 hsame
    rw [UInt64.toUInt64_toInt64, UInt64.toUInt64_toInt64] at hfields
    exact be64toh_ne hlt hfields
  · rintro ⟨hall, -⟩
    have hvalue {u : List (Event (Sock Kind ClientSys))} {q : ClientIo AgerrT} {b : AgerrT}
        (hu : SameButMemory (t₁ ++ accessTrace fd block r) u)
        (hq : Runs (ServerConnection.access host path mask) u q) (hb : q.returned = some b) :
        b = (be64toh r.bytes).toInt64 := by
      rw [Prog.returned_eq_some] at hb
      subst hb
      obtain ⟨u₁, u₂, rfl, hu₁, hu₂⟩ := apart_append hu
      obtain rfl := apart_telling htelling hu₁
      obtain ⟨block', u₃, rfl, hu₃⟩ := apart_scratch hu₂
      obtain rfl := hu₃.eq (by simp [Remembering])
      rw [Runs.ret_unique hq (access_goes h₁ fd block' r), overlay_whole hall]
    intro u u' q q' b b' hu hu' hq hq' hb hb'
    rw [hvalue hu hq hb, hvalue hu' hq' hb']

end Access
/-! `ClientConnection::processAccess` -/

def asked {α : Type} : ServerIo α → Option (Str × UInt32)
  | .call (.sys (.access path mode)) _ => some (path, mode)
  | _ => none

private theorem asked_of_only {α β : Type} {p : ServerIo α} (hp : p.Only (Within fun _ => False)) (f : α → ServerIo β)
    (hf : ∀ a, p = .ret a → asked (f a) = none) : asked (p >>= f) = none := by
  cases p with
  | ret a => exact hf a rfl
  | call c k =>
    cases c with
    | sys c => exact hp.1.elim
    | _ => rfl

theorem pathAppend_length_lt (mount path : Str) (b : UInt8) (rest : Str) :
    (pathAppend mount path).length < (pathAppend mount (path ++ b :: rest)).length := by
  cases path with
  | nil =>
    simp only [pathAppend, List.nil_append]
    split <;> simp
  | cons x path =>
    simp only [pathAppend, List.cons_append]
    split <;> simp

private theorem pathAppend_nul {mount : Str} (h : 0 ∈ mount) (path : Str) :
    cstr (pathAppend mount path) = cstr mount := by
  cases path with
  | nil => rfl
  | cons b path =>
    simp only [pathAppend]
    split
    · exact cstr_append_of_mem h _
    · rw [List.append_assoc, cstr_append_of_mem h]

section ProcessAccess
variable {host : Endian} {self : ClientConnection} {t : List (Event (Sock Kind ServerSys))}

def maskTrace (fd : Fd) (block : Block 4) (r : ReadReply 4) : List (Event (Sock Kind ServerSys)) :=
  [⟨.scratch 4, block⟩, ⟨.recv .field fd 4, r⟩]

private theorem store_mask (host : Endian) (block : Block 4) :
    host.store 4 (UInt32.ofNat (host.load block.1)).toNat = block.1 := by
  have hlt := host.load_lt block.1
  rw [block.2] at hlt
  rw [UInt32.toNat_ofNat_of_lt' hlt, host.store_load block.2]

def accessRest (host : Endian) (self : ClientConnection) (path : Str) : ServerIo Unit := do
  let mask := UInt32.ofNat (host.load (← Sock.scratch 4).1)
  let (_, mask) ← agfsReadMask host self.socket_ mask
  let result : AgerrT :=
    match ← ServerIo.sys (.access (cstr (self.file path)) mask) with
    | .error _ => -1
    | .ok _ => 0
  let _ ← agfsWriteError self.socket_ result

private theorem accessRest_goes (path : Str) (block : Block 4) (r : ReadReply 4) :
    ∃ q, Runs (accessRest host self path) (maskTrace self.socket_ block r) q ∧
      asked q = some (cstr (self.file path), be32toh (overlay block.1 r.bytes)) := by
  apply Exists.intro
  constructor
  · apply Runs.step
    apply Runs.step
    exact .refl _
  · change some (cstr (self.file path), be32toh (overlay (host.store 4 (UInt32.ofNat (host.load block.1)).toNat)
      r.bytes)) = _
    rw [store_mask]

private theorem accessRest_cases {path : Str} {q : ServerIo Unit} {v : Str × UInt32}
    (h : Runs (accessRest host self path) t q) (hv : asked q = some v) :
    ∃ block r, t = maskTrace self.socket_ block r ∧
      v = (cstr (self.file path), be32toh (overlay block.1 r.bytes)) := by
  obtain ⟨-, rfl⟩ | ⟨block, t₁, rfl, h₁⟩ := Runs.call_cases h
  · cases hv
  obtain ⟨-, rfl⟩ | ⟨r, t₂, rfl, h₂⟩ := Runs.call_cases h₁
  · cases hv
  obtain ⟨rfl, rfl⟩ | ⟨result, t₃, rfl, h₃⟩ := Runs.call_cases h₂
  · cases hv
    refine ⟨block, r, rfl, ?_⟩
    rw [store_mask]
  obtain ⟨-, rfl⟩ | ⟨sent, t₄, rfl, h₄⟩ := Runs.call_cases h₃
  · cases hv
  obtain ⟨-, rfl⟩ := Runs.ret_iff.mp h₄
  cases hv

private theorem processAccess_goes {a : Int32 × Str}
    (h : Runs (agfsReadString host self.socket_ [] : ServerIo _) t (.ret a))
    (block : Block 4) (r : ReadReply 4) :
    ∃ q, Runs (self.processAccess host) (t ++ maskTrace self.socket_ block r) q ∧
      asked q = some (cstr (self.file a.2), be32toh (overlay block.1 r.bytes)) := by
  obtain ⟨q, hq, hasked⟩ := accessRest_goes a.2 block r
  exact ⟨q, (h.bind fun a => accessRest host self a.2).trans hq, hasked⟩

private theorem processAccess_cases {q : ServerIo Unit} {v : Str × UInt32} (h : Runs (self.processAccess host) t q)
    (hv : asked q = some v) :
    ∃ ts a block r, Runs (agfsReadString host self.socket_ [] : ServerIo _) ts (.ret a) ∧
      t = ts ++ maskTrace self.socket_ block r ∧
      v = (cstr (self.file a.2), be32toh (overlay block.1 r.bytes)) := by
  change Runs (agfsReadString host self.socket_ [] >>= fun a => accessRest host self a.2) t q at h
  rcases h.bind_cases with ⟨p, hp, rfl⟩ | ⟨ts, t', a, rfl, hread, hrest⟩
  · have honly : p.Only (Within fun _ => False) := (only_readString host self.socket_ []).rest hp
    rw [asked_of_only honly _ fun a _ => rfl] at hv
    cases hv
  · obtain ⟨block, r, rfl, rfl⟩ := accessRest_cases hrest hv
    exact ⟨ts, a, block, r, hread, rfl, rfl⟩

private theorem textWhole_append_mask (block : Block 4) (r : ReadReply 4) :
    TextWhole (t ++ maskTrace self.socket_ block r) ↔ TextWhole t := by
  constructor
  · intro h fd n r' hmem
    exact h fd n r' (List.mem_append_left _ hmem)
  · intro h fd n r' hmem
    obtain hmem | hmem := List.mem_append.mp hmem
    · exact h fd n r' hmem
    · simp [maskTrace] at hmem

/-- The call of `access` depends on received bytes only exactly when all of the mask has arrived and
the path is whole, or the name of the mount point ends before it. -/
theorem processAccess_memoryFree_iff {q : ServerIo Unit} {v : Str × UInt32}
    (h : Runs (self.processAccess host) t q) (hv : asked q = some v) :
    MemoryFree (self.processAccess host) asked t ↔
      (0 ∈ self.mountPoint_ ∨ TextWhole t) ∧ (readCounts t).getLast? = some (some 4) := by
  obtain ⟨ts, a, block, r, hread, rfl, -⟩ := processAccess_cases h hv
  have hlast : (readCounts (ts ++ maskTrace self.socket_ block r)).getLast? = some (countOf r) := by
    rw [readCounts_append]
    change (readCounts ts ++ (readCounts [⟨.recv .field self.socket_ 4, r⟩])).getLast? = _
    rw [readCounts_recv]
    exact List.getLast?_concat
  rw [hlast, Option.some_inj, countOf_eq_iff (by decide), textWhole_append_mask]
  constructor
  · intro hfree
    refine ⟨or_iff_not_imp_left.mpr fun hmount => by_contra fun hwhole => ?_, by_contra fun hne => ?_⟩
    · obtain ⟨u, u', b, b', hu, hu', hb, hb', hnul, x, rest, hlonger⟩ := readString_unsettled hread hwhole
      have hmask := SameButMemory.refl (maskTrace self.socket_ block r)
      obtain ⟨q₁, hq₁, hv₁⟩ := processAccess_goes hb block r
      obtain ⟨q₂, hq₂, hv₂⟩ := processAccess_goes hb' block r
      have hsame := hfree _ _ _ _ _ _ (List.rel_append hu hmask) (List.rel_append hu' hmask) hq₁ hq₂ hv₁ hv₂
      have hnul' : NulFree b.2 := fun c hc => hnul c (hlonger ▸ List.mem_append_left _ hc)
      have hfile {path : Str} (hpath : NulFree path) : cstr (self.file path) = pathAppend self.mountPoint_ path :=
        ((nulFree_of_notMem hmount).pathAppend hpath).cstr_eq
      have hpath : cstr (self.file b.2) = cstr (self.file b'.2) := congrArg Prod.fst hsame
      rw [hfile hnul', hfile hnul, hlonger] at hpath
      exact absurd (congrArg List.length hpath) (pathAppend_length_lt _ _ x rest).ne
    · have hlt : r.bytes.length < 4 := lt_of_le_of_ne (ReadReply.bytes_le r) hne
      let filled (b : UInt8) : Block 4 := ⟨List.replicate 4 b, List.length_replicate⟩
      have hapart (b : UInt8) : SameButMemory (ts ++ maskTrace self.socket_ block r)
          (ts ++ maskTrace self.socket_ (filled b) r) := by
        refine List.rel_append (SameButMemory.refl ts) ?_
        exact .cons (.scratch block _) (SameButMemory.refl _)
      obtain ⟨q₁, hq₁, hv₁⟩ := processAccess_goes hread (filled 0) r
      obtain ⟨q₂, hq₂, hv₂⟩ := processAccess_goes hread (filled 1) r
      have hsame := hfree _ _ _ _ _ _ (hapart 0) (hapart 1) hq₁ hq₂ hv₁ hv₂
      exact be32toh_ne hlt (congrArg Prod.snd hsame)
  · rintro ⟨hpath, hmask⟩
    have hvalue {u : List (Event (Sock Kind ServerSys))} {q : ServerIo Unit} {w : Str × UInt32}
        (hu : SameButMemory (ts ++ maskTrace self.socket_ block r) u)
        (hq : Runs (self.processAccess host) u q) (hw : asked q = some w) :
        w = (cstr (self.file a.2), be32toh r.bytes) := by
      obtain ⟨ts', a', block', r', hread', rfl, rfl⟩ := processAccess_cases hq hw
      obtain ⟨u₁, u₂, heq, hu₁, hu₂⟩ := apart_append hu
      obtain ⟨block'', u₃, rfl, hu₃⟩ := apart_scratch hu₂
      obtain ⟨u₄, rfl, hnil⟩ := apart_recv hu₃
      cases hnil
      obtain ⟨rfl, hlast⟩ := List.append_inj' heq rfl
      cases hlast
      rw [overlay_whole hmask]
      rcases hpath with hmount | hwhole
      · rw [ClientConnection.file, ClientConnection.file, pathAppend_nul hmount, pathAppend_nul hmount]
      · rw [readString_settled hread hwhole hu₁ hread']
    intro u u' q q' w w' hu hu' hq hq' hw hw'
    rw [hvalue hu hq hw, hvalue hu' hq' hw']

end ProcessAccess

end AgFS
