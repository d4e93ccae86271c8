import AgFS.Model.Agfsio

/-! The writers and readers of `agfsio.cpp` as moves of a machine: what a writer sends, its
reader takes. -/
namespace AgFS
open Interaction ByteOrder

/-! The bytes of each kind of value on the wire. -/

def encCmd (c : CmdT) : Marked Kind := mark .command (htobe16 c)

def encMask (m : AgmaskT) : Marked Kind := mark .field (htobe32 m)

def encSize (n : AgsizeT) : Marked Kind := mark .field (htobe64 n)

def encError (err : AgerrT) : Marked Kind := mark .field (htobe64 err.toUInt64)

def encString (str : Str) : Marked Kind :=
  encSize (UInt64.ofNat str.length) ++ mark .text str

def encStat (st : Stat) : Marked Kind :=
  encSize st.stDev ++ encMask st.stMode ++ encSize st.stSize.toUInt64 ++
    encSize st.stAtime.toUInt64 ++ encSize st.stMtime.toUInt64 ++ encSize st.stCtime.toUInt64

/-! A value survives its trip through network byte order. -/

@[simp] theorem htobe16_length (x : UInt16) : (htobe16 x).length = 2 := beBytes_length 2 _

@[simp] theorem htobe32_length (x : UInt32) : (htobe32 x).length = 4 := beBytes_length 4 _

@[simp] theorem htobe64_length (x : UInt64) : (htobe64 x).length = 8 := beBytes_length 8 _

@[simp] theorem be16toh_htobe16 (x : UInt16) : be16toh (htobe16 x) = x := by
  have hx : x.toNat % 256 ^ 2 = x.toNat := Nat.mod_eq_of_lt x.toNat_lt
  rw [be16toh, htobe16, beNat_beBytes, hx, UInt16.ofNat_toNat]

@[simp] theorem be32toh_htobe32 (x : UInt32) : be32toh (htobe32 x) = x := by
  have hx : x.toNat % 256 ^ 4 = x.toNat := Nat.mod_eq_of_lt x.toNat_lt
  rw [be32toh, htobe32, beNat_beBytes, hx, UInt32.ofNat_toNat]

@[simp] theorem be64toh_htobe64 (x : UInt64) : be64toh (htobe64 x) = x := by
  have hx : x.toNat % 256 ^ 8 = x.toNat := Nat.mod_eq_of_lt x.toNat_lt
  rw [be64toh, htobe64, beNat_beBytes, hx, UInt64.ofNat_toNat]

theorem htobe16_be16toh {bs : Bytes} (h : bs.length = 2) : htobe16 (be16toh bs) = bs := by
  have hl : beNat bs < 2 ^ 16 := by simpa [h] using beNat_lt bs
  rw [htobe16, be16toh, UInt16.toNat_ofNat_of_lt' hl, beBytes_beNat h]

theorem htobe32_be32toh {bs : Bytes} (h : bs.length = 4) : htobe32 (be32toh bs) = bs := by
  have hl : beNat bs < 2 ^ 32 := by simpa [h] using beNat_lt bs
  rw [htobe32, be32toh, UInt32.toNat_ofNat_of_lt' hl, beBytes_beNat h]

theorem htobe64_be64toh {bs : Bytes} (h : bs.length = 8) : htobe64 (be64toh bs) = bs := by
  have hl : beNat bs < 2 ^ 64 := by simpa [h] using beNat_lt bs
  rw [htobe64, be64toh, UInt64.toNat_ofNat_of_lt' hl, beBytes_beNat h]

/-- Commands, fields and strings move whole in both directions; for file data that is
said separately. -/
abbrev Orderly {L : Signature} {ν τ : Type} (e : Env Kind L ν τ) (recvAll sendAll : Prop) : Prop :=
  e.Prompt (fun m => m = .data → recvAll) (fun m => m = .data → sendAll)

section Items
variable {L : Signature} {ν τ : Type} {e : Env Kind L ν τ} {recvAll sendAll : Prop} {fd : Fd}

private theorem Orderly.recv (he : Orderly e recvAll sendAll) (hf : 0 ≤ fd) (m : Kind) (hm : m ≠ .data)
    {n : Nat} {bs : Bytes} (hn : bs.length = n) (s : τ) :
    e.Does (Sock.recv m fd n) s (mark m bs) [] (.ret (.got bs hn.le)) s :=
  Env.does_recv he (fun h => absurd h hm) hf hn s

private theorem Orderly.send (he : Orderly e recvAll sendAll) (hf : 0 ≤ fd) (m : Kind) (hm : m ≠ .data)
    (bs : Bytes) (s : τ) :
    e.Does (Sock.send m fd bs) s [] (mark m bs) (.ret (.wrote bs.length le_rfl)) s :=
  Env.does_send he (fun h => absurd h hm) hf bs s

theorem does_vectorResize (he : Orderly e recvAll sendAll) {n : Nat} (hn : n < 2 ^ 63) (s : τ)
    {α : Type} {f : Bytes → Io L α} {i o : Marked Kind} {q : Io L α} {s' : τ}
    (h : e.Does (f (List.replicate n 0)) s i o q s') :
    e.Does (vectorResize n >>= f) s i o q s' := by
  by_cases hz : n = 0
  · subst hz
    exact h
  · simp only [vectorResize, if_neg hz, if_neg (Nat.not_le.mpr hn)]
    exact Env.does_malloc he n s fun _ => h

/-! Writers. -/

theorem does_writeCmd (he : Orderly e recvAll sendAll) (hf : 0 ≤ fd) (c : CmdT) (s : τ) :
    e.Does (agfsWriteCmd fd c) s [] (encCmd c) (.ret 2) s :=
  (he.send hf .command (by decide) (htobe16 c) s).returns rfl

theorem does_writeMask (he : Orderly e recvAll sendAll) (hf : 0 ≤ fd) (m : AgmaskT) (s : τ) :
    e.Does (agfsWriteMask fd m) s [] (encMask m) (.ret 4) s :=
  (he.send hf .field (by decide) (htobe32 m) s).returns rfl

theorem does_writeSize (he : Orderly e recvAll sendAll) (hf : 0 ≤ fd) (n : AgsizeT) (s : τ) :
    e.Does (agfsWriteSize fd n) s [] (encSize n) (.ret 8) s :=
  (he.send hf .field (by decide) (htobe64 n) s).returns rfl

theorem does_writeError (he : Orderly e recvAll sendAll) (hf : 0 ≤ fd) (err : AgerrT) (s : τ) :
    e.Does (agfsWriteError fd err) s [] (encError err) (.ret 8) s :=
  (he.send hf .field (by decide) (htobe64 err.toUInt64) s).returns rfl

/-! Readers of one field: the variable's old value is overwritten in full. -/

theorem does_readCmd (he : Orderly e recvAll sendAll) (hf : 0 ≤ fd) (host : Endian)
    (old c : CmdT) (s : τ) :
    e.Does (agfsReadCmd host fd old) s (encCmd c) [] (.ret (2, c)) s := by
  refine (he.recv hf .command (by decide) (htobe16_length c) s).returns ?_
  simp [ReadReply.int, ReadReply.bytes, overlay_full]

theorem does_readMask (he : Orderly e recvAll sendAll) (hf : 0 ≤ fd) (host : Endian)
    (old m : AgmaskT) (s : τ) :
    e.Does (agfsReadMask host fd old) s (encMask m) [] (.ret (4, m)) s := by
  refine (he.recv hf .field (by decide) (htobe32_length m) s).returns ?_
  simp [ReadReply.int, ReadReply.bytes, overlay_full]

theorem does_readSize (he : Orderly e recvAll sendAll) (hf : 0 ≤ fd) (host : Endian)
    (old n : AgsizeT) (s : τ) :
    e.Does (agfsReadSize host fd old) s (encSize n) [] (.ret (8, n)) s := by
  refine (he.recv hf .field (by decide) (htobe64_length n) s).returns ?_
  simp [ReadReply.int, ReadReply.bytes, overlay_full]

theorem does_readError (he : Orderly e recvAll sendAll) (hf : 0 ≤ fd) (host : Endian)
    (old err : AgerrT) (s : τ) :
    e.Does (agfsReadError host fd old) s (encError err) [] (.ret (8, err)) s := by
  refine (he.recv hf .field (by decide) (htobe64_length err.toUInt64) s).returns ?_
  simp [ReadReply.int, ReadReply.bytes, overlay_full]

/-! Strings and stats. -/

theorem int32_ofNat_nonneg {n : Nat} (h : n < 2 ^ 31) : ¬ Int32.ofNat n < 0 := by
  rw [Int32.lt_iff_toInt_lt, Int32.toInt_ofNat_of_lt h]
  exact Int.not_lt.mpr (Int.natCast_nonneg n)

/-- Strings whose length with its size field still fits an `int`. -/
def Short (str : Str) : Prop := str.length ≤ 2 ^ 31 - 16

/-- Strings that fit into memory. -/
abbrev Addressable (str : Str) : Prop := str.length < 2 ^ 63

theorem Short.addressable {str : Str} (h : Short str) : Addressable str := by
  unfold Short at h
  unfold Addressable
  omega

def stringCount (str : Str) : Int32 :=
  if Int32.ofNat str.length < 0 then Int32.ofNat str.length else 8 + Int32.ofNat str.length

theorem Short.stringCount_eq {str : Str} (h : Short str) :
    stringCount str = Int32.ofNat (8 + str.length) := by
  have hl : ¬ Int32.ofNat str.length < 0 := int32_ofNat_nonneg (by unfold Short at h; omega)
  rw [stringCount, if_neg hl, Int32.ofNat_add]
  rfl

theorem does_writeString (he : Orderly e recvAll sendAll) (hf : 0 ≤ fd) (str : Str) (s : τ) :
    e.Does (agfsWriteString fd str) s [] (encString str) (.ret (stringCount str)) s := by
  refine (does_writeSize he hf _ s).andThen ?_
  refine (he.send hf .text (by decide) str s).returns ?_
  by_cases hl : Int32.ofNat str.length < 0
  · simp [WriteReply.int, stringCount, hl]
  · simp [WriteReply.int, stringCount, hl]

theorem does_readString (he : Orderly e recvAll sendAll) (hf : 0 ≤ fd) (host : Endian)
    (old : Str) {str : Str} (hs : Addressable str) (hn : NulFree str) (s : τ) :
    e.Does (agfsReadString host fd old) s (encString str) [] (.ret (stringCount str, str)) s := by
  have hlen : (UInt64.ofNat str.length).toNat = str.length :=
    UInt64.toNat_ofNat_of_lt' (by unfold Addressable at hs; simp only [UInt64.size]; omega)
  have hsize : (UInt64.ofNat str.length + 1).toNat = str.length + 1 := by
    rw [UInt64.toNat_add, hlen]
    unfold Addressable at hs
    simp only [UInt64.toNat_one]
    omega
  refine (does_readSize he hf host 0 _ s).andThen ?_
  refine Env.does_malloc he _ s fun block => ?_
  refine (he.recv hf .text (by decide) hlen.symm s).returns ?_
  have hb : block.1.length = str.length + 1 := block.2.trans hsize
  have hterm := overlay_set hb 0
  by_cases hl : Int32.ofNat str.length < 0
  · simp [ReadReply.int, ReadReply.bytes, stringCount, hl, hlen, hb, hterm, hn.cstr_terminated]
  · simp [ReadReply.int, ReadReply.bytes, stringCount, hl, hlen, hb, hterm, hn.cstr_terminated]

private theorem Orderly.sendField (he : Orderly e recvAll sendAll) (hf : 0 ≤ fd) {bs : Bytes}
    (hb : bs.length < 2 ^ 31) (s : τ) {α : Type} {f g : WriteReply bs.length → Io L α}
    {o : Marked Kind} {q : Io L α} (h : e.Does (g (.wrote bs.length le_rfl)) s [] o q s) :
    e.Does (Sock.send .field fd bs >>= fun r => if r.int < 0 then f r else g r) s
      [] (mark .field bs ++ o) q s := by
  refine (he.send hf .field (by decide) bs s).andThen ?_
  simpa [WriteReply.int, int32_ofNat_nonneg hb] using h

theorem does_writeStat (he : Orderly e recvAll sendAll) (hf : 0 ≤ fd) (st : Stat) (s : τ) :
    e.Does (agfsWriteStat fd st) s [] (encStat st) (.ret 44) s := by
  simp only [encStat, List.append_assoc]
  refine he.sendField hf (by simp) s ?_
  refine he.sendField hf (by simp) s ?_
  refine (does_writeSize he hf _ s).andThen ?_
  refine he.sendField hf (by simp) s ?_
  refine he.sendField hf (by simp) s ?_
  refine (he.send hf .field (by decide) _ s).returns ?_
  simp [WriteReply.int]

private theorem Orderly.recvField (he : Orderly e recvAll sendAll) (hf : 0 ≤ fd) {n : Nat} {bs : Bytes}
    (hb : bs.length = n) (hn : n < 2 ^ 31) (s : τ) {α : Type} {f g : ReadReply n → Io L α}
    {i : Marked Kind} {q : Io L α} (h : e.Does (g (.got bs hb.le)) s i [] q s) :
    e.Does (Sock.recv .field fd n >>= fun r => if r.int < 0 then f r else g r) s
      (mark .field bs ++ i) [] q s := by
  refine (he.recv hf .field (by decide) hb s).andThen ?_
  simpa [ReadReply.int, hb, int32_ofNat_nonneg hn] using h

theorem does_readStat (he : Orderly e recvAll sendAll) (hf : 0 ≤ fd) (host : Endian) (st : Stat)
    (s : τ) :
    e.Does (agfsReadStat host fd) s (encStat st) [] (.ret (44, st.transmitted)) s := by
  simp only [encStat, List.append_assoc]
  refine Env.does_scratch 8 s fun dev => ?_
  refine he.recvField hf (htobe64_length _) (by decide) s ?_
  refine Env.does_scratch 4 s fun mode => ?_
  refine he.recvField hf (htobe32_length _) (by decide) s ?_
  refine (does_readSize he hf host 0 _ s).andThen ?_
  refine he.recvField hf (htobe64_length _) (by decide) s ?_
  refine he.recvField hf (htobe64_length _) (by decide) s ?_
  refine (he.recv hf .field (by decide) (htobe64_length _) s).returns ?_
  simp [ReadReply.int, ReadReply.bytes, overlay_full, dev.2, mode.2, Stat.transmitted]

end Items
end AgFS
