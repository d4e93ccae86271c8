import AgFS.Client.Through
import AgFS.Files.Disk

/-! A write from the callback to the file. -/
namespace AgFS
open Interaction ByteOrder Contents

/-- What the loop of `processWrite` does with the answer to a read. -/
def storeReply (socket fd : Fd) (fuel : Nat) {left : Nat} (total : AgsizeT) :
    ReadReply left → ServerIo ClientConnection.Stored
  | .fail _ => return .ended (-1) total
  | .got chunk _ =>
    if chunk = [] then return .ended 0 total else storeChunk socket fd fuel left total chunk

theorem storeLoop_recv (socket fd : Fd) {fuel left : Nat} (hl : left ≠ 0) (err : AgerrT)
    (total : AgsizeT) :
    ClientConnection.storeLoop socket fd (fuel + 1) left err total =
      Sock.recv .data socket left >>= storeReply socket fd fuel total := by
  rw [storeLoop_step socket fd hl]
  refine congrArg _ (funext fun r => ?_)
  cases r <;> rfl

section Storing
variable {ν τ ι : Type} {e : Env Kind ServerSys ν τ} {recvAll : Prop} {self : ClientConnection}
  (he : Orderly e recvAll True) (hf : 0 ≤ self.socket_) (disk : Disk e.sys ι)
  (htakes : disk.TakesAll)
include he hf htakes

/-- The loop of `processWrite`: however the payload comes in, it ends up in the file. -/
theorem reaches_storeLoop {fd : Fd} (fuel : Nat) {bs : Bytes} (hfuel : bs.length ≤ fuel)
    (hlong : bs.length < 2 ^ 63) {err : AgerrT} (herr : 0 ≤ err) (total : AgsizeT) (v : ν) {s : τ}
    {c : Cursor ι} (hc : disk.cursor s fd O_WRONLY = some c) :
    ∃ v' t last, (e.machine _).Reaches
        (ClientConnection.storeLoop self.socket_ fd fuel bs.length err total, v, s)
        (mark .data bs) [] (.ret (.ended last (total + UInt64.ofNat bs.length)), v', t) ∧
      0 ≤ last ∧ disk.contents t c.file = layOver 0 (disk.contents s c.file) c.offset bs ∧
      ∀ j ≠ c.file, disk.contents t j = disk.contents s j := by
  induction fuel generalizing bs err total v s c with
  | zero =>
    obtain rfl := List.length_eq_zero_iff.mp (Nat.le_zero.mp hfuel)
    refine ⟨v, s, err, ?_, herr, by simp, fun _ _ => rfl⟩
    simpa [storeLoop_done] using Machine.Reaches.refl (A := e.machine _) _
  | succ fuel ih =>
    by_cases hb : bs = []
    · subst hb
      refine ⟨v, s, err, ?_, herr, by simp, fun _ _ => rfl⟩
      simpa [storeLoop_done] using Machine.Reaches.refl (A := e.machine _) _
    · rw [storeLoop_recv _ _ (by simpa using hb)]
      obtain ⟨chunk, rest, v₁, hsplit, hchunk, hn, hrecv⟩ :=
        Env.reaches_recv_some he (m := .data) hf hb v s (storeReply self.socket_ fd fuel total)
      obtain ⟨t₁, hwrite, hstored, hothers, hcursor⟩ := htakes hc hchunk
      have hlen : bs.length = chunk.length + rest.length := by rw [hsplit, List.length_append]
      have hpos : chunk.length ≠ 0 := by simpa using hchunk
      have hwrote : e.Does (storeChunk self.socket_ fd fuel bs.length total chunk) s [] []
          (ClientConnection.storeLoop self.socket_ fd fuel rest.length (Int64.ofNat chunk.length)
            (total + UInt64.ofNat chunk.length)) t₁ := by
        refine Env.does_sys_then hwrite ?_
        change e.Does (if chunk.length = 0 then _ else _) t₁ [] [] _ t₁
        rw [if_neg hpos, hlen, Nat.add_sub_cancel_left]
        exact .refl _ t₁
      obtain ⟨v₂, hwrote⟩ := hwrote v₁
      have hfuel' : rest.length ≤ fuel := by omega
      have hlong' : rest.length < 2 ^ 63 := by omega
      have hlast' : 0 ≤ Int64.ofNat chunk.length := int64_ofNat_nonneg (by omega)
      obtain ⟨v', t, last, hloop, hlast, hcontents, hsame⟩ := ih hfuel' hlong' hlast'
        (total + UInt64.ofNat chunk.length) v₂ hcursor
      refine ⟨v', t, last, ?_, hlast, ?_, ?_⟩
      · rw [storeReply, if_neg hchunk] at hrecv
        have hsum : total + UInt64.ofNat chunk.length + UInt64.ofNat rest.length =
            total + UInt64.ofNat bs.length := by
          rw [hlen, UInt64.ofNat_add, UInt64.add_assoc]
        have hmark : mark Kind.data bs = mark .data chunk ++ mark .data rest := by rw [hsplit, mark_append]
        rw [hsum] at hloop
        rw [hmark]
        exact hrecv.trans (hwrote.trans hloop)
      · rw [hcontents, hstored, layOver_append, hsplit]
      · intro j hj
        rw [hsame j hj, hothers j hj]

end Storing
/-- What `agfs_write` makes of an answer. -/
def writeResult (retVal : AgsizeT × AgerrT) : Int32 :=
  if 0 ≤ retVal.2 then retVal.1.toInt64.toInt32 else retVal.2.toInt32

section Writing
variable {ν τ ν' τ' ι : Type} {e : Env Kind ClientSys ν τ} {e' : Env Kind ServerSys ν' τ'}
  {sock : τ → Fd} {self : ClientConnection} {s : τ} {host host' : Endian}
  {connections : Connections} {fileHandle : FileHandle}

private theorem does_agfsWrite (host : Endian) (ho : KeepsObject e sock) (hf : 0 ≤ sock s)
    (hs : fileHandle.server ∈ connections) (buf : Buffer) (offset : Int64) :
    e.Does (through host (agfsWrite connections fileHandle buf offset)) s [] []
      (ServerConnection.writeFile host (cString fileHandle.file) offset.toUInt64 buf >>= fun retVal =>
        .ret (writeResult retVal)) s := by
  have h := does_usable host ho hf hs fun b => if b then
      AgfsIo.writeFile fileHandle.server (cString fileHandle.file) offset.toUInt64 buf >>=
        fun retVal => .ret (writeResult retVal)
    else .ret Errno.ENOENT.neg.toInt32
  have hresult (retVal : AgsizeT × AgerrT) :
      (if 0 ≤ retVal.2 then return retVal.1.toInt64.toInt32 else return retVal.2.toInt32 :
        AgfsIo Int32) = .ret (writeResult retVal) := by
    unfold writeResult
    split <;> rfl
  have hcallback : agfsWrite connections fileHandle buf offset =
      usable connections fileHandle.server >>= fun b => if b then
          AgfsIo.writeFile fileHandle.server (cString fileHandle.file) offset.toUInt64 buf >>=
            fun retVal => .ret (writeResult retVal)
        else .ret Errno.ENOENT.neg.toInt32 := by
    unfold agfsWrite
    simp only [hresult]
    rfl
  rw [hcallback]
  exact h

theorem reaches_receiveData {ι : Type} {recvAll : Prop} (host' : Endian) (he' : Orderly e' recvAll True)
    (hf' : 0 ≤ self.socket_) (disk : Disk e'.sys ι) (htakes : disk.TakesAll) {fd : Nat} (buf : Buffer)
    (offset : AgsizeT) (hoffset : offset.toNat < 2 ^ 63) (v : ν') {s' : τ'} {c : Cursor ι}
    (hc : disk.cursor s' fd O_WRONLY = some c) :
    ∃ v' t last, (e'.machine _).Reaches (self.receiveData host' fd, v, s')
        (encSize buf.size ++ encSize offset ++ mark .data buf.bytes)
        (encError last ++ encSize (UInt64.ofNat buf.bytes.length)) (.ret (), v', t) ∧
      0 ≤ last ∧ disk.contents t c.file =
        layOver 0 (disk.contents s' c.file) offset.toNat buf.bytes ∧
      ∀ j ≠ c.file, disk.contents t j = disk.contents s' j := by
  have hsize := buf.size_toNat
  have hreceive := does_receiveData he' hf' host' fd (by rw [hsize]; exact buf.addressable) offset s'
  obtain ⟨hkeeps, hcursor⟩ := disk.lseek_moves hc hoffset
  obtain ⟨v₁, hreceive⟩ := hreceive v
  obtain ⟨v₂, t, last, hloop, hlast, hcontents, hsame⟩ := reaches_storeLoop he' hf' disk htakes
    buf.bytes.length le_rfl buf.addressable (show (0 : AgerrT) ≤ 0 by decide) 0 v₁ hcursor
  obtain ⟨v', hfinish⟩ := does_finishWrite_ended he' hf' fd last (UInt64.ofNat buf.bytes.length) t v₂
  rw [if_pos hlast] at hfinish
  rw [UInt64.zero_add] at hloop
  refine ⟨v', (e'.sys t (.close fd)).1, last, ?_, hlast, ?_, ?_⟩
  · rw [hsize] at hreceive
    simpa using hreceive.trans ((e'.reaches_bind hloop (self.finishWrite fd)).trans hfinish)
  · rw [disk.close_keeps, hcontents, hkeeps]
  · intro j hj
    rw [disk.close_keeps, hsame j hj, hkeeps]

theorem cstr_addressable {str : Str} (h : Addressable str) : Addressable (cstr str) :=
  (List.takeWhile_prefix _).length_le.trans_lt h

/-- A number of bytes that has been written, as an `int`. -/
theorem writeResult_stored {n : Nat} (hn : n < 2 ^ 31) {last : AgerrT} (hlast : 0 ≤ last) :
    (writeResult (UInt64.ofNat n, last)).toInt = n := by
  rw [writeResult, if_pos hlast]
  simp only [UInt64.toInt64_ofNat', Int64.toInt32_ofNat']
  exact Int32.toInt_ofNat_of_lt hn

variable (he : Orderly e True False) (ho : KeepsObject e sock) (he' : Orderly e' False True)
  (hf' : 0 ≤ self.socket_)
include he ho he' hf'

theorem talks_agfsWrite (host host' : Endian) (hf : 0 ≤ sock s) (hs : fileHandle.server ∈ connections)
    (hfile : Addressable fileHandle.file) (buf : Buffer) (offset : Int64) {s' t' : τ'} {fd : Nat}
    (hopen : e'.sys s' (.open (cstr (self.file (cstr fileHandle.file))) O_WRONLY) = (t', .ok fd)) :
    e.Talks e' (through host (agfsWrite connections fileHandle buf offset))
      (Child.body host' (.serving self)) s s'
      (encCmd cmd.WRITE ++ encString (cstr fileHandle.file)) (encError 0)
      ((ServerConnection.sendData host offset.toUInt64 buf 0 >>= leave) >>= fun retVal =>
        .ret (writeResult retVal))
      (self.receiveData host' fd >>= again self) s t' := by
  have hasks := (asks_writeFile he ho hf host (cString fileHandle.file) offset.toUInt64 buf).bind
    fun retVal => .ret (writeResult retVal)
  have hserves := (does_pass he' hf' host' (.writeFile (cString fileHandle.file) offset.toUInt64 buf) s').trans
    ((does_processWrite he' hf' host' (cString fileHandle.file) (cstr_addressable hfile)
      hopen).bind (again self))
  have hcallback := Env.Asks.tell (does_agfsWrite host ho hf hs buf offset) hasks
  exact .round hcallback hserves

/-- A write through the file system: whatever pieces the payload travels in, every
interleaving ends with the buffer laid over the contents of the file. -/
theorem agfsWrite_stores (disk : Disk e'.sys ι) (htakes : disk.TakesAll) {w : ν × τ}
    (hf : 0 ≤ sock w.2) (hs : fileHandle.server ∈ connections)
    (hfile : Addressable fileHandle.file) {buf : Buffer} (hbuf : buf.bytes.length < 2 ^ 31)
    {offset : Nat} (hoffset : offset < 2 ^ 63) {w' : ν' × τ'} {t' : τ'} {fd : Nat}
    (hopen : e'.sys w'.2 (.open (cstr (self.file (cstr fileHandle.file))) O_WRONLY) = (t', .ok fd)) :
    ∃ i, disk.cursor t' fd O_WRONLY = some ⟨i, 0⟩ ∧
      (Interaction.Net.mk (through host (agfsWrite connections fileHandle buf (Int64.ofNat offset)), w)
        (Child.body host' (.serving self), w') [] [] :
          Interaction.Net (e.machine Int32) (e'.loop (Child.body host'))).EndsIn fun a b =>
        ∃ n v v' t, a = (.ret n, v, w.2) ∧ n.toInt = buf.bytes.length ∧
          b = (Child.body host' (.serving self), v', t) ∧
          disk.contents t i = layOver 0 (disk.contents w'.2 i) offset buf.bytes ∧
          ∀ j ≠ i, disk.contents t j = disk.contents w'.2 j := by
  obtain ⟨hkeeps, i, hcursor⟩ := disk.open_keeps (.inr rfl) hopen
  refine ⟨i, hcursor, ?_⟩
  obtain ⟨v, s⟩ := w
  obtain ⟨v', s'⟩ := w'
  have hoff : (Int64.ofNat offset).toUInt64.toNat = offset := by
    rw [Int64.toUInt64_ofNat', UInt64.toNat_ofNat_of_lt' (by simp only [UInt64.size]; omega)]
  obtain ⟨v₁, v₁', hfirst⟩ := talks_agfsWrite he ho he' hf' host host' hf hs hfile buf
    (Int64.ofNat offset) hopen v v'
  obtain ⟨v₂', t, last, hserver, hlast, hcontents, hsame⟩ := reaches_receiveData host' he' hf'
    disk htakes buf (Int64.ofNat offset).toUInt64 (by rwa [hoff]) v₁' hcursor
  obtain ⟨c, v₂, hsend, hhear⟩ := ((asks_sendData he ho hf host (Int64.ofNat offset).toUInt64 buf last
    (UInt64.ofNat buf.bytes.length)).bind fun retVal => .ret (writeResult retVal)) v₁
  rw [if_pos hlast] at hhear
  have hsecond := Talk.single (A := e.machine Int32) (B := e'.machine (Child ⊕ ClientConnection)) hsend
    (e'.reaches_bind hserver (again self)) hhear
  have htalk := (hfirst.trans hsecond).map (C := e.machine Int32) (D := e'.loop (Child.body host'))
    (f := id) (fun hr => hr) fun hr => e'.reaches_loop hr
  refine htalk.endsIn ⟨rfl, serving_waits he' hf' host' _⟩ ?_
  refine ⟨_, _, _, t, rfl, ?_, rfl, ?_, ?_⟩
  · rw [if_pos hlast]
    exact writeResult_stored hbuf hlast
  · rw [hcontents, hkeeps, hoff]
  · intro j hj
    rw [hsame j hj, hkeeps]

end Writing
/-- A file of three bytes, and two written behind its end. -/
theorem agfsWrite_stores_oneFile :
    ∃ i, oneFile_disk.cursor ([1, 2, 3], 0) (5 : Nat) O_WRONLY = some ⟨i, 0⟩ ∧
      (Interaction.Net.mk (through .little (agfsWrite ((∅ : Connections).insert [0x61] ⟨[0x61], [], []⟩)
          ⟨[0x61], [0x2F, 0x66]⟩ ⟨[8, 9], by decide⟩ (Int64.ofNat 4)), ((), 3))
        (Child.body .big (.serving ⟨[0x2F], 4, 0⟩), ((), ([1, 2, 3], 0))) [] [] :
          Interaction.Net ((Env.whole ClientSys.object).machine Int32)
            ((Env.whole oneFile).loop (Child.body .big))).EndsIn fun a b =>
        ∃ n v v' t, a = (.ret n, v, 3) ∧ n.toInt = 2 ∧
          b = (Child.body .big (.serving ⟨[0x2F], 4, 0⟩), v', t) ∧
          oneFile_disk.contents t i = [1, 2, 3, 0, 8, 9] ∧
          ∀ j ≠ i, oneFile_disk.contents t j = oneFile_disk.contents ([1, 2, 3], 0) j :=
  agfsWrite_stores (Env.whole_prompt _) ClientSys.object_keeps (Env.whole_prompt _) (by decide)
    oneFile_disk oneFile_takesAll (w := ((), 3)) (by decide) Std.TreeMap.mem_insert_self (by decide)
    (by decide) (by decide) rfl

end AgFS
