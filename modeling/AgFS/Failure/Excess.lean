import AgFS.Codec.Calls
import AgFS.Failure.Replies
import AgFS.Files.WriteThrough

/-! How much a read or a write on an open file may hand over to its caller, whatever the server
has answered. -/
namespace AgFS
open Interaction ByteOrder Sock

/-- A read or a write that a callback is asked for. -/
inductive Transfer where
  | read (size : AgsizeT) (offset : Int64)
  | write (buf : Buffer) (offset : Int64)

namespace Transfer

def size : Transfer → AgsizeT
  | read size _ => size
  | write buf _ => buf.size

/-- What is copied to the caller's buffer, and the result of the callback. -/
def perform (host : Endian) (connections : Connections) (fileHandle : FileHandle) :
    Transfer → ClientIo (Bytes × Int32)
  | read size offset => through host (agfsRead connections fileHandle size offset)
  | write buf offset => through host do return ([], ← agfsWrite connections fileHandle buf offset)

end Transfer

def received (t : List ClientEvent) : Bytes :=
  ((replies t).filterMap fun (m, answer) => if m = .data then answer else none).flatten

/-- A negative error, or a count that was asked for. -/
def Counted (size : AgsizeT) (result : Int32) : Prop := result < 0 ∨ result.toInt ≤ size.toNat

/-- The callback has returned: what it copied was received and asked for, and so is its count. -/
def Transfer.Safe (c : Transfer) (t : List ClientEvent) (q : ClientIo (Bytes × Int32)) : Prop :=
  ∃ copied result, q = .ret (copied, result) ∧ copied.length ≤ c.size.toNat ∧
    List.Sublist copied (received t) ∧ Counted c.size result

/-- The low 32 bits of a number spell a negative `int`, or are not more than `size`. -/
def LowFits (size : AgsizeT) (x : UInt64) : Prop :=
  2 ^ 31 ≤ x.toNat % 2 ^ 32 ∨ x.toNat % 2 ^ 32 ≤ size.toNat

private theorem toInt_low (x : UInt64) : x.toInt64.toInt32.toInt = (x.toNat : Int).bmod (2 ^ 32) := by
  rw [Int64.toInt_toInt32]
  change (x.toBitVec.toInt).bmod (2 ^ 32) = _
  rw [BitVec.toInt_eq_toNat_bmod, Int.bmod_bmod_of_dvd (by decide)]
  rfl

private theorem counted_iff (size : AgsizeT) (x : UInt64) : Counted size x.toInt64.toInt32 ↔ LowFits size x := by
  rw [Counted, LowFits, Int32.lt_iff_toInt_lt, Int32.toInt_zero, toInt_low, Int.bmod]
  omega

private theorem lowFits_of_le {size x : UInt64} (h : x.toNat ≤ size.toNat) : LowFits size x := by
  unfold LowFits
  omega

private theorem counted_neg (size : AgsizeT) (e : Errno) : Counted size e.neg.toInt32 := by
  have hpos := e.positive
  have hsmall := e.small
  left
  rw [Int32.lt_iff_toInt_lt, Int64.toInt_toInt32, e.neg_toInt, Int32.toInt_zero, Int.bmod]
  omega

/-- What a server has to have sent for a read: a negative error that is one as an `int` too or no
more than the size; an amount that can be allocated; as much data as it has announced, and no more
than was asked for. -/
def ReadFits (host : Endian) (size : AgsizeT) (t : List ClientEvent) : Prop :=
  match replies t with
  | [(_, error)] => LowFits size (fieldOf host 0 error)
  | [_, (_, amount)] => (fieldOf host 0 amount).toNat < 2 ^ 63 ∧ Granted t
  | [_, (_, amount), (_, data)] =>
    ∀ bs, data = some bs → (fieldOf host 0 amount).toNat = bs.length ∧ bs.length ≤ size.toNat
  | _ => True

/-- The sum of what the writes have moved. -/
def totalSent : List (Option Nat) → AgsizeT
  | [] => 0
  | count :: sent => UInt64.ofNat (count.getD 0) + totalSent sent

/-- What a server has to have sent for a write: an error or, when both errors are none, a count
that is negative or no more than the size as an `int`. The count is read over the sum of what was
sent, the second error over the result of the last write. -/
def WriteFits (host : Endian) (size : AgsizeT) (t : List ClientEvent) : Prop :=
  match replies t with
  | [(_, error)] => none ∈ dataSent t ∨ LowFits size (fieldOf host 0 error)
  | [(_, first), (_, error)] =>
    LowFits size (fieldOf host (lastCount (fieldOf host 0 first).toInt64 (dataSent t)).toUInt64 error)
  | [_, _, (_, count)] => LowFits size (fieldOf host (totalSent (dataSent t)) count)
  | _ => True

def Transfer.Fits (host : Endian) : Transfer → List ClientEvent → Prop
  | .read size _, t => ReadFits host size t
  | .write buf _, t => WriteFits host buf.size t

section Read
variable {host : Endian} {t : List ClientEvent} {size : AgsizeT}

theorem min_ssize {n : Nat} (hn : n < 2 ^ 63) (r : ReadReply n) {err : AgerrT} (herr : 0 ≤ err) :
    (answerOf r = none ∧ min r.ssize err = -1) ∨ ∃ bs, answerOf r = some bs ∧ 0 ≤ min r.ssize err := by
  cases r with
  | fail e =>
    refine .inl ⟨rfl, if_pos ?_⟩
    rw [Int64.le_iff_toInt_le] at herr ⊢
    exact le_trans (show (-1 : Int64).toInt ≤ (0 : Int64).toInt by decide) herr
  | got bs hbs =>
    refine .inr ⟨bs, rfl, ?_⟩
    have hlength : 0 ≤ Int64.ofNat bs.length := by
      rw [Int64.le_iff_toInt_le, Int64.toInt_ofNat_of_lt (by omega)]
      exact Int.natCast_nonneg _
    change 0 ≤ if Int64.ofNat bs.length ≤ err then Int64.ofNat bs.length else err
    split
    · exact hlength
    · exact herr

/-- How `readFile` can end: with the error it was sent, aborted when it makes room for the data,
or with as many bytes as were announced. -/
theorem readFile_cases {path : CString} {offset : AgsizeT} {q : ClientIo (Bytes × AgerrT)}
    (h : Runs (ServerConnection.readFile host path size offset) t q) (hq : Finished q) :
    (∃ error, replies t = [(.field, error)] ∧ Granted t ∧ ¬ 0 ≤ (fieldOf host 0 error).toInt64 ∧
        q = .ret ([], (fieldOf host 0 error).toInt64)) ∨
      (∃ error amount, replies t = [(.field, error), (.field, amount)] ∧ (amount.getD []).length ≤ 8 ∧
        ¬ ((fieldOf host 0 amount).toNat < 2 ^ 63 ∧ Granted t) ∧ ∃ why, q = abort why) ∨
      ∃ error amount answer value, replies t = [(.field, error), (.field, amount), (.data, answer)] ∧
        (amount.getD []).length ≤ 8 ∧ (fieldOf host 0 amount).toNat < 2 ^ 63 ∧ Granted t ∧
        (answer.getD []).length ≤ (fieldOf host 0 amount).toNat ∧
        q = .ret (overlay (List.replicate (fieldOf host 0 amount).toNat 0) (answer.getD []), value) ∧
        ((answer = none ∧ value = -1) ∨ ∃ bs, answer = some bs ∧ 0 ≤ value) := by
  obtain ⟨u₁, hu₁, h₁⟩ := pass_request h hq
  obtain ⟨_, u₂, hu₂, h₂⟩ := pass_send (fun fd => unanswered_writeSize fd size) h₁ hq
  obtain ⟨_, u₃, hu₃, h₃⟩ := pass_send (fun fd => unanswered_writeSize fd offset) h₂ hq
  obtain ⟨error, u₄, herror, h₄⟩ := pass_readError h₃ hq
  have hsame := hu₁.trans (hu₂.trans hu₃)
  change Runs (if 0 ≤ (fieldOf host 0 (answerOf error)).toInt64 then _ else _) u₄ q at h₄
  by_cases herr : 0 ≤ (fieldOf host 0 (answerOf error)).toInt64
  · rw [if_pos herr] at h₄
    obtain ⟨amount, u₅, hamount, h₅⟩ := pass_readSize h₄ hq
    have hboth : replies t = (.field, answerOf error) :: (.field, answerOf amount) :: replies u₅ := by
      rw [hsame.replies, herror.replies, hamount.replies]
    rcases pass_resize h₅ hq with ⟨hbad, hnone, habort⟩ | ⟨u₆, hsize, hgranted₆, hreplies₆, h₆⟩
    · refine .inr (.inl ⟨_, answerOf amount, by rw [hboth, hnone], answerOf_length amount, ?_, habort⟩)
      rwa [hsame.granted, herror.granted, hamount.granted]
    · obtain ⟨r, u₇, hr, h₇⟩ := pass_recv h₆ hq
      obtain ⟨rfl, rfl⟩ := Runs.ret_iff.mp h₇
      have hgranted : Granted t := by
        rw [hsame.granted, herror.granted, hamount.granted, hgranted₆, hr.granted]
        exact fun _ => List.not_mem_nil
      refine .inr (.inr ⟨_, answerOf amount, answerOf r, _, by rw [hboth, hreplies₆, hr.replies]; rfl,
        answerOf_length amount, hsize, hgranted, answerOf_length r, ?_, min_ssize hsize r herr⟩)
      rw [answerOf_getD]
      rfl
  · rw [if_neg herr] at h₄
    obtain ⟨rfl, rfl⟩ := Runs.ret_iff.mp h₄
    have hgranted : Granted t := by
      rw [hsame.granted, herror.granted]
      exact fun _ => List.not_mem_nil
    exact .inl ⟨answerOf error, by rw [hsame.replies, herror.replies]; rfl, hgranted, herr, rfl⟩

theorem safe_of_empty {c : Transfer} {result : Int32} :
    c.Safe t (.ret ([], result)) ↔ Counted c.size result := by
  constructor
  · rintro ⟨copied, _, hret, -, -, hcounted⟩
    cases hret
    exact hcounted
  · intro hcounted
    exact ⟨[], result, rfl, Nat.zero_le _, List.nil_sublist _, hcounted⟩

private theorem not_safe_abort {c : Transfer} {why : Abort} : ¬ c.Safe t (abort why) := by
  rintro ⟨copied, result, hret, -⟩
  cases hret

theorem room_length {n : Nat} {bs : Bytes} (h : bs.length ≤ n) : (overlay (List.replicate n 0) bs).length = n := by
  rw [overlay_length (by rwa [List.length_replicate]), List.length_replicate]

theorem safe_data_iff {offset : Int64} {amount : UInt64} {x y : Option Bytes} {bs : Bytes}
    (ht : replies t = [(.field, x), (.field, y), (.data, some bs)])
    (hbs : bs.length ≤ amount.toNat) :
    (Transfer.read size offset).Safe t (.ret (overlay (List.replicate amount.toNat 0) bs, amount.toInt64.toInt32)) ↔
      amount.toNat = bs.length ∧ bs.length ≤ size.toNat := by
  have hreceived : received t = bs := by
    simp [received, ht]
  constructor
  · rintro ⟨copied, result, hret, hle, hsub, -⟩
    cases hret
    rw [room_length hbs] at hle
    have hshort := hsub.length_le
    rw [room_length hbs, hreceived] at hshort
    exact ⟨Nat.le_antisymm hshort hbs, hbs.trans hle⟩
  · rintro ⟨hall, hle⟩
    have hwhole : overlay (List.replicate amount.toNat 0) bs = bs :=
      overlay_full (by rw [List.length_replicate, hall])
    refine ⟨_, _, rfl, ?_, ?_, ?_⟩
    · rwa [hwhole]
    · rw [hwhole, hreceived]
    · exact (counted_iff _ _).mpr (lowFits_of_le (hall.trans_le hle))

private theorem read_safe_iff {connections : Connections} {fileHandle : FileHandle} {offset : Int64}
    {q : ClientIo (Bytes × Int32)}
    (h : Runs (through host (agfsRead connections fileHandle size offset)) t q) (hq : Finished q) :
    (Transfer.read size offset).Safe t q ↔ ReadFits host size t := by
  rw [agfsRead] at h
  obtain ⟨b, u, hu, h₁⟩ := pass_usable h hq
  cases b with
  | false =>
    obtain ⟨rfl, rfl⟩ := Runs.ret_iff.mp h₁
    have hnone : replies t = [] := hu.replies
    rw [ReadFits, hnone]
    exact iff_of_true (safe_of_empty.mpr (counted_neg _ _)) trivial
  | true =>
    change Runs (ServerConnection.readFile host (cString fileHandle.file) size offset.toUInt64 >>= fun retVal =>
      through host _) u q at h₁
    rcases finished_bind h₁ hq with ⟨why, habort, rfl⟩ | ⟨t₁, t₂, retVal, rfl, hfile, hend⟩
    · rcases readFile_cases habort (.inr ⟨why, rfl⟩) with ⟨_, -, -, -, hret⟩ | ⟨error, amount, hreplies, -, hbad, -⟩ |
        ⟨_, _, _, _, -, -, -, -, -, hret, -⟩
      · cases hret
      · rw [ReadFits, hu.replies, hreplies, hu.granted]
        exact iff_of_false not_safe_abort hbad
      · cases hret
    · rcases readFile_cases hfile (.inl ⟨_, rfl⟩) with ⟨error, hreplies, -, hneg, hret⟩ | ⟨_, _, -, -, -, why, hret⟩ |
        ⟨error, amount, answer, value, hreplies, -, -, -, hle, hret, hvalue⟩
      · cases hret
        change Runs (through host (if 0 ≤ (fieldOf host 0 error).toInt64 then _ else _)) t₂ q at hend
        rw [if_neg hneg] at hend
        obtain ⟨rfl, rfl⟩ := Runs.ret_iff.mp hend
        rw [List.append_nil] at hu
        rw [safe_of_empty, ReadFits, hu.replies, hreplies]
        exact counted_iff _ _
      · cases hret
      · cases hret
        change Runs (through host (if 0 ≤ value then _ else _)) t₂ q at hend
        rcases hvalue with ⟨rfl, rfl⟩ | ⟨bs, rfl, hpos⟩
        · rw [if_neg (by decide)] at hend
          obtain ⟨rfl, rfl⟩ := Runs.ret_iff.mp hend
          rw [List.append_nil] at hu
          rw [safe_of_empty, ReadFits, hu.replies, hreplies]
          exact iff_of_true (.inl (show (-1 : Int64).toInt32 < 0 by decide)) nofun
        · rw [if_pos hpos] at hend
          obtain ⟨rfl, rfl⟩ := Runs.ret_iff.mp hend
          rw [List.append_nil] at hu
          have ht : replies t = _ := hu.replies.trans hreplies
          have hle : bs.length ≤ (fieldOf host 0 amount).toNat := hle
          have hcount : UInt64.ofNat (overlay (List.replicate (fieldOf host 0 amount).toNat 0) bs).length =
              fieldOf host 0 amount := by
            rw [room_length hle, UInt64.ofNat_toNat]
          rw [ReadFits, ht]
          simp only [Option.getD_some, hcount, Option.some.injEq, forall_eq']
          exact safe_data_iff ht hle

end Read

section Write
variable {host : Endian} {t : List ClientEvent} {buf : Buffer} {path : CString} {offset : AgsizeT}

/-- Calls with which a program neither ends nor asks for memory. -/
def Steadfast : SockCall Kind ClientSys → Prop
  | .malloc _ | .abort _ => False
  | _ => True

instance (fd : Fd) : AllowsSend Steadfast fd := ⟨fun _ _ => trivial⟩

theorem steadfast_sys (c : ClientCall) : (ClientIo.sys c).Only Steadfast := ⟨trivial, fun _ => trivial⟩

theorem steadfast_socket {α : Type} {f : Fd → ClientIo α} (hf : ∀ fd, (f fd).Only Steadfast) :
    (ServerConnection.socket_ >>= f).Only Steadfast := ⟨trivial, hf⟩

theorem steadfast_readError (fd : Fd) (err : AgerrT) : (agfsReadError host fd err : ClientIo _).Only Steadfast :=
  ⟨trivial, fun _ => trivial⟩

theorem steadfast_readSize (fd : Fd) (n : AgsizeT) : (agfsReadSize host fd n : ClientIo _).Only Steadfast :=
  ⟨trivial, fun _ => trivial⟩

theorem steadfast_sendBuffer (fuel : Nat) (rest : Bytes) (total : AgsizeT) (err : AgerrT) :
    (ServerConnection.sendBuffer fuel rest total err).Only Steadfast := by
  induction fuel generalizing rest total err with
  | zero => trivial
  | succ fuel ih =>
    refine .ite trivial (steadfast_socket fun fd => .bind (may_send fd .data rest) fun r => ?_)
    cases r with
    | fail e => trivial
    | wrote count hcount => exact .ite trivial (ih _ _ _)

private theorem steadfast_sendData (err : AgerrT) : (ServerConnection.sendData host offset buf err).Only Steadfast := by
  refine steadfast_socket fun fd => .bind (only_writeSize fd buf.size) fun _ => ?_
  refine steadfast_socket fun fd => .bind (only_writeSize fd offset) fun _ => ?_
  refine .bind (steadfast_sendBuffer _ _ _ _) fun ⟨total, result⟩ => ?_
  cases result with
  | error e => trivial
  | ok last =>
    refine steadfast_socket fun fd => .bind (steadfast_readError fd last) fun _ => .ite ?_ trivial
    exact steadfast_socket fun fd => .bind (steadfast_readSize fd total) fun _ => trivial

theorem steadfast_writeFile : (ServerConnection.writeFile host path offset buf).Only Steadfast := by
  refine .bind (steadfast_sys .lock) fun _ => .bind ?_ fun _ => .bind (steadfast_sys .unlock) fun _ => trivial
  refine steadfast_socket fun fd => .bind (only_writeCmd fd cmd.WRITE) fun _ => ?_
  refine steadfast_socket fun fd => .bind (only_writeString fd path.1) fun _ => ?_
  refine steadfast_socket fun fd => .bind (steadfast_readError fd 0) fun _ => ?_
  exact .ite trivial (steadfast_sendData _)

theorem replies_append (t u : List ClientEvent) : replies (t ++ u) = replies t ++ replies u :=
  List.filterMap_append

theorem sendBuffer_total {fuel : Nat} {rest : Bytes} {total total' : AgsizeT} {err : AgerrT}
    {result : Except Errno AgerrT}
    (h : Runs (ServerConnection.sendBuffer fuel rest total err) t (.ret (total', result))) :
    replies t = [] ∧ total' = total + totalSent (dataSent t) := by
  induction fuel generalizing rest total err t with
  | zero =>
    obtain ⟨rfl, hret⟩ := Runs.ret_iff.mp h
    cases hret
    exact ⟨rfl, (UInt64.add_zero _).symm⟩
  | succ fuel ih =>
    rw [ServerConnection.sendBuffer] at h
    by_cases hrest : rest = []
    · rw [if_pos hrest] at h
      obtain ⟨rfl, hret⟩ := Runs.ret_iff.mp h
      cases hret
      exact ⟨rfl, (UInt64.add_zero _).symm⟩
    · rw [if_neg hrest] at h
      obtain ⟨fd, u, rfl, h₁⟩ := Sock.runs_sys.mp h
      obtain ⟨r, v, rfl, h₂⟩ := Sock.runs_send.mp h₁
      cases r with
      | fail e =>
        obtain ⟨rfl, hret⟩ := Runs.ret_iff.mp h₂
        cases hret
        exact ⟨rfl, (UInt64.add_zero _).symm⟩
      | wrote count hcount =>
        dsimp only at h₂
        by_cases hzero : count = 0
        · rw [if_pos hzero] at h₂
          obtain ⟨rfl, hret⟩ := Runs.ret_iff.mp h₂
          cases hret
          subst hzero
          exact ⟨rfl, (UInt64.add_zero _).symm⟩
        · rw [if_neg hzero] at h₂
          obtain ⟨hnone, hsum⟩ := ih h₂
          exact ⟨hnone, hsum.trans (UInt64.add_assoc ..)⟩

theorem finish_counted_iff {last : AgerrT} {total : AgsizeT} {size : AgsizeT} {retVal : AgsizeT × AgerrT}
    (h : Runs (do
      let (_, error) ← agfsReadError host (← ServerConnection.socket_) last
      if 0 ≤ error then
        let (_, totalWritten) ← agfsReadSize host (← ServerConnection.socket_) total
        return (totalWritten, error)
      else
        return (total, error)) t (.ret retVal)) :
    dataSent t = [] ∧
      ((∃ error, replies t = [(.field, error)] ∧
          (Counted size (writeResult retVal) ↔ LowFits size (fieldOf host last.toUInt64 error))) ∨
        ∃ error count, replies t = [(.field, error), (.field, count)] ∧
          (Counted size (writeResult retVal) ↔ LowFits size (fieldOf host total count))) := by
  obtain ⟨error, u, herror, h₁⟩ := pass_readError h (.inl ⟨_, rfl⟩)
  change Runs (if 0 ≤ (fieldOf host last.toUInt64 (answerOf error)).toInt64 then _ else _) u _ at h₁
  by_cases herr : 0 ≤ (fieldOf host last.toUInt64 (answerOf error)).toInt64
  · rw [if_pos herr] at h₁
    obtain ⟨count, v, hcount, h₂⟩ := pass_readSize h₁ (.inl ⟨_, rfl⟩)
    obtain ⟨rfl, hret⟩ := Runs.ret_iff.mp h₂
    cases hret
    refine ⟨herror.sent.trans hcount.sent, .inr ⟨_, answerOf count, by rw [herror.replies, hcount.replies]; rfl, ?_⟩⟩
    rw [writeResult, if_pos herr]
    exact counted_iff _ _
  · rw [if_neg herr] at h₁
    obtain ⟨rfl, hret⟩ := Runs.ret_iff.mp h₁
    cases hret
    refine ⟨herror.sent, .inl ⟨answerOf error, herror.replies, ?_⟩⟩
    rw [writeResult, if_neg herr]
    exact counted_iff _ _

private theorem writeFile_counted_iff {retVal : AgsizeT × AgerrT}
    (h : Runs (ServerConnection.writeFile host path offset buf) t (.ret retVal)) :
    Counted buf.size (writeResult retVal) ↔ WriteFits host buf.size t := by
  obtain ⟨u₁, hu₁, h₁⟩ := pass_request h (.inl ⟨_, rfl⟩)
  obtain ⟨r, u₂, hr, h₂⟩ := pass_readError h₁ (.inl ⟨_, rfl⟩)
  have hfirst : replies t = (.field, answerOf r) :: replies u₂ := hu₁.replies.trans hr.replies
  have hsent₂ : dataSent t = dataSent u₂ := hu₁.sent.trans hr.sent
  generalize answerOf r = first at hfirst h₂
  change Runs (if (fieldOf host 0 first).toInt64 < 0 then _ else _) u₂ _ at h₂
  by_cases hneg : (fieldOf host 0 first).toInt64 < 0
  · rw [if_pos hneg] at h₂
    obtain ⟨rfl, hret⟩ := Runs.ret_iff.mp h₂
    cases hret
    have hresult : writeResult (0, (fieldOf host 0 first).toInt64) = (fieldOf host 0 first).toInt64.toInt32 :=
      if_neg (Int64.not_le.mpr hneg)
    change Counted buf.size (writeResult (0, (fieldOf host 0 first).toInt64)) ↔ _
    rw [WriteFits, hfirst, hsent₂, hresult, counted_iff]
    exact (or_iff_right List.not_mem_nil).symm
  · rw [if_neg hneg] at h₂
    obtain ⟨_, u₃, hu₃, h₃⟩ := pass_send (fun fd => unanswered_writeSize fd buf.size) h₂ (.inl ⟨_, rfl⟩)
    obtain ⟨_, u₄, hu₄, h₄⟩ := pass_send (fun fd => unanswered_writeSize fd offset) h₃ (.inl ⟨_, rfl⟩)
    obtain ⟨t₁, t₂, ⟨total, result⟩, rfl, hloop, h₅⟩ := Runs.bind_ret_iff.mp h₄
    obtain ⟨hmute, htotal⟩ := sendBuffer_total hloop
    obtain ⟨-, hsentAs⟩ := sendBuffer_sent hloop
    have hrest : replies t = (.field, first) :: replies t₂ := by
      rw [hfirst, hu₃.replies, hu₄.replies, replies_append, hmute, List.nil_append]
    have hdata : dataSent t = dataSent t₁ ++ dataSent t₂ := by
      rw [hsent₂, hu₃.sent, hu₄.sent]
      exact List.filterMap_append
    cases result with
    | error e =>
      obtain ⟨rfl, hret⟩ := Runs.ret_iff.mp h₅
      cases hret
      have hmem : none ∈ dataSent t := hdata ▸ List.mem_append_left _ hsentAs
      rw [WriteFits, hrest, writeResult, if_neg e.not_le_neg]
      exact iff_of_true (counted_neg _ _) (.inl hmem)
    | ok last =>
      obtain ⟨hnone, hlast⟩ := hsentAs
      obtain ⟨hend, hcases⟩ := finish_counted_iff h₅
      rw [hend, List.append_nil] at hdata
      rcases hcases with ⟨error, hreplies', hcounted⟩ | ⟨error, count, hreplies', hcounted⟩
      · rw [WriteFits, hrest, hreplies', hcounted, hlast, hdata]
        rfl
      · rw [WriteFits, hrest, hreplies', hcounted, htotal, hdata, UInt64.zero_add]

private theorem write_safe_iff {connections : Connections} {fileHandle : FileHandle} {offset : Int64}
    {q : ClientIo (Bytes × Int32)}
    (h : Runs ((Transfer.write buf offset).perform host connections fileHandle) t q) (hq : Finished q) :
    (Transfer.write buf offset).Safe t q ↔ WriteFits host buf.size t := by
  rw [Transfer.perform, agfsWrite, bind_assoc] at h
  obtain ⟨b, u, hu, h₁⟩ := pass_usable h hq
  cases b with
  | false =>
    obtain ⟨rfl, rfl⟩ := Runs.ret_iff.mp h₁
    have hnone : replies t = [] := hu.replies
    rw [WriteFits, hnone]
    exact iff_of_true (safe_of_empty.mpr (counted_neg _ _)) trivial
  | true =>
    change Runs (ServerConnection.writeFile host (cString fileHandle.file) offset.toUInt64 buf >>= fun retVal =>
      through host _) u q at h₁
    obtain ⟨t₁, t₂, retVal, rfl, hfile, hend⟩ := finished_rest (fun _ => id) steadfast_writeFile h₁ hq
    have hret : t₂ = [] ∧ q = .ret ([], writeResult retVal) := by
      unfold writeResult
      change Runs (through host ((if 0 ≤ retVal.2 then _ else _) >>= _)) t₂ q at hend
      by_cases herr : 0 ≤ retVal.2
      · rw [if_pos herr] at hend ⊢
        exact Runs.ret_iff.mp hend
      · rw [if_neg herr] at hend ⊢
        exact Runs.ret_iff.mp hend
    obtain ⟨rfl, rfl⟩ := hret
    rw [List.append_nil] at hu
    rw [safe_of_empty, Transfer.size, writeFile_counted_iff hfile, WriteFits, WriteFits, hu.replies, hu.sent]

end Write

/-- In every run to an end, whatever the server sends, a read or a write hands over no more than
was asked for exactly when what was sent fits. -/
theorem Transfer.safe_iff {host : Endian} {connections : Connections} {fileHandle : FileHandle} {c : Transfer}
    {t : List ClientEvent} {q : ClientIo (Bytes × Int32)}
    (h : Runs (c.perform host connections fileHandle) t q) (hq : Finished q) : c.Safe t q ↔ c.Fits host t := by
  cases c with
  | read size offset => exact read_safe_iff h hq
  | write buf offset => exact write_safe_iff h hq

def root : CString := ⟨[0x2F], by decide⟩

def soleHost : Connections := (∅ : Connections).insert [0x61] ⟨[0x61], [], []⟩

/-- A read of one byte, to which the server answers with five. -/
def overfull : List ClientEvent :=
  [⟨.sys .getSocket, (4 : Fd)⟩, ⟨.sys .lock, ()⟩,
    ⟨.sys .getSocket, (4 : Fd)⟩, ⟨.send .command 4 (htobe16 cmd.READ), .all 2⟩,
    ⟨.sys .getSocket, (4 : Fd)⟩, ⟨.send .field 4 (htobe64 1), .all 8⟩, ⟨.send .text 4 [0x2F], .all 1⟩,
    ⟨.sys .getSocket, (4 : Fd)⟩, ⟨.send .field 4 (htobe64 1), .all 8⟩,
    ⟨.sys .getSocket, (4 : Fd)⟩, ⟨.send .field 4 (htobe64 0), .all 8⟩,
    ⟨.sys .getSocket, (4 : Fd)⟩, ⟨.recv .field 4 8, .got [0, 0, 0, 0, 0, 0, 0, 0] (Nat.le_refl _)⟩,
    ⟨.sys .getSocket, (4 : Fd)⟩, ⟨.recv .field 4 8, .got [0, 0, 0, 0, 0, 0, 0, 5] (Nat.le_refl _)⟩,
    ⟨.malloc 5, some (Block.zeros 5)⟩,
    ⟨.sys .getSocket, (4 : Fd)⟩, ⟨.recv .data 4 5, .got [1, 2, 3, 4, 5] (Nat.le_refl _)⟩, ⟨.sys .unlock, ()⟩]

private theorem runs_overfull : Runs ((Transfer.read 1 0).perform .little soleHost ⟨[0x61], [0x2F]⟩) overfull
    (.ret ([1, 2, 3, 4, 5], 5)) := by
  have hmem : [0x61] ∈ soleHost := Std.TreeMap.mem_insert_self
  rw [Transfer.perform, agfsRead, usable, if_pos hmem]
  repeat apply Runs.step
  exact .refl _

theorem Transfer.safe_iff_overfull :
    (Transfer.read 1 0).Safe overfull (.ret ([1, 2, 3, 4, 5], 5)) ↔ (Transfer.read 1 0).Fits .little overfull :=
  Transfer.safe_iff runs_overfull (.inl ⟨_, rfl⟩)

theorem Transfer.not_safe_overfull :
    Runs ((Transfer.read 1 0).perform .little soleHost ⟨[0x61], [0x2F]⟩) overfull (.ret ([1, 2, 3, 4, 5], 5)) ∧
      ¬ (Transfer.read 1 0).Safe overfull (.ret ([1, 2, 3, 4, 5], 5)) := by
  refine ⟨runs_overfull, ?_⟩
  rintro ⟨copied, result, hret, hle, -⟩
  cases hret
  exact absurd hle (by decide)

end AgFS
