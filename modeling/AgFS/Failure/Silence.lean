import AgFS.Failure.Excess

/-! Which operations of the client say nothing of what they have not received. -/
namespace Interaction.Sock
variable {κ : Type} {L : Signature} {α β : Type} {A : (c : SockCall κ L) → (Sock κ L).Reply c → Prop}

/-- A run of the program to its end has returned exactly when all its answers are of the kind `A`. -/
def Settles (A : (c : SockCall κ L) → (Sock κ L).Reply c → Prop) (p : Prog (Sock κ L) α) : Prop :=
  ∀ ⦃t q⦄, Runs p t q → Finished q → ((∃ a, q = .ret a) ↔ ∀ ev ∈ t, A ev.call ev.reply)

private theorem abort_ne_ret (why : Abort) (a : α) : (abort why : Prog (Sock κ L) α) ≠ .ret a := nofun

private theorem settles_bind {p : Prog (Sock κ L) α} {f : α → Prog (Sock κ L) β} (hp : Settles A p)
    (hf : ∀ a, Settles A (f a)) : Settles A (p >>= f) := by
  intro t q h hq
  rcases finished_bind h hq with ⟨why, habort, rfl⟩ | ⟨t₁, t₂, a, rfl, h₁, h₂⟩
  · refine iff_of_false (fun ⟨b, hb⟩ => abort_ne_ret why b hb) fun hall => ?_
    obtain ⟨a, ha⟩ := (hp habort (.inr ⟨why, rfl⟩)).mpr hall
    exact abort_ne_ret why a ha
  · have hfirst := (hp h₁ (.inl ⟨a, rfl⟩)).mp ⟨a, rfl⟩
    rw [hf a h₂ hq, List.forall_mem_append]
    exact (and_iff_right hfirst).symm

private theorem settles_ite {c : Prop} [Decidable c] {p q : Prog (Sock κ L) α} (hp : Settles A p) (hq : Settles A q) :
    Settles A (if c then p else q) := by
  split
  · exact hp
  · exact hq

theorem settles_of_only {P : SockCall κ L → Prop} (hP : ∀ c, P c → (∀ why, c ≠ .abort why) ∧ ∀ r, A c r)
    {p : Prog (Sock κ L) α} (hp : p.Only P) : Settles A p := by
  intro t q h hq
  refine iff_of_true ?_ fun ev hev => (hP _ (hp.runs h ev hev)).2 ev.reply
  rcases hq with hret | ⟨why, rfl⟩
  · exact hret
  · have hleft : (abort why : Prog (Sock κ L) α).Meets (fun _ _ => True) P fun _ => True :=
      (Prog.Meets.of_only hp).rest h fun _ _ => trivial
    exact absurd rfl ((hP _ hleft.1).1 why)

private theorem settles_ret (a : α) : Settles A (.ret a) :=
  settles_of_only (P := fun _ => False) (fun _ => False.elim) trivial

end Interaction.Sock

namespace AgFS
open Interaction ByteOrder Sock

/-- There is memory, and more than nothing was asked for: the memory for a string of `2 ^ 64 - 1` bytes is none. -/
def Allots : (c : SockCall Kind ClientSys) → (Sock Kind ClientSys).Reply c → Prop
  | .malloc n, block => n ≠ 0 ∧ ∃ memory : Block n, block = some memory
  | _, _ => True

section Settled
variable {host : Endian} {α : Type}

private theorem Steadfast.settles {p : ClientIo α} (hp : p.Only Steadfast) : Settles Allots p := by
  refine settles_of_only (fun c hc => ?_) hp
  cases c with
  | malloc n | abort why => exact hc.elim
  | _ => exact ⟨nofun, fun _ => trivial⟩

private theorem steadfast_field {n : Nat} {fd : Fd} {f g : ReadReply n → ClientIo α}
    (hf : ∀ r, (f r).Only Steadfast) (hg : ∀ r, (g r).Only Steadfast) :
    (recv .field fd n >>= fun r => if r.int < 0 then f r else g r).Only Steadfast :=
  ⟨trivial, fun r => .ite (hf r) (hg r)⟩

private theorem steadfast_readStat (fd : Fd) : (agfsReadStat host fd : ClientIo _).Only Steadfast := by
  refine ⟨trivial, fun _ => steadfast_field (fun _ => trivial) fun _ => ?_⟩
  refine ⟨trivial, fun _ => steadfast_field (fun _ => trivial) fun _ => ?_⟩
  refine .bind (steadfast_readSize fd 0) fun _ => .ite trivial ?_
  refine steadfast_field (fun _ => trivial) fun _ => ?_
  refine steadfast_field (fun _ => trivial) fun _ => ?_
  exact steadfast_field (fun _ => trivial) fun _ => trivial

theorem settles_readString (fd : Fd) (str : Str) : Settles Allots (agfsReadString host fd str : ClientIo _) := by
  refine settles_bind (Steadfast.settles (steadfast_readSize fd 0)) fun ⟨err, pathLen⟩ => ?_
  refine settles_ite (settles_ret _) ?_
  intro t q h hq
  rcases Runs.call_cases h with ⟨-, rfl⟩ | ⟨block, u, rfl, h₁⟩
  · rcases hq with ⟨a, ha⟩ | ⟨why, hwhy⟩
    · cases ha
    · injection hwhy with hcall
      cases hcall
  cases block with
  | none =>
    obtain ⟨-, rfl⟩ := runs_abort h₁
    refine iff_of_false (fun ⟨a, ha⟩ => abort_ne_ret _ a ha) fun hall => ?_
    obtain ⟨-, memory, hnone⟩ := hall _ List.mem_cons_self
    cases hnone
  | some string =>
    have hlength : string.1.length = (pathLen.toNat + 1) % 2 ^ 64 := string.2.trans (UInt64.toNat_add pathLen 1)
    have hlt := pathLen.toNat_lt
    change Runs (recv .text fd pathLen.toNat >>= _) u q at h₁
    by_cases hwrap : string.1.length ≤ pathLen.toNat
    · have hempty : (pathLen + 1).toNat = 0 := by
        rw [← string.2]
        omega
      have hend : ∃ why, q = abort why := by
        simp only [if_pos hwrap, abort_bind] at h₁
        rcases finished_bind h₁ hq with ⟨why, -, hwhy⟩ | ⟨_, _, _, -, -, h₂⟩
        · exact ⟨why, hwhy⟩
        · exact ⟨_, (runs_abort h₂).2⟩
      obtain ⟨why, rfl⟩ := hend
      exact iff_of_false (fun ⟨a, ha⟩ => abort_ne_ret _ a ha) fun hall => (hall _ List.mem_cons_self).1 hempty
    · simp only [if_neg hwrap] at h₁
      have hrest : Settles Allots (recv .text fd pathLen.toNat >>= fun r =>
          if r.int < 0 then .ret (r.int, cstr ((overlay string.1 r.bytes).set pathLen.toNat 0))
          else .ret (err + r.int, cstr ((overlay string.1 r.bytes).set pathLen.toNat 0)) : ClientIo (Int32 × Str)) :=
        Steadfast.settles ⟨trivial, fun r => .ite trivial trivial⟩
      rw [hrest h₁ hq, List.forall_mem_cons]
      refine (and_iff_right ⟨fun hzero => hwrap ?_, string, rfl⟩).symm
      rw [string.2, hzero]
      exact Nat.zero_le _

private theorem settles_readEntries (count : Nat) : Settles Allots (ServerConnection.readEntries host count) := by
  induction count with
  | zero => exact settles_ret []
  | succ count ih =>
    refine settles_bind (Steadfast.settles (steadfast_sys .getSocket)) fun fd => ?_
    refine settles_bind (settles_readString fd []) fun _ => ?_
    refine settles_bind (Steadfast.settles (steadfast_sys .getSocket)) fun fd => ?_
    refine settles_bind (Steadfast.settles (steadfast_readStat fd)) fun _ => ?_
    exact settles_bind ih fun _ => settles_ret _

private theorem settles_monitored {body : ClientIo α} (hbody : Settles Allots body) :
    Settles Allots (ServerConnection.monitored body) :=
  settles_bind (Steadfast.settles (steadfast_sys .lock)) fun _ => settles_bind hbody fun _ =>
    settles_bind (Steadfast.settles (steadfast_sys .unlock)) fun _ => settles_ret _

theorem settles_request {c : CmdT} {path : Str} {p : ClientIo α} (hp : Settles Allots p) :
    Settles Allots (ServerConnection.monitored do
      let _ ← agfsWriteCmd (← ServerConnection.socket_) c
      let _ ← agfsWriteString (← ServerConnection.socket_) path
      p) := by
  refine settles_monitored (settles_bind (Steadfast.settles (steadfast_sys .getSocket)) fun fd => ?_)
  refine settles_bind (Steadfast.settles (only_writeCmd fd c)) fun _ => ?_
  refine settles_bind (Steadfast.settles (steadfast_sys .getSocket)) fun fd => ?_
  exact settles_bind (Steadfast.settles (only_writeString fd path)) fun _ => hp

private theorem settles_getattr (path : CString) : Settles Allots (ServerConnection.getattr host path) := by
  refine settles_request (Steadfast.settles (steadfast_socket fun fd => ?_))
  refine .bind (steadfast_readError fd 0) fun _ => .ite (steadfast_socket fun fd => ?_) trivial
  exact .bind (steadfast_readStat fd) fun _ => trivial

private theorem settles_access (path : CString) (mask : AgmaskT) :
    Settles Allots (ServerConnection.access host path mask) := by
  refine settles_request (Steadfast.settles (steadfast_socket fun fd => ?_))
  refine .bind (only_writeMask fd mask) fun _ => ⟨trivial, fun _ => steadfast_socket fun fd => ?_⟩
  exact .bind (steadfast_readError fd _) fun _ => trivial

private theorem settles_open (path : CString) (flags : AgmaskT) :
    Settles Allots (ServerConnection.open host path flags) := by
  refine settles_request (Steadfast.settles (steadfast_socket fun fd => ?_))
  refine .bind (only_writeMask fd flags) fun _ => steadfast_socket fun fd => ?_
  exact .bind (steadfast_readError fd 0) fun _ => trivial

private theorem settles_readdir (path : CString) : Settles Allots (ServerConnection.readdir host path) := by
  refine settles_request (settles_bind (Steadfast.settles (steadfast_sys .getSocket)) fun fd => ?_)
  refine settles_bind (Steadfast.settles (steadfast_readError fd 0)) fun _ => settles_ite ?_ (settles_ret _)
  refine settles_bind (Steadfast.settles (steadfast_sys .getSocket)) fun fd => ?_
  refine settles_bind (Steadfast.settles (steadfast_readSize fd 0)) fun _ => ?_
  exact settles_bind (settles_readEntries _) fun _ => settles_ret _

/-- An operation other than `readFile` returns exactly when there is memory for all that it is sent. -/
theorem settles_perform {r : Request} (hr : r ≠ .heartbeat)
    (hread : ∀ path size offset, r ≠ .readFile path size offset) :
    Settles Allots (r.perform host) := by
  cases r with
  | heartbeat => exact absurd rfl hr
  | getattr path => exact settles_getattr path
  | access path mask => exact settles_access path mask
  | readdir path => exact settles_readdir path
  | readFile path size offset => exact absurd rfl (hread path size offset)
  | writeFile path offset buf => exact Steadfast.settles steadfast_writeFile
  | «open» path flags => exact settles_open path flags

end Settled
/-- For what an operation is told of there is memory; in `readFile` it is less than `2 ^ 63` bytes. -/
def Housed (host : Endian) : Request → List ClientEvent → Prop
  | .readFile _ _ _, t => Granted t ∧ ¬ Flagged (overlay (host.store 8 0) (secondHeard t))
  | _, t => ∀ ev ∈ t, Allots ev.call ev.reply

section Returned
variable {host : Endian} {t : List ClientEvent}

private theorem fieldsHeard_eq (t : List ClientEvent) :
    fieldsHeard t = (replies t).filterMap fun a => if a.1 = .field then some (a.2.getD []) else none := by
  induction t with
  | nil => rfl
  | cons ev t ih =>
    obtain ⟨call, r⟩ := ev
    cases call with
    | recv m fd n =>
      rw [replies_recv, List.filterMap_cons, answerOf_getD, ← ih]
      cases m <;> rfl
    | _ => exact ih

/-- A size in memory is less than `2 ^ 63` unless its first bit is set. -/
theorem fieldOf_lt_iff {amount : Option Bytes} (h : (amount.getD []).length ≤ 8) :
    (fieldOf host 0 amount).toNat < 2 ^ 63 ↔ ¬ Flagged (overlay (host.store 8 0) (amount.getD [])) := by
  rw [← error_neg_iff (host.store_length 8 0) h, Int64.lt_iff_toInt_lt, Int64.toInt_zero]
  change _ ↔ ¬ (fieldOf host 0 amount).toBitVec.toInt < 0
  rw [BitVec.toInt_neg_iff]
  change _ ↔ ¬ 2 ^ 64 ≤ 2 * (fieldOf host 0 amount).toNat
  omega

private theorem readFile_returned_iff {path : CString} {size offset : AgsizeT} {q : ClientIo (Bytes × AgerrT)}
    (h : Runs (ServerConnection.readFile host path size offset) t q) (hq : Finished q) :
    (∃ res, q = .ret res) ↔ Housed host (.readFile path size offset) t := by
  have second {a b : Option Bytes} {rest : List (Kind × Option Bytes)}
      (ht : replies t = (.field, a) :: (.field, b) :: rest) : secondHeard t = b.getD [] := by
    rw [secondHeard, fieldsHeard_eq, ht]
    rfl
  rcases readFile_cases h hq with ⟨error, hreplies, hgranted, -, rfl⟩ |
    ⟨error, amount, hreplies, hfits, hbad, why, rfl⟩ |
    ⟨error, amount, answer, value, hreplies, hfits, hsize, hgranted, -, rfl, -⟩
  · refine iff_of_true ⟨_, rfl⟩ ⟨hgranted, ?_⟩
    have hnone : secondHeard t = [] := by
      rw [secondHeard, fieldsHeard_eq, hreplies]
      rfl
    rw [hnone]
    exact (@fieldOf_lt_iff host none (Nat.zero_le 8)).mp (by cases host <;> decide)
  · constructor
    · rintro ⟨res, hres⟩
      exact absurd hres (abort_ne_ret why res)
    · rintro ⟨hgranted, hsmall⟩
      rw [second hreplies] at hsmall
      exact absurd ⟨(fieldOf_lt_iff hfits).mpr hsmall, hgranted⟩ hbad
  · refine iff_of_true ⟨_, rfl⟩ ⟨hgranted, ?_⟩
    rw [second hreplies]
    exact (fieldOf_lt_iff hfits).mp hsize

/-- An operation that comes to an end returns exactly when it can hold what it is told of. -/
theorem perform_returned_iff {r : Request} {q : ClientIo r.Result} (hr : r ≠ .heartbeat)
    (h : Runs (r.perform host) t q) (hq : Finished q) : (∃ res, q = .ret res) ↔ Housed host r t := by
  cases r with
  | readFile path size offset => exact readFile_returned_iff h hq
  | _ => exact settles_perform hr nofun h hq

end Returned

/-- An operation that has not received all that was announced to it returns an error. One that is aborted has
something left to receive. -/
def FailsLoudly (r : Request) (t : List ClientEvent) (q : ClientIo r.Result) : Prop :=
  ¬ ((∃ res, q = .ret res) ∧ Received t) → ∃ res, q = .ret res ∧ r.error res < 0

/-- In every run of an operation to an end, over any connection and with any failures, losses are reported
exactly when all can be held that is announced, and nothing is lost or one of the losses is noticed. -/
theorem failsLoudly_iff {host : Endian} {r : Request} {t : List ClientEvent} {q : ClientIo r.Result}
    (hr : r ≠ .heartbeat) (h : Runs (r.perform host) t q) (hq : Finished q) :
    FailsLoudly r t q ↔ Housed host r t ∧ (Received t ∨ Noticed host r t) := by
  rw [← perform_returned_iff hr h hq, FailsLoudly]
  rcases hq with ⟨res, rfl⟩ | ⟨why, rfl⟩
  · have hret : ∃ res', (.ret res : ClientIo r.Result) = .ret res' := ⟨res, rfl⟩
    have herror : (∃ res', (.ret res : ClientIo r.Result) = .ret res' ∧ r.error res' < 0) ↔ r.error res < 0 := by
      constructor
      · rintro ⟨res', hsame, hneg⟩
        cases hsame
        exact hneg
      · exact fun hneg => ⟨res, rfl, hneg⟩
    rw [and_iff_right hret, and_iff_right hret, herror, perform_noticed hr h]
    exact or_iff_not_imp_left.symm
  · have hnone : ¬ ∃ res, (abort why : ClientIo r.Result) = .ret res := fun ⟨res, hres⟩ => abort_ne_ret why res hres
    refine iff_of_false (fun hloud => ?_) fun hall => hnone hall.1
    obtain ⟨res, hres, -⟩ := hloud fun hall => hnone hall.1
    exact hnone ⟨res, hres⟩

/-- `getattr` of `/` on a connection that has been lost. -/
def lostGetattr : List ClientEvent :=
  [⟨.sys .lock, ()⟩,
    ⟨.sys .getSocket, (-1 : Fd)⟩, ⟨.send .command (-1) (htobe16 cmd.GETATTR), .fail .EBADF⟩,
    ⟨.sys .getSocket, (-1 : Fd)⟩, ⟨.send .field (-1) (htobe64 1), .fail .EBADF⟩,
    ⟨.sys .getSocket, (-1 : Fd)⟩, ⟨.recv .field (-1) 8, .fail .EBADF⟩,
    ⟨.sys .getSocket, (-1 : Fd)⟩, ⟨.scratch 8, Block.zeros 8⟩,
    ⟨.recv .field (-1) 8, .fail .EBADF⟩, ⟨.sys .unlock, ()⟩]

theorem runs_lostGetattr :
    Runs ((Request.getattr root).perform .little) lostGetattr (.ret (Stat.zero, 0)) := by
  repeat apply Runs.step
  exact .refl _

theorem failsLoudly_iff_lost :
    FailsLoudly (.getattr root) lostGetattr (.ret (Stat.zero, 0)) ↔
      Housed .little (.getattr root) lostGetattr ∧
        (Received lostGetattr ∨ Noticed .little (.getattr root) lostGetattr) :=
  failsLoudly_iff nofun runs_lostGetattr (.inl ⟨_, rfl⟩)

theorem not_failsLoudly_lost :
    Runs ((Request.getattr root).perform .little) lostGetattr (.ret (Stat.zero, 0)) ∧
      ¬ FailsLoudly (.getattr root) lostGetattr (.ret (Stat.zero, 0)) := by
  refine ⟨runs_lostGetattr, fun hloud => ?_⟩
  have hlost : ¬ Received lostGetattr := by
    intro hall
    have hread := hall .field (-1) 8 (.fail .EBADF) (by simp [lostGetattr])
    exact absurd hread (by decide)
  obtain ⟨res, hres, hneg⟩ := hloud fun hall => hlost hall.2
  cases hres
  exact absurd hneg (by decide)

end AgFS
