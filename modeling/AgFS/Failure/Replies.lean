import AgFS.Client.Through
import AgFS.Failure.LostReplies

/-! What an operation of the client takes from its socket, in runs that have come to their end,
one way or the other. -/
namespace Interaction.Sock
variable {κ : Type} {L : Signature} {α β : Type}

/-- A program that has returned or been aborted. -/
def Finished (q : Prog (Sock κ L) α) : Prop := (∃ a, q = .ret a) ∨ ∃ why, q = abort why

theorem finished_bind {p : Prog (Sock κ L) α} {f : α → Prog (Sock κ L) β} {t : List (Event (Sock κ L))}
    {q : Prog (Sock κ L) β} (h : Runs (p >>= f) t q) (hq : Finished q) :
    (∃ why, Runs p t (abort why) ∧ q = abort why) ∨
      ∃ t₁ t₂ a, t = t₁ ++ t₂ ∧ Runs p t₁ (.ret a) ∧ Runs (f a) t₂ q := by
  rcases h.bind_cases with ⟨r, hr, rfl⟩ | hrest
  · cases r with
    | ret a => exact .inr ⟨t, [], a, (List.append_nil t).symm, hr, .refl _⟩
    | call c k =>
      rcases hq with ⟨a, ha⟩ | ⟨why, hwhy⟩
      · cases ha
      · obtain ⟨rfl⟩ : c = .abort why := by
          injection hwhy
        have hk : (Prog.call (.abort why) k : Prog (Sock κ L) α) = abort why :=
          congrArg _ (funext fun r => nomatch r)
        exact .inl ⟨why, hk ▸ hr, hwhy⟩
  · exact .inr hrest

theorem finished_rest {P : SockCall κ L → Prop} (hP : ∀ why, ¬ P (.abort why)) {p : Prog (Sock κ L) α}
    (hp : p.Only P) {f : α → Prog (Sock κ L) β} {t : List (Event (Sock κ L))} {q : Prog (Sock κ L) β}
    (h : Runs (p >>= f) t q) (hq : Finished q) :
    ∃ t₁ t₂ a, t = t₁ ++ t₂ ∧ Runs p t₁ (.ret a) ∧ Runs (f a) t₂ q := by
  rcases finished_bind h hq with ⟨why, habort, -⟩ | hrest
  · have hleft : (abort why : Prog (Sock κ L) α).Meets (fun _ _ => True) P fun _ => True :=
      (Prog.Meets.of_only hp).rest habort fun _ _ => trivial
    exact absurd hleft.1 (hP why)
  · exact hrest

end Interaction.Sock

namespace AgFS
open Interaction ByteOrder Sock

/-- The answers to the reads of a trace: what was received, unless the read failed. -/
def replies (t : List ClientEvent) : List (Kind × Option Bytes) :=
  t.filterMap fun
    | ⟨.recv m _ n, r⟩ =>
      match (r : ReadReply n) with
      | .fail _ => some (m, none)
      | .got bs _ => some (m, some bs)
    | _ => none

/-- Whenever memory was asked for, it was granted. -/
def Granted (t : List ClientEvent) : Prop := ∀ n, (⟨.malloc n, none⟩ : ClientEvent) ∉ t

/-- What a variable of 8 bytes that held `old` holds after the read of a field. -/
def fieldOf (host : Endian) (old : UInt64) (answer : Option Bytes) : UInt64 :=
  be64toh (overlay (host.store 8 old.toNat) (answer.getD []))

/-- Calls with which nothing is received, no file data sent, no memory asked for and no end made. -/
def Unanswered : SockCall Kind ClientSys → Prop
  | .recv _ _ _ => False
  | .send .data _ _ => False
  | .malloc _ => False
  | .abort _ => False
  | _ => True

/-- A trace and a part of it with the same answers: reads, file data, memory. -/
structure SameAnswers (t u : List ClientEvent) : Prop where
  replies : replies t = replies u
  sent : dataSent t = dataSent u
  granted : Granted t ↔ Granted u
  subset : u ⊆ t

namespace SameAnswers
variable {t u v : List ClientEvent}

theorem trans (h : SameAnswers t u) (h' : SameAnswers u v) : SameAnswers t v :=
  ⟨h.replies.trans h'.replies, h.sent.trans h'.sent, h.granted.trans h'.granted, fun _ hev => h.subset (h'.subset hev)⟩

private theorem refl (t : List ClientEvent) : SameAnswers t t := ⟨rfl, rfl, Iff.rfl, List.Subset.refl t⟩

private theorem cons {ev : ClientEvent} (h : Unanswered ev.call) (t : List ClientEvent) : SameAnswers (ev :: t) t := by
  have hgranted (hev : ∀ n, (⟨.malloc n, none⟩ : ClientEvent) ≠ ev) : Granted (ev :: t) ↔ Granted t := by
    simp only [Granted, List.mem_cons, not_or, hev, not_false_eq_true, true_and]
  obtain ⟨call, r⟩ := ev
  cases call with
  | recv m fd n => exact h.elim
  | send m fd bs =>
    cases m with
    | data => exact h.elim
    | _ => exact ⟨rfl, rfl, hgranted (by simp), List.subset_cons_self _ _⟩
  | malloc n => exact h.elim
  | abort why => exact h.elim
  | _ => exact ⟨rfl, rfl, hgranted (by simp), List.subset_cons_self _ _⟩

private theorem append (h : ∀ ev ∈ t, Unanswered ev.call) (u : List ClientEvent) : SameAnswers (t ++ u) u := by
  induction t with
  | nil => exact refl u
  | cons ev t ih =>
    obtain ⟨hev, ht⟩ := List.forall_mem_cons.mp h
    exact (cons hev _).trans (ih ht)

private theorem append_right (h : ∀ ev ∈ v, Unanswered ev.call) (u : List ClientEvent) : SameAnswers (u ++ v) u := by
  have hv := append h []
  rw [List.append_nil] at hv
  constructor
  · rw [AgFS.replies, List.filterMap_append]
    exact (congrArg _ hv.replies).trans (List.append_nil _)
  · rw [dataSent, List.filterMap_append]
    exact (congrArg _ hv.sent).trans (List.append_nil _)
  · have hnone : Granted v := hv.granted.mpr fun _ => List.not_mem_nil
    simp only [Granted, List.mem_append, not_or]
    exact ⟨fun hall n => (hall n).1, fun hall n => ⟨hall n, hnone n⟩⟩
  · exact List.subset_append_left u v

end SameAnswers

section Finished
variable {α β : Type} {host : Endian} {t : List ClientEvent} {q : ClientIo β}

theorem pass {p : ClientIo α} {f : α → ClientIo β} (hp : p.Only Unanswered) (h : Runs (p >>= f) t q)
    (hq : Finished q) : ∃ a u, SameAnswers t u ∧ Runs (f a) u q := by
  obtain ⟨t₁, u, a, rfl, h₁, h₂⟩ := finished_rest (fun _ => id) hp h hq
  exact ⟨a, u, .append (hp.runs h₁) u, h₂⟩

private theorem unanswered_sys (c : ClientCall) : (ClientIo.sys c).Only Unanswered := ⟨trivial, fun _ => trivial⟩

private theorem unanswered_socket : ServerConnection.socket_.Only Unanswered := unanswered_sys _

private theorem unanswered_writeCmd (fd : Fd) (c : CmdT) : (agfsWriteCmd fd c : ClientIo _).Only Unanswered :=
  ⟨trivial, fun _ => trivial⟩

theorem unanswered_writeSize (fd : Fd) (n : AgsizeT) : (agfsWriteSize fd n : ClientIo _).Only Unanswered :=
  ⟨trivial, fun _ => trivial⟩

private theorem unanswered_writeString (fd : Fd) (str : Str) :
    (agfsWriteString fd str : ClientIo _).Only Unanswered := by
  refine .bind (unanswered_writeSize fd _) fun err => .ite trivial ?_
  exact ⟨trivial, fun r => .ite trivial trivial⟩

theorem pass_send {p : Fd → ClientIo α} {f : α → ClientIo β} (hp : ∀ fd, (p fd).Only Unanswered)
    (h : Runs (ServerConnection.socket_ >>= fun fd => p fd >>= f) t q) (hq : Finished q) :
    ∃ a u, SameAnswers t u ∧ Runs (f a) u q := by
  obtain ⟨fd, u, hu, h₁⟩ := pass unanswered_socket h hq
  obtain ⟨a, v, hv, h₂⟩ := pass (hp fd) h₁ hq
  exact ⟨a, v, hu.trans hv, h₂⟩

theorem pass_monitored {body : ClientIo β} (h : Runs (ServerConnection.monitored body) t q)
    (hq : Finished q) : ∃ u, SameAnswers t u ∧ Runs body u q := by
  obtain ⟨_, t₁, h₁, h₂⟩ := pass (unanswered_sys .lock) h hq
  rcases finished_bind h₂ hq with ⟨why, habort, rfl⟩ | ⟨u, v, b, rfl, hbody, hleave⟩
  · exact ⟨t₁, h₁, habort⟩
  · have hnone : (do ClientIo.sys .unlock; return b : ClientIo β).Only Unanswered :=
      .bind (unanswered_sys .unlock) fun _ => trivial
    obtain ⟨_, w, -, h₃⟩ := pass (unanswered_sys .unlock) hleave hq
    obtain ⟨-, rfl⟩ := Runs.ret_iff.mp h₃
    exact ⟨u, h₁.trans (.append_right (hnone.runs hleave) u), hbody⟩

theorem pass_request {c : CmdT} {path : Str} {p : ClientIo β}
    (h : Runs (ServerConnection.monitored do
      let _ ← agfsWriteCmd (← ServerConnection.socket_) c
      let _ ← agfsWriteString (← ServerConnection.socket_) path
      p) t q) (hq : Finished q) : ∃ u, SameAnswers t u ∧ Runs p u q := by
  obtain ⟨u₁, hu₁, h₁⟩ := pass_monitored h hq
  obtain ⟨_, u₂, hu₂, h₂⟩ := pass_send (fun fd => unanswered_writeCmd fd c) h₁ hq
  obtain ⟨_, u₃, hu₃, h₃⟩ := pass_send (fun fd => unanswered_writeString fd path) h₂ hq
  exact ⟨u₃, hu₁.trans (hu₂.trans hu₃), h₃⟩

/-- What one read has answered, as bytes. -/
def answerOf {n : Nat} : ReadReply n → Option Bytes
  | .fail _ => none
  | .got bs _ => some bs

theorem answerOf_getD {n : Nat} (r : ReadReply n) : (answerOf r).getD [] = r.bytes := by
  cases r with
  | fail e => rfl
  | got bs hbs => rfl

theorem answerOf_length {n : Nat} (r : ReadReply n) : ((answerOf r).getD []).length ≤ n := by
  cases r with
  | fail e => exact Nat.zero_le n
  | got bs hbs => exact hbs

theorem replies_recv {m : Kind} {fd : Fd} {n : Nat} (r : ReadReply n) (u : List ClientEvent) :
    replies (⟨.recv m fd n, r⟩ :: u) = (m, answerOf r) :: replies u := by
  cases r with
  | fail e => rfl
  | got bs hbs => rfl

/-- A trace that begins, but for calls without an answer, with a read. -/
structure Reads (m : Kind) {n : Nat} (r : ReadReply n) (t u : List ClientEvent) : Prop where
  replies : replies t = (m, answerOf r) :: replies u
  sent : dataSent t = dataSent u
  granted : Granted t ↔ Granted u
  mem : ∃ fd, (⟨.recv m fd n, r⟩ : ClientEvent) ∈ t
  subset : u ⊆ t

theorem pass_recv {m : Kind} {n : Nat} {f : ReadReply n → ClientIo β}
    (h : Runs (ServerConnection.socket_ >>= fun fd => Sock.recv m fd n >>= f) t q) (hq : Finished q) :
    ∃ r u, Reads m r t u ∧ Runs (f r) u q := by
  obtain ⟨fd, u, hu, h₁⟩ := pass unanswered_socket h hq
  rcases Runs.call_cases h₁ with ⟨-, rfl⟩ | ⟨r, v, rfl, h₂⟩
  · rcases hq with ⟨a, ha⟩ | ⟨why, hwhy⟩
    · cases ha
    · injection hwhy with hcall
      cases hcall
  · have hgranted : Granted (⟨.recv m fd n, r⟩ :: v) ↔ Granted v := by
      simp [Granted]
    exact ⟨r, v, ⟨hu.replies.trans (replies_recv r v), hu.sent, hu.granted.trans hgranted,
      ⟨fd, hu.subset List.mem_cons_self⟩, fun ev hev => hu.subset (List.mem_cons_of_mem _ hev)⟩, h₂⟩

theorem pass_readError {old : AgerrT} {f : Int32 × AgerrT → ClientIo β}
    (h : Runs (ServerConnection.socket_ >>= fun fd => agfsReadError host fd old >>= f) t q) (hq : Finished q) :
    ∃ (r : ReadReply 8) (u : List ClientEvent), Reads .field r t u ∧
      Runs (f (r.int, (fieldOf host old.toUInt64 (answerOf r)).toInt64)) u q := by
  obtain ⟨r, u, hread, h₁⟩ := pass_recv (m := .field) (n := 8)
    (f := fun r => f (r.int, (be64toh (overlay (host.store 8 old.toUInt64.toNat) r.bytes)).toInt64)) h hq
  refine ⟨r, u, hread, ?_⟩
  rw [fieldOf, answerOf_getD]
  exact h₁

theorem pass_readSize {old : AgsizeT} {f : Int32 × AgsizeT → ClientIo β}
    (h : Runs (ServerConnection.socket_ >>= fun fd => agfsReadSize host fd old >>= f) t q) (hq : Finished q) :
    ∃ (r : ReadReply 8) (u : List ClientEvent), Reads .field r t u ∧
      Runs (f (r.int, fieldOf host old (answerOf r))) u q := by
  obtain ⟨r, u, hread, h₁⟩ := pass_recv (m := .field) (n := 8)
    (f := fun r => f (r.int, be64toh (overlay (host.store 8 old.toNat) r.bytes))) h hq
  refine ⟨r, u, hread, ?_⟩
  rw [fieldOf, answerOf_getD]
  exact h₁

theorem pass_resize {n : Nat} {f : Bytes → ClientIo β} (h : Runs (vectorResize n >>= f) t q) (hq : Finished q) :
    (¬ (n < 2 ^ 63 ∧ Granted t) ∧ replies t = [] ∧ ∃ why, q = abort why) ∨
      ∃ u, n < 2 ^ 63 ∧ (Granted t ↔ Granted u) ∧ replies t = replies u ∧ Runs (f (List.replicate n 0)) u q := by
  by_cases hzero : n = 0
  · subst hzero
    exact .inr ⟨t, by decide, Iff.rfl, rfl, h⟩
  · rw [vectorResize, if_neg hzero] at h
    by_cases hlarge : 2 ^ 63 ≤ n
    · rw [if_pos hlarge, abort_bind, abort_bind] at h
      obtain ⟨rfl, rfl⟩ := runs_abort h
      exact .inl ⟨fun hfits => absurd hfits.1 (Nat.not_lt.mpr hlarge), rfl, _, rfl⟩
    · rw [if_neg hlarge] at h
      change Runs (Sock.malloc n >>= _) t q at h
      rcases Runs.call_cases h with ⟨-, rfl⟩ | ⟨block, u, rfl, h₁⟩
      · rcases hq with ⟨a, ha⟩ | ⟨why, hwhy⟩
        · cases ha
        · injection hwhy with hcall
          cases hcall
      · cases block with
        | none =>
          change Runs (abort .exception >>= f) u q at h₁
          rw [abort_bind] at h₁
          obtain ⟨rfl, rfl⟩ := runs_abort h₁
          exact .inl ⟨fun hfits => hfits.2 n List.mem_cons_self, rfl, _, rfl⟩
        | some block =>
          refine .inr ⟨u, Nat.lt_of_not_le hlarge, ⟨fun hall m hm => ?_, fun hall m hm => ?_⟩, rfl, h₁⟩
          · exact hall m (List.mem_cons_of_mem _ hm)
          · rcases List.mem_cons.mp hm with heq | hm
            · cases heq
            · exact hall m hm

theorem pass_usable {connections : Connections} {server : Str} {f : Bool → AgfsIo β}
    (h : Runs (through host (usable connections server >>= f)) t q) (hq : Finished q) :
    ∃ b u, SameAnswers t u ∧ Runs (through host (f b)) u q := by
  by_cases hmem : server ∈ connections
  · rw [usable, if_pos hmem] at h
    obtain ⟨fd, u, hu, h₁⟩ := pass (f := fun fd => through host (f (!decide (fd < 0)))) unanswered_socket h hq
    exact ⟨_, u, hu, h₁⟩
  · rw [usable, if_neg hmem] at h
    exact ⟨false, t, .refl t, h⟩

end Finished
end AgFS
