import AgFS.Interaction.Process

/-! The calls that a program has made, with their answers, as the way of a machine: in an
environment that deals out the same transfers again, the program goes the same way. -/
namespace Interaction

theorem Prog.bind_ne_ret {S : Signature} {α β : Type} {p : Prog S α} (h : ∀ a, p ≠ .ret a) (f : α → Prog S β)
    (b : β) : p >>= f ≠ .ret b := by
  cases p with
  | ret a => exact absurd rfl (h a)
  | call c k => rintro ⟨⟩

theorem Runs.bind_ret {S : Signature} {α β : Type} {p : Prog S α} {g : α → β} {t : List (Event S)} {q : Prog S β}
    (h : Runs (p >>= fun a => .ret (g a)) t q) : ∃ r, Runs p t r ∧ q = r >>= fun a => .ret (g a) := by
  rcases h.bind_cases with hin | ⟨t₁, t₂, a, rfl, h₁, h₂⟩
  · exact hin
  · obtain ⟨rfl, rfl⟩ := Runs.ret_iff.mp h₂
    exact ⟨.ret a, by rwa [List.append_nil], rfl⟩

theorem Runs.split {S : Signature} {α : Type} {p q : Prog S α} {t u : List (Event S)} (h : Runs p (t ++ u) q) :
    ∃ r, Runs p t r ∧ Runs r u q := by
  induction t generalizing p with
  | nil => exact ⟨p, .refl p, h⟩
  | cons ev t ih =>
    cases h with
    | step r hrest =>
      obtain ⟨m, hm, hu⟩ := ih hrest
      exact ⟨m, .step r hm, hu⟩

/-- How many bytes a write has moved. -/
def WriteReply.moved {n : Nat} : WriteReply n → Nat
  | .fail _ => 0
  | .wrote count _ => count

namespace Sock
variable {κ : Type} {L : Signature} {τ α : Type}

/-- The bytes a trace has sent, with the kinds of their transfers. -/
def said : List (Event (Sock κ L)) → Marked κ
  | [] => []
  | ⟨.send m _ bs, r⟩ :: t => mark m (bs.take (WriteReply.moved r)) ++ said t
  | _ :: t => said t

/-- The system calls of a trace have the answers that the system gives from the state `s` on,
and leave it in the state `s'`. -/
def Answered (sys : τ → (c : L.Call) → τ × L.Reply c) : τ → List (Event (Sock κ L)) → τ → Prop
  | s, [], s' => s = s'
  | s, ⟨.sys c, r⟩ :: t, s' => (sys s c).2 = r ∧ Answered sys (sys s c).1 t s'
  | s, _ :: t, s' => Answered sys s t s'

/-- A transfer on a descriptor that may be open has moved something, and everything if it is of
the kinds in `recvs` and `sends`; memory has not run out. -/
def Flows (recvs sends : κ → Prop) : Event (Sock κ L) → Prop
  | ⟨.recv m fd n, r⟩ => 0 ≤ fd ∧ ∃ bs h, r = ReadReply.got bs h ∧ (recvs m → bs.length = n) ∧ (0 < n → bs ≠ [])
  | ⟨.send m fd bs, r⟩ =>
    0 ≤ fd ∧ ∃ k h, r = WriteReply.wrote k h ∧ (sends m → k = bs.length) ∧ (0 < bs.length → 0 < k)
  | ⟨.malloc n, r⟩ => (r : Option (Block n)) ≠ none
  | _ => True

@[simp] theorem flows_recv {recvs sends : κ → Prop} {m : κ} {fd : Fd} {n : Nat} {bs : Bytes} {h : bs.length ≤ n} :
    Flows recvs sends (⟨.recv m fd n, .got bs h⟩ : Event (Sock κ L)) ↔
      0 ≤ fd ∧ (recvs m → bs.length = n) ∧ (0 < n → bs ≠ []) := by
  constructor
  · rintro ⟨hfd, _, _, hgot, hflows⟩
    cases hgot
    exact ⟨hfd, hflows⟩
  · rintro ⟨hfd, hflows⟩
    exact ⟨hfd, bs, h, rfl, hflows⟩

@[simp] theorem flows_send {recvs sends : κ → Prop} {m : κ} {fd : Fd} {bs : Bytes} {k : Nat} {h : k ≤ bs.length} :
    Flows recvs sends (⟨.send m fd bs, .wrote k h⟩ : Event (Sock κ L)) ↔
      0 ≤ fd ∧ (sends m → k = bs.length) ∧ (0 < bs.length → 0 < k) := by
  constructor
  · rintro ⟨hfd, _, _, hwrote, hflows⟩
    cases hwrote
    exact ⟨hfd, hflows⟩
  · rintro ⟨hfd, hflows⟩
    exact ⟨hfd, k, h, rfl, hflows⟩

@[simp] theorem flows_malloc {recvs sends : κ → Prop} {n : Nat} {b : Block n} :
    Flows recvs sends (⟨.malloc n, some b⟩ : Event (Sock κ L)) := Option.some_ne_none b

@[simp] theorem flows_scratch {recvs sends : κ → Prop} {n : Nat} {b : Block n} :
    Flows recvs sends (⟨.scratch n, b⟩ : Event (Sock κ L)) := trivial

@[simp] theorem flows_sys {recvs sends : κ → Prop} {c : L.Call} {r : L.Reply c} :
    Flows recvs sends (⟨.sys c, r⟩ : Event (Sock κ L)) := trivial

/-- The events of a trace that are no system calls. -/
def script : List (Event (Sock κ L)) → List (Event (Sock κ L))
  | [] => []
  | ⟨.sys _, _⟩ :: t => script t
  | ev :: t => ev :: script t

variable {sys : τ → (c : L.Call) → τ × L.Reply c}

theorem Answered.cons {ev : Event (Sock κ L)} {t : List (Event (Sock κ L))} {s s' : τ}
    (h : Answered sys s (ev :: t) s') : ∃ s₁, Answered sys s [ev] s₁ ∧ Answered sys s₁ t s' := by
  obtain ⟨c, r⟩ := ev
  cases c with
  | sys c => exact ⟨(sys s c).1, ⟨h.1, rfl⟩, h.2⟩
  | _ => exact ⟨s, rfl, h⟩

theorem Answered.append {t u : List (Event (Sock κ L))} {s s' : τ} (h : Answered sys s (t ++ u) s') :
    ∃ m, Answered sys s t m ∧ Answered sys m u s' := by
  induction t generalizing s with
  | nil => exact ⟨s, rfl, h⟩
  | cons ev t ih =>
    obtain ⟨c, r⟩ := ev
    cases c with
    | sys c =>
      obtain ⟨m, ht, hu⟩ := ih h.2
      exact ⟨m, ⟨h.1, ht⟩, hu⟩
    | _ => exact ih h

/-! What a program that begins with such a call has done so far. -/

theorem recv_cases {m : κ} {fd : Fd} {n : Nat} {f : ReadReply n → Prog (Sock κ L) α}
    {t : List (Event (Sock κ L))} {q : Prog (Sock κ L) α} (h : Runs (recv m fd n >>= f) t q) :
    (t = [] ∧ q = recv m fd n >>= f) ∨ ∃ r u, t = ⟨.recv m fd n, r⟩ :: u ∧ Runs (f r) u q :=
  Runs.call_cases h

theorem send_cases {m : κ} {fd : Fd} {bs : Bytes} {f : WriteReply bs.length → Prog (Sock κ L) α}
    {t : List (Event (Sock κ L))} {q : Prog (Sock κ L) α} (h : Runs (Sock.send m fd bs >>= f) t q) :
    (t = [] ∧ q = Sock.send m fd bs >>= f) ∨ ∃ r u, t = ⟨.send m fd bs, r⟩ :: u ∧ Runs (f r) u q :=
  Runs.call_cases h

theorem sys_cases {c : L.Call} {f : L.Reply c → Prog (Sock κ L) α} {t : List (Event (Sock κ L))}
    {q : Prog (Sock κ L) α} (h : Runs (Sock.sys c >>= f) t q) :
    (t = [] ∧ q = Sock.sys c >>= f) ∨ ∃ r u, t = ⟨.sys c, r⟩ :: u ∧ Runs (f r) u q :=
  Runs.call_cases h

theorem heard_cons (ev : Event (Sock κ L)) (t : List (Event (Sock κ L))) :
    heard (ev :: t) = heard [ev] ++ heard t := heard_append [ev] t

theorem said_append (t u : List (Event (Sock κ L))) : said (t ++ u) = said t ++ said u := by
  induction t with
  | nil => rfl
  | cons ev t ih =>
    obtain ⟨c, r⟩ := ev
    cases c with
    | send m fd bs => simp only [List.cons_append, said, ih, List.append_assoc]
    | _ => exact ih

theorem said_cons (ev : Event (Sock κ L)) (t : List (Event (Sock κ L))) :
    said (ev :: t) = said [ev] ++ said t := said_append [ev] t

end Sock

open Sock

/-- A transfer of `n` bytes that moves all of them, or `k` but not none. -/
def Plan.dealt (all : Prop) [Decidable all] (n k : Nat) : Plan := .take (if all then n else max 1 k)

/-- A block of `n` bytes with these contents, if there are so many. -/
def Block.ofBytes (n : Nat) (bs : Bytes) : Block n := if h : bs.length = n then ⟨bs, h⟩ else Block.zeros n

theorem Block.ofBytes_val {n : Nat} (b : Block n) : Block.ofBytes n b.1 = b := dif_pos b.2

namespace Env
variable {κ : Type} {L : Signature} {τ α : Type} (recvs sends : κ → Prop) [DecidablePred recvs]
  [DecidablePred sends] (sys : τ → (c : L.Call) → τ × L.Reply c)

/-- The transfers and the memory of a trace, dealt out again one after the other. When they are
used up, everything is complete. -/
def replay : Env κ L (List (Event (Sock κ L))) τ where
  recv
    | ⟨.recv _ _ _, r⟩ :: v, m, n => (v, .dealt (recvs m) n (ReadReply.bytes r).length)
    | v, _, n => (v, .take n)
  send
    | ⟨.send _ _ _, r⟩ :: v, m, n => (v, .dealt (sends m) n (WriteReply.moved r))
    | v, _, n => (v, .take n)
  malloc
    | ⟨.malloc _, some b⟩ :: v, n => (v, some (.ofBytes n b.1))
    | v, n => (v, some (.zeros n))
  scratch
    | ⟨.scratch _, b⟩ :: v, n => (v, .ofBytes n b.1)
    | v, n => (v, .zeros n)
  sys := sys

theorem replay_prompt : (replay recvs sends sys : Env κ L (List (Event (Sock κ L))) τ).Prompt recvs sends where
  recv_whole {v m n} hm := by
    unfold replay
    dsimp only
    split
    · exact ⟨n, congrArg Plan.take (if_pos hm), le_rfl⟩
    · exact ⟨n, rfl, le_rfl⟩
  send_whole {v m n} hm := by
    unfold replay
    dsimp only
    split
    · exact ⟨n, congrArg Plan.take (if_pos hm), le_rfl⟩
    · exact ⟨n, rfl, le_rfl⟩
  recv_some {v m n} hn := by
    unfold replay
    dsimp only
    split
    · refine ⟨_, rfl, ?_⟩
      split <;> omega
    · exact ⟨n, rfl, hn⟩
  send_some {v m n} hn := by
    unfold replay
    dsimp only
    split
    · refine ⟨_, rfl, ?_⟩
      split <;> omega
    · exact ⟨n, rfl, hn⟩
  malloc_some {v n} := by
    unfold replay
    dsimp only
    split <;> exact ⟨_, rfl⟩

variable {recvs sends sys}

/-- One event, dealt out again, is one turn. -/
theorem turn_replay {c : SockCall κ L} {k : (Sock κ L).Reply c → Prog (Sock κ L) α}
    {r : (Sock κ L).Reply c} {t : List (Event (Sock κ L))} {s s' : τ}
    (hev : Flows recvs sends ⟨c, r⟩) (hs : Answered sys s [⟨c, r⟩] s') :
    (replay recvs sends sys).turn (.call c k, script (⟨c, r⟩ :: t), s) (unmark (heard [⟨c, r⟩])) =
      some ⟨(k r, script t, s'), heard [⟨c, r⟩], said [⟨c, r⟩]⟩ := by
  cases c with
  | recv m fd n =>
    obtain ⟨hfd, bs, hbs, rfl, hwhole, hsome⟩ := hev
    obtain rfl : s = s' := hs
    have htake : min (if recvs m then n else max 1 bs.length) n = bs.length := by
      split
      · rw [Nat.min_self, hwhole ‹_›]
      · have hne : 0 < n → 0 < bs.length := fun hn => List.length_pos_iff.mpr (hsome hn)
        omega
    simp [turn, replay, script, if_neg (Int.not_lt.mpr hfd), Plan.dealt, hear, ReadReply.bytes, htake,
      heard, said]
  | send m fd bs =>
    obtain ⟨hfd, j, hj, rfl, hwhole, hsome⟩ := hev
    obtain rfl : s = s' := hs
    have htake : min (if sends m then bs.length else max 1 j) bs.length = j := by
      split
      · rw [Nat.min_self, hwhole ‹_›]
      · omega
    have hbytes : bs.take (if sends m then bs.length else max 1 j) = bs.take j := by
      rw [List.take_eq_take_iff, htake, Nat.min_eq_left hj]
    simp [turn, replay, script, if_neg (Int.not_lt.mpr hfd), Plan.dealt, say, WriteReply.moved, htake,
      hbytes, heard, said]
  | malloc n =>
    obtain rfl : s = s' := hs
    cases r with
    | none => exact absurd rfl hev
    | some b => simp [turn, replay, script, Block.ofBytes_val, heard, said]
  | scratch n =>
    obtain rfl : s = s' := hs
    simp [turn, replay, script, Block.ofBytes_val, heard, said]
  | sys c =>
    obtain ⟨rfl, rfl⟩ := hs
    rfl
  | abort why => cases r

theorem reaches_sys {ν : Type} (e : Env κ L ν τ) {c : L.Call} {s s' : τ} {r : L.Reply c} (hc : e.sys s c = (s', r))
    {f : L.Reply c → Prog (Sock κ L) α} {q : Prog (Sock κ L) α} (hq : f r = q) (v : ν) :
    (e.machine α).Reaches (Sock.sys c >>= f, v, s) [] [] (q, v, s') := by
  have ht : e.turn (Sock.sys c >>= f, v, s) [] = some ⟨(f (e.sys s c).2, v, (e.sys s c).1), [], []⟩ := rfl
  rw [hc, hq] at ht
  exact reaches_single ht

/-- What a program has done, it does again when its transfers are dealt out again. -/
theorem replays {p q : Prog (Sock κ L) α} {t : List (Event (Sock κ L))} {s s' : τ} (h : Runs p t q)
    (hflows : ∀ ev ∈ t, Flows recvs sends ev) (hs : Answered sys s t s') :
    ((replay recvs sends sys).machine α).Reaches (p, script t, s) (heard t) (said t) (q, [], s') := by
  induction h generalizing s with
  | refl p =>
    obtain rfl : s = s' := hs
    exact .refl _
  | @step c k t q r h ih =>
    obtain ⟨hev, ht⟩ := List.forall_mem_cons.mp hflows
    obtain ⟨s₁, hfirst, hrest⟩ := hs.cons
    rw [heard_cons, said_cons]
    exact (reaches_single (turn_replay (k := k) (t := t) hev hfirst)).trans (ih ht hrest)

/-- A way of the machine and what the program has done, on inputs that agree: the program has come
to the end of the way and gone on, or it is still on the way. -/
theorem replays_cut {c d : ((replay recvs sends sys).machine α).State} {i o : Marked κ}
    (h : ((replay recvs sends sys).machine α).Reaches c i o d) {p q : Prog (Sock κ L) α}
    {t : List (Event (Sock κ L))} {s s' : τ} (hc : c = (p, script t, s)) (ht : Runs p t q)
    (hflows : ∀ ev ∈ t, Flows recvs sends ev) (hs : Answered sys s t s') {x : Bytes}
    (hi : unmark i <+: x) (hheard : unmark (heard t) <+: x) :
    (∃ t₁ t₂, t = t₁ ++ t₂ ∧ heard t₁ = i ∧ said t₁ = o ∧ Runs d.1 t₂ q ∧ d.2.1 = script t₂ ∧
        Answered sys d.2.2 t₂ s') ∨
      ∃ j u, i = heard t ++ j ∧ o = said t ++ u ∧
        ((replay recvs sends sys).machine α).Reaches (q, [], s') j u d := by
  induction h generalizing p t s x with
  | refl c =>
    subst hc
    exact .inl ⟨[], t, rfl, rfl, rfl, ht, rfl, hs⟩
  | @step c d i o u hu rest ih =>
    subst hc
    cases ht with
    | refl =>
      obtain rfl : s = s' := hs
      exact .inr ⟨_, _, rfl, rfl, .step u hu rest⟩
    | @step c k t _ r ht =>
      obtain ⟨hev, hflows⟩ := List.forall_mem_cons.mp hflows
      obtain ⟨s₂, hfirst, hrest⟩ := hs.cons
      have hturn := turn_replay (k := k) (t := t) hev hfirst
      rw [heard_cons, unmark_append] at hheard
      rw [unmark_append] at hi
      have hsame := Machine.step_unique (A := (replay recvs sends sys).machine α) hu hturn
        ((List.prefix_append _ _).trans hi) ((List.prefix_append _ _).trans hheard)
      subst hsame
      obtain ⟨y, rfl⟩ := (List.prefix_append _ _).trans hheard
      rw [List.prefix_append_right_inj] at hi hheard
      rcases ih rfl ht hflows hrest hi hheard with ⟨t₁, t₂, rfl, rfl, rfl, hgo⟩ | ⟨j, w, rfl, rfl, hgo⟩
      · exact .inl ⟨_ :: t₁, t₂, rfl, heard_cons .., said_cons .., hgo⟩
      · refine .inr ⟨j, w, ?_, ?_, hgo⟩
        · rw [heard_cons _ t, List.append_assoc]
        · rw [said_cons _ t, List.append_assoc]

end Env
end Interaction
