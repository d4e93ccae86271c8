import AgFS.Interaction.Machine
import Mathlib.Algebra.Ring.Nat

/-! Programs over stream sockets, fresh memory and further system calls, run against an
environment. The environment fixes in advance how much each transfer moves, so a read
that is to deliver bytes waits until they are there. -/
namespace Interaction

/-- A POSIX error number: what `errno` holds after a call that failed. -/
structure Errno where
  code : Nat
  positive : 0 < code
  small : code < 2 ^ 31
  deriving DecidableEq

namespace Errno

def ENOENT : Errno := ⟨2, by decide, by decide⟩
def EBADF : Errno := ⟨9, by decide, by decide⟩
def EAGAIN : Errno := ⟨11, by decide, by decide⟩
def EACCES : Errno := ⟨13, by decide, by decide⟩
def EEXIST : Errno := ⟨17, by decide, by decide⟩
def ENOTDIR : Errno := ⟨20, by decide, by decide⟩
def neg (e : Errno) : Int64 := -Int64.ofNat e.code

theorem neg_toInt (e : Errno) : e.neg.toInt = -(e.code : Int) := by
  have hs := e.small
  have hc : (Int64.ofNat e.code).toInt = e.code := Int64.toInt_ofNat_of_lt (by omega)
  rw [neg, Int64.toInt_neg, hc]
  exact Int.bmod_eq_of_le (by omega) (by omega)

theorem neg_lt (e : Errno) : e.neg < 0 := by
  have hp := e.positive
  rw [Int64.lt_iff_toInt_lt, neg_toInt, Int64.toInt_zero]
  omega

theorem not_le_neg (e : Errno) : ¬ 0 ≤ e.neg := by
  have hp := e.positive
  rw [Int64.le_iff_toInt_le, neg_toInt, Int64.toInt_zero]
  omega

end Errno

/-- A file descriptor; negative ones are never open. -/
abbrev Fd := Int

/-- The answer to a read of at most `n` bytes. -/
inductive ReadReply (n : Nat) where
  | fail (e : Errno)
  | got (bytes : Bytes) (fits : bytes.length ≤ n)

/-- The answer to a write of `n` bytes. -/
inductive WriteReply (n : Nat) where
  | fail (e : Errno)
  | wrote (count : Nat) (fits : count ≤ n)

def ReadReply.bytes {n : Nat} : ReadReply n → Bytes
  | .fail _ => []
  | .got bs _ => bs

def ReadReply.int {n : Nat} : ReadReply n → Int32
  | .fail _ => -1
  | .got bs _ => Int32.ofNat bs.length

def ReadReply.ssize {n : Nat} : ReadReply n → Int64
  | .fail _ => -1
  | .got bs _ => Int64.ofNat bs.length

def WriteReply.int {n : Nat} : WriteReply n → Int32
  | .fail _ => -1
  | .wrote count _ => Int32.ofNat count

/-- The reply of a write that takes all it is given. -/
abbrev WriteReply.all (n : Nat) : WriteReply n := .wrote n le_rfl

abbrev Block (n : Nat) := { bs : Bytes // bs.length = n }

abbrev Block.zeros (n : Nat) : Block n := ⟨List.replicate n 0, List.length_replicate⟩

/-- Ways for a program to end other than by returning. -/
inductive Abort where
  | exception
  | undefinedBehaviour
  | endlessLoop
  deriving DecidableEq

inductive SockCall (κ : Type) (L : Signature) where
  | recv (m : κ) (fd : Fd) (n : Nat)
  | send (m : κ) (fd : Fd) (bs : Bytes)
  | malloc (n : Nat)
  | scratch (n : Nat)
  | sys (c : L.Call)
  | abort (why : Abort)

/-- Socket transfers, each marked with its kind, memory, and the calls of `L`. -/
abbrev Sock (κ : Type) (L : Signature) : Signature where
  Call := SockCall κ L
  Reply
    | .recv _ _ n => ReadReply n
    | .send _ _ bs => WriteReply bs.length
    | .malloc n => Option (Block n)
    | .scratch n => Block n
    | .sys c => L.Reply c
    | .abort _ => Empty

namespace Sock
variable {κ : Type} {L : Signature} {α : Type}

def recv (m : κ) (fd : Fd) (n : Nat) : Prog (Sock κ L) (ReadReply n) :=
  .call (S := Sock κ L) (.recv m fd n) .ret

def send (m : κ) (fd : Fd) (bs : Bytes) : Prog (Sock κ L) (WriteReply bs.length) :=
  .call (S := Sock κ L) (.send m fd bs) .ret

def malloc (n : Nat) : Prog (Sock κ L) (Option (Block n)) :=
  .call (S := Sock κ L) (.malloc n) .ret

/-- The contents of a local variable of `n` bytes before anything is stored in it. -/
def scratch (n : Nat) : Prog (Sock κ L) (Block n) :=
  .call (S := Sock κ L) (.scratch n) .ret

def sys (c : L.Call) : Prog (Sock κ L) (L.Reply c) :=
  .call (S := Sock κ L) (.sys c) .ret

def abort (why : Abort) : Prog (Sock κ L) α :=
  .call (S := Sock κ L) (.abort why) fun r => nomatch r

theorem abort_bind {β : Type} (why : Abort) (f : α → Prog (Sock κ L) β) :
    (abort why >>= f) = (abort why : Prog (Sock κ L) β) := by
  rw [abort, Prog.call_bind]
  exact congrArg _ (funext fun r => nomatch r)

/-- Every system call satisfies `Q`; transfers and memory are free. -/
def Within (Q : L.Call → Prop) : SockCall κ L → Prop
  | .sys c => Q c
  | _ => True

section Only
variable {Q : L.Call → Prop}

theorem only_send (m : κ) (fd : Fd) (bs : Bytes) :
    (send m fd bs : Prog (Sock κ L) _).Only (Within Q) :=
  ⟨trivial, fun _ => trivial⟩

theorem only_scratch (n : Nat) : (scratch n : Prog (Sock κ L) _).Only (Within Q) :=
  ⟨trivial, fun _ => trivial⟩

theorem only_sys {c : L.Call} (h : Q c) : (sys c : Prog (Sock κ L) _).Only (Within Q) :=
  ⟨h, fun _ => trivial⟩

theorem only_abort (why : Abort) : (abort why : Prog (Sock κ L) α).Only (Within Q) :=
  ⟨trivial, fun r => nomatch r⟩

end Only

/-! Runs of a program to its end, by its first call. -/

section Runs
variable {a : α} {t : List (Event (Sock κ L))}

theorem runs_recv {m : κ} {fd : Fd} {n : Nat} {f : ReadReply n → Prog (Sock κ L) α} :
    Runs (recv m fd n >>= f) t (.ret a) ↔
      ∃ r u, t = ⟨.recv m fd n, r⟩ :: u ∧ Runs (f r) u (.ret a) :=
  Runs.call_ret_iff

theorem runs_send {m : κ} {fd : Fd} {bs : Bytes}
    {f : WriteReply bs.length → Prog (Sock κ L) α} :
    Runs (send m fd bs >>= f) t (.ret a) ↔
      ∃ r u, t = ⟨.send m fd bs, r⟩ :: u ∧ Runs (f r) u (.ret a) :=
  Runs.call_ret_iff

theorem runs_malloc {n : Nat} {f : Option (Block n) → Prog (Sock κ L) α} :
    Runs (malloc n >>= f) t (.ret a) ↔
      ∃ r u, t = ⟨.malloc n, r⟩ :: u ∧ Runs (f r) u (.ret a) :=
  Runs.call_ret_iff

theorem runs_scratch {n : Nat} {f : Block n → Prog (Sock κ L) α} :
    Runs (scratch n >>= f) t (.ret a) ↔
      ∃ r u, t = ⟨.scratch n, r⟩ :: u ∧ Runs (f r) u (.ret a) :=
  Runs.call_ret_iff

theorem runs_sys {c : L.Call} {f : L.Reply c → Prog (Sock κ L) α} :
    Runs (sys c >>= f) t (.ret a) ↔ ∃ r u, t = ⟨.sys c, r⟩ :: u ∧ Runs (f r) u (.ret a) :=
  Runs.call_ret_iff

theorem runs_abort {why : Abort} {q : Prog (Sock κ L) α} (h : Runs (abort why) t q) : t = [] ∧ q = abort why := by
  rcases Runs.call_cases h with hend | ⟨r, -⟩
  · exact hend
  · cases r

theorem not_runs_abort {why : Abort} : ¬ Runs (abort why : Prog (Sock κ L) α) t (.ret a) := by
  intro h
  obtain ⟨r, -⟩ := Runs.call_ret_iff.mp h
  exact nomatch r

end Runs

def heard : List (Event (Sock κ L)) → Marked κ
  | [] => []
  | ⟨.recv m _ _, r⟩ :: t => mark m (ReadReply.bytes r) ++ heard t
  | _ :: t => heard t

theorem heard_append (t u : List (Event (Sock κ L))) : heard (t ++ u) = heard t ++ heard u := by
  induction t with
  | nil => rfl
  | cons ev t ih =>
    obtain ⟨c, r⟩ := ev
    cases c with
    | recv m fd n => simp only [List.cons_append, heard, ih, List.append_assoc]
    | _ => exact ih

end Sock

/-- How much the next transfer moves: it fails, or moves as much as it can up to `k`. -/
inductive Plan where
  | fail (e : Errno)
  | take (k : Nat)

/-- The surroundings of a program. `ν` holds what decides about transfers and fresh
memory, `τ` what answers the further system calls. -/
structure Env (κ : Type) (L : Signature) (ν τ : Type) where
  recv : ν → κ → Nat → ν × Plan
  send : ν → κ → Nat → ν × Plan
  malloc : ν → (n : Nat) → ν × Option (Block n)
  scratch : ν → (n : Nat) → ν × Block n
  sys : τ → (c : L.Call) → τ × L.Reply c

namespace Env
variable {κ : Type} {L : Signature} {ν τ α β : Type}

abbrev Config (κ : Type) (L : Signature) (ν τ α : Type) := Prog (Sock κ L) α × ν × τ

/-- A read that is to move `k` bytes has a turn once they have all arrived. -/
def hear (m : κ) {n : Nat} (k : ReadReply n → Config κ L ν τ α) (inp : Bytes) :
    Plan → Option (Turn κ (Config κ L ν τ α))
  | .fail err => some ⟨k (.fail err), [], []⟩
  | .take j =>
    if min j n ≤ inp.length then
      some ⟨k (.got (inp.take (min j n)) (by rw [List.length_take]; omega)), mark m (inp.take (min j n)), []⟩
    else none

def say (m : κ) (bs : Bytes) (k : WriteReply bs.length → Config κ L ν τ α) :
    Plan → Turn κ (Config κ L ν τ α)
  | .fail err => ⟨k (.fail err), [], []⟩
  | .take j => ⟨k (.wrote (min j bs.length) (Nat.min_le_right _ _)), [], mark m (bs.take j)⟩

/-- The next turn of a program, if it has one. Transfers on a descriptor that is not
open fail at once, and a program that has aborted has no turn. -/
def turn (e : Env κ L ν τ) : Config κ L ν τ α → Bytes → Option (Turn κ (Config κ L ν τ α))
  | (.ret _, _, _), _ => none
  | (.call (.recv m fd n) k, v, s), inp =>
    if fd < 0 then some ⟨(k (ReadReply.fail .EBADF), v, s), [], []⟩
    else hear m (fun r : ReadReply n => (k r, (e.recv v m n).1, s)) inp (e.recv v m n).2
  | (.call (.send m fd bs) k, v, s), _ =>
    if fd < 0 then some ⟨(k (WriteReply.fail .EBADF), v, s), [], []⟩
    else some (say m bs (fun r : WriteReply bs.length => (k r, (e.send v m bs.length).1, s))
      (e.send v m bs.length).2)
  | (.call (.malloc n) k, v, s), _ => some ⟨(k (e.malloc v n).2, (e.malloc v n).1, s), [], []⟩
  | (.call (.scratch n) k, v, s), _ => some ⟨(k (e.scratch v n).2, (e.scratch v n).1, s), [], []⟩
  | (.call (.sys c) k, v, s), _ => some ⟨(k (e.sys s c).2, v, (e.sys s c).1), [], []⟩
  | (.call (.abort _) _, _, _), _ => none

private theorem hear_prefix {m : κ} {n : Nat} {k : ReadReply n → Config κ L ν τ α} {inp : Bytes}
    {p : Plan} {t : Turn κ (Config κ L ν τ α)} (h : hear m k inp p = some t) :
    unmark t.heard <+: inp := by
  cases p with
  | fail err =>
    obtain rfl := Option.some.inj h
    exact List.nil_prefix
  | take j =>
    simp only [hear, Option.ite_none_right_eq_some, Option.some.injEq] at h
    obtain ⟨_, rfl⟩ := h
    simpa using List.take_prefix (min j n) inp

private theorem hear_congr {m : κ} {n : Nat} {k : ReadReply n → Config κ L ν τ α}
    {inp inp' : Bytes} {p : Plan} {t : Turn κ (Config κ L ν τ α)} (h : hear m k inp p = some t)
    (hp : unmark t.heard <+: inp') : hear m k inp' p = some t := by
  cases p with
  | fail err => exact h
  | take j =>
    simp only [hear, Option.ite_none_right_eq_some, Option.some.injEq] at h
    obtain ⟨hl, rfl⟩ := h
    simp only [unmark_mark] at hp
    have hl' : min j n ≤ inp'.length := by
      have := hp.length_le
      simp only [List.length_take] at this
      omega
    have he : inp'.take (min j n) = inp.take (min j n) := by
      have := List.prefix_iff_eq_take.mp hp
      rw [List.length_take, Nat.min_eq_left hl] at this
      exact this.symm
    simp only [hear, he, if_pos hl']

theorem turn_prefix (e : Env κ L ν τ) {q : Config κ L ν τ α} {inp : Bytes}
    {t : Turn κ (Config κ L ν τ α)} (h : e.turn q inp = some t) : unmark t.heard <+: inp := by
  obtain ⟨p, v, s⟩ := q
  rcases p with a | ⟨c, k⟩
  · cases h
  · cases c with
    | recv m fd n =>
      simp only [turn] at h
      split at h
      · obtain rfl := Option.some.inj h
        exact List.nil_prefix
      · exact hear_prefix h
    | send m fd bs =>
      simp only [turn] at h
      split at h
      · obtain rfl := Option.some.inj h
        exact List.nil_prefix
      · obtain rfl := Option.some.inj h
        unfold say
        split <;> exact List.nil_prefix
    | malloc n => cases h; exact List.nil_prefix
    | scratch n => cases h; exact List.nil_prefix
    | sys c => cases h; exact List.nil_prefix
    | abort why => cases h

theorem turn_congr (e : Env κ L ν τ) {q : Config κ L ν τ α} {inp inp' : Bytes}
    {t : Turn κ (Config κ L ν τ α)} (h : e.turn q inp = some t) (hp : unmark t.heard <+: inp') :
    e.turn q inp' = some t := by
  obtain ⟨p, v, s⟩ := q
  rcases p with a | ⟨c, k⟩
  · exact h
  · cases c with
    | recv m fd n =>
      simp only [turn] at h ⊢
      split at h
      · rename_i hf
        rw [if_pos hf, h]
      · rename_i hf
        rw [if_neg hf]
        exact hear_congr h hp
    | send m fd bs => exact h
    | malloc n => exact h
    | scratch n => exact h
    | sys c => exact h
    | abort why => exact h

abbrev machine (e : Env κ L ν τ) (α : Type) : Machine κ where
  State := Config κ L ν τ α
  step := e.turn
  heard_prefix := e.turn_prefix
  step_congr := e.turn_congr

theorem turn_call (e : Env κ L ν τ) {c : SockCall κ L} {k : (Sock κ L).Reply c → Prog (Sock κ L) α}
    {v : ν} {s : τ} {inp : Bytes} {t : Turn κ (Config κ L ν τ α)}
    (h : e.turn (.call c k, v, s) inp = some t) :
    ∃ r w, t.next = (k r, w) ∧ ∀ {β : Type} (k' : (Sock κ L).Reply c → Prog (Sock κ L) β),
      e.turn (.call c k', v, s) inp = some ⟨(k' r, w), t.heard, t.sent⟩ := by
  cases c with
  | recv m fd n =>
    simp only [turn] at h ⊢
    split at h
    · rename_i hf
      obtain rfl := Option.some.inj h
      exact ⟨_, _, rfl, fun k' => if_pos hf⟩
    · rename_i hf
      simp only [if_neg hf]
      unfold hear at h ⊢
      split at h
      · obtain rfl := Option.some.inj h
        exact ⟨_, _, rfl, fun k' => rfl⟩
      · split at h
        · rename_i hl
          obtain rfl := Option.some.inj h
          exact ⟨_, _, rfl, fun k' => if_pos hl⟩
        · cases h
  | send m fd bs =>
    simp only [turn] at h ⊢
    split at h
    · rename_i hf
      obtain rfl := Option.some.inj h
      exact ⟨_, _, rfl, fun k' => if_pos hf⟩
    · rename_i hf
      obtain rfl := Option.some.inj h
      simp only [if_neg hf]
      unfold say
      split <;> exact ⟨_, _, rfl, fun k' => rfl⟩
  | malloc n => cases h; exact ⟨_, _, rfl, fun k' => rfl⟩
  | scratch n => cases h; exact ⟨_, _, rfl, fun k' => rfl⟩
  | sys c => cases h; exact ⟨_, _, rfl, fun k' => rfl⟩
  | abort why => cases h

private theorem turn_bind (e : Env κ L ν τ) {q : Config κ L ν τ α} {inp : Bytes}
    {t : Turn κ (Config κ L ν τ α)} (h : e.turn q inp = some t)
    (f : α → Prog (Sock κ L) β) :
    e.turn (q.1 >>= f, q.2) inp = some ⟨(t.next.1 >>= f, t.next.2), t.heard, t.sent⟩ := by
  obtain ⟨p, v, s⟩ := q
  rcases p with a | ⟨c, k⟩
  · cases h
  · obtain ⟨r, w, hn, hk⟩ := e.turn_call h
    rw [hn]
    exact hk fun r => k r >>= f

theorem reaches_bind (e : Env κ L ν τ) {c d : Config κ L ν τ α} {i o : Marked κ}
    (h : (e.machine α).Reaches c i o d) (f : α → Prog (Sock κ L) β) :
    (e.machine β).Reaches (c.1 >>= f, c.2) i o (d.1 >>= f, d.2) :=
  h.map (A := e.machine α) (B := e.machine β) (fun c => (c.1 >>= f, c.2)) fun ht => e.turn_bind ht f

theorem reaches_bind_ret (e : Env κ L ν τ) {p : Prog (Sock κ L) α} {f : α → Prog (Sock κ L) β}
    {b : β} {w w' : ν × τ} {i o : Marked κ}
    (h : (e.machine β).Reaches (p >>= f, w) i o (.ret b, w')) :
    ∃ a w₁ i₁ o₁ i₂ o₂, i = i₁ ++ i₂ ∧ o = o₁ ++ o₂ ∧
      (e.machine α).Reaches (p, w) i₁ o₁ (.ret a, w₁) ∧
      (e.machine β).Reaches (f a, w₁) i₂ o₂ (.ret b, w') := by
  induction p generalizing w i o with
  | ret a => exact ⟨a, w, [], [], i, o, rfl, rfl, .refl _, h⟩
  | call c k ih =>
    obtain ⟨_, t, i', o', ht, rfl, rfl, rest⟩ := h.first (by rintro ⟨⟩)
    obtain ⟨r, w₁, hn, hk⟩ := e.turn_call ht
    rw [hn] at rest
    obtain ⟨a, w₂, i₁, o₁, i₂, o₂, rfl, rfl, h₁, h₂⟩ := ih r rest
    have hfirst := (Machine.Reaches.single (A := e.machine α) (hk k)).trans h₁
    exact ⟨a, w₂, _, _, i₂, o₂, (List.append_assoc ..).symm, (List.append_assoc ..).symm,
      hfirst, h₂⟩

/-- A program run in a loop: a result on the left starts it again. -/
def resume {ι ω : Type} (body : ι → Prog (Sock κ L) (ι ⊕ ω)) :
    Prog (Sock κ L) (ι ⊕ ω) → Prog (Sock κ L) (ι ⊕ ω)
  | .ret (.inl i) => body i
  | p => p

section Loop
variable {ι ω : Type} (e : Env κ L ν τ) (body : ι → Prog (Sock κ L) (ι ⊕ ω))

def restart (t : Turn κ (Config κ L ν τ (ι ⊕ ω))) : Turn κ (Config κ L ν τ (ι ⊕ ω)) :=
  ⟨(resume body t.next.1, t.next.2), t.heard, t.sent⟩

/-- A looping program as a machine. Its state at the head of the loop is `body i`. -/
abbrev loop : Machine κ where
  State := Config κ L ν τ (ι ⊕ ω)
  step q inp := (e.turn q inp).map (restart body)
  heard_prefix := by
    intro q inp t h
    obtain ⟨u, hu, rfl⟩ := Option.map_eq_some_iff.mp h
    exact e.turn_prefix (t := u) hu
  step_congr := by
    intro q inp inp' t h hp
    obtain ⟨u, hu, rfl⟩ := Option.map_eq_some_iff.mp h
    rw [e.turn_congr (t := u) hu hp]
    rfl

variable {body}

private theorem resume_of_turn {q : Config κ L ν τ (ι ⊕ ω)} {inp : Bytes}
    {t : Turn κ (Config κ L ν τ (ι ⊕ ω))} (h : e.turn q inp = some t) :
    resume body q.1 = q.1 := by
  obtain ⟨p, v, s⟩ := q
  rcases p with a | ⟨c, k⟩
  · cases h
  · rfl

theorem reaches_loop {c d : Config κ L ν τ (ι ⊕ ω)} {i o : Marked κ}
    (h : (e.machine (ι ⊕ ω)).Reaches c i o d) :
    (e.loop body).Reaches (resume body c.1, c.2) i o (resume body d.1, d.2) := by
  refine h.map (A := e.machine (ι ⊕ ω)) (B := e.loop body) (fun c => (resume body c.1, c.2)) ?_
  intro q inp t ht
  change (e.turn (resume body q.1, q.2) inp).map (restart body) = some (restart body t)
  rw [e.resume_of_turn ht]
  exact congrArg (Option.map (restart body)) ht

end Loop

/-- `Does e p s i o q s'`: whatever the transfers and the memory are like, `p` goes on to
`q`, taking `i` and sending `o`, while the system state goes from `s` to `s'`. -/
def Does (e : Env κ L ν τ) (p : Prog (Sock κ L) α) (s : τ) (i o : Marked κ)
    (q : Prog (Sock κ L) α) (s' : τ) : Prop :=
  ∀ v, ∃ v', (e.machine α).Reaches (p, v, s) i o (q, v', s')

namespace Does
variable {e : Env κ L ν τ}

theorem refl (p : Prog (Sock κ L) α) (s : τ) : Does e p s [] [] p s :=
  fun v => ⟨v, .refl _⟩

theorem trans {p q r : Prog (Sock κ L) α} {s s' s'' : τ} {i j o u : Marked κ}
    (h : Does e p s i o q s') (h' : Does e q s' j u r s'') :
    Does e p s (i ++ j) (o ++ u) r s'' := by
  intro v
  obtain ⟨v', hv⟩ := h v
  obtain ⟨v'', hv'⟩ := h' v'
  exact ⟨v'', hv.trans hv'⟩

theorem bind {p q : Prog (Sock κ L) α} {s s' : τ} {i o : Marked κ} (h : Does e p s i o q s')
    (f : α → Prog (Sock κ L) β) : Does e (p >>= f) s i o (q >>= f) s' := by
  intro v
  obtain ⟨v', hv⟩ := h v
  exact ⟨v', e.reaches_bind hv f⟩

theorem andThen {p : Prog (Sock κ L) α} {a : α} {f : α → Prog (Sock κ L) β}
    {r : Prog (Sock κ L) β} {s s' s'' : τ} {i j o u : Marked κ}
    (h : Does e p s i o (.ret a) s') (h' : Does e (f a) s' j u r s'') :
    Does e (p >>= f) s (i ++ j) (o ++ u) r s'' :=
  (h.bind f).trans h'

theorem takes {p : Prog (Sock κ L) α} {a : α} {f : α → Prog (Sock κ L) β} {r : Prog (Sock κ L) β}
    {s s' s'' : τ} {i u : Marked κ} (h : Does e p s i [] (.ret a) s')
    (h' : Does e (f a) s' [] u r s'') : Does e (p >>= f) s i u r s'' := by
  simpa using h.andThen h'

theorem returns {p : Prog (Sock κ L) α} {a : α} {f : α → Prog (Sock κ L) β} {q : Prog (Sock κ L) β}
    {s s' : τ} {i o : Marked κ} (h : Does e p s i o (.ret a) s') (hq : f a = q) :
    Does e (p >>= f) s i o q s' := by
  have hf := h.bind f
  rwa [Prog.ret_bind, hq] at hf

end Does

/-- Transfers of the kinds in `recvs` and `sends` move everything they are asked for, all
others move something, and memory does not run out. -/
structure Prompt (e : Env κ L ν τ) (recvs sends : κ → Prop) : Prop where
  recv_whole {v m n} : recvs m → ∃ j, (e.recv v m n).2 = .take j ∧ n ≤ j
  send_whole {v m n} : sends m → ∃ j, (e.send v m n).2 = .take j ∧ n ≤ j
  recv_some {v m n} : 0 < n → ∃ j, (e.recv v m n).2 = .take j ∧ 0 < j
  send_some {v m n} : 0 < n → ∃ j, (e.send v m n).2 = .take j ∧ 0 < j
  malloc_some {v n} : ∃ b, (e.malloc v n).2 = some b

/-- The environment in which every transfer is complete and fresh memory is cleared. -/
def whole (sys : τ → (c : L.Call) → τ × L.Reply c) : Env κ L Unit τ where
  recv v _ n := (v, .take n)
  send v _ n := (v, .take n)
  malloc v n := (v, some (Block.zeros n))
  scratch v n := (v, Block.zeros n)
  sys := sys

theorem whole_prompt (sys : τ → (c : L.Call) → τ × L.Reply c) {recvs sends : κ → Prop} :
    (whole sys).Prompt recvs sends where
  recv_whole _ := ⟨_, rfl, le_rfl⟩
  send_whole _ := ⟨_, rfl, le_rfl⟩
  recv_some h := ⟨_, rfl, h⟩
  send_some h := ⟨_, rfl, h⟩
  malloc_some := ⟨_, rfl⟩

section Calls
variable {e : Env κ L ν τ} {recvs sends : κ → Prop}

theorem reaches_single {q : Config κ L ν τ α} {inp : Bytes} {t : Turn κ (Config κ L ν τ α)}
    (h : e.turn q inp = some t) : (e.machine α).Reaches q t.heard t.sent t.next :=
  Machine.Reaches.single (A := e.machine α) h

theorem does_recv (he : e.Prompt recvs sends) {m : κ} (hm : recvs m) {fd : Fd} (hf : 0 ≤ fd)
    {n : Nat} {bs : Bytes} (hn : bs.length = n) (s : τ) :
    Does e (Sock.recv m fd n) s (mark m bs) [] (.ret (.got bs hn.le)) s := by
  intro v
  subst hn
  obtain ⟨j, hj, hle⟩ := he.recv_whole (v := v) (n := bs.length) hm
  refine ⟨(e.recv v m bs.length).1, ?_⟩
  have ht : e.turn (Sock.recv m fd bs.length, v, s) bs =
      some ⟨(.ret (.got bs le_rfl), (e.recv v m bs.length).1, s), mark m bs, []⟩ := by
    simp [turn, Sock.recv, Int.not_lt.mpr hf, hj, hear, Nat.min_eq_right hle]
  exact reaches_single ht

theorem does_send (he : e.Prompt recvs sends) {m : κ} (hm : sends m) {fd : Fd} (hf : 0 ≤ fd)
    (bs : Bytes) (s : τ) :
    Does e (Sock.send m fd bs) s [] (mark m bs) (.ret (.wrote bs.length le_rfl)) s := by
  intro v
  obtain ⟨j, hj, hle⟩ := he.send_whole (v := v) (n := bs.length) hm
  refine ⟨(e.send v m bs.length).1, ?_⟩
  have ht : e.turn (Sock.send m fd bs, v, s) [] =
      some ⟨(.ret (.wrote bs.length le_rfl), (e.send v m bs.length).1, s), [], mark m bs⟩ := by
    simp [turn, Sock.send, Int.not_lt.mpr hf, hj, say, Nat.min_eq_right hle,
      List.take_of_length_le hle]
  exact reaches_single ht

/-- A read that may come short takes some of what it is asked for. -/
theorem reaches_recv_some (he : e.Prompt recvs sends) {m : κ} {fd : Fd} (hf : 0 ≤ fd) {bs : Bytes}
    (hb : bs ≠ []) (v : ν) (s : τ) (f : ReadReply bs.length → Prog (Sock κ L) α) :
    ∃ chunk rest v', bs = chunk ++ rest ∧ chunk ≠ [] ∧ ∃ hn,
      (e.machine α).Reaches (Sock.recv m fd bs.length >>= f, v, s) (mark m chunk) []
        (f (.got chunk hn), v', s) := by
  have hpos : 0 < bs.length := List.length_pos_iff.mpr hb
  obtain ⟨j, hj, hj0⟩ := he.recv_some (v := v) (m := m) hpos
  have hlen : (bs.take (min j bs.length)).length = min j bs.length := by
    rw [List.length_take]
    omega
  refine ⟨bs.take (min j bs.length), bs.drop (min j bs.length), (e.recv v m bs.length).1,
    (List.take_append_drop _ _).symm, ?_, hlen.trans_le (Nat.min_le_right _ _), ?_⟩
  · intro hempty
    rw [hempty, List.length_nil] at hlen
    omega
  · have ht : e.turn (Sock.recv m fd bs.length >>= f, v, s) bs =
        some ⟨(f (.got (bs.take (min j bs.length)) (hlen.trans_le (Nat.min_le_right _ _))),
          (e.recv v m bs.length).1, s), mark m (bs.take (min j bs.length)), []⟩ := by
      simp only [turn, Sock.recv, Prog.call_bind, if_neg (Int.not_lt.mpr hf), hj, hear,
        if_pos (Nat.min_le_right j bs.length)]
      rfl
    exact reaches_single ht

theorem does_malloc (he : e.Prompt recvs sends) (n : Nat) (s : τ)
    {f : Option (Block n) → Prog (Sock κ L) α} {i o : Marked κ} {q : Prog (Sock κ L) α} {s' : τ}
    (h : ∀ b, Does e (f (some b)) s i o q s') : Does e (Sock.malloc n >>= f) s i o q s' := by
  intro v
  obtain ⟨b, hb⟩ := he.malloc_some (v := v) (n := n)
  obtain ⟨v', hv⟩ := h b (e.malloc v n).1
  have ht : e.turn (Sock.malloc n >>= f, v, s) [] =
      some ⟨(f (some b), (e.malloc v n).1, s), [], []⟩ := by
    simp [turn, Sock.malloc, hb]
  exact ⟨v', (reaches_single ht).trans hv⟩

theorem does_scratch (n : Nat) (s : τ) {f : Block n → Prog (Sock κ L) α}
    {i o : Marked κ} {q : Prog (Sock κ L) α} {s' : τ}
    (h : ∀ b, Does e (f b) s i o q s') : Does e (Sock.scratch n >>= f) s i o q s' := by
  intro v
  obtain ⟨v', hv⟩ := h (e.scratch v n).2 (e.scratch v n).1
  have ht : e.turn (Sock.scratch n >>= f, v, s) [] =
      some ⟨(f (e.scratch v n).2, (e.scratch v n).1, s), [], []⟩ := rfl
  exact ⟨v', (reaches_single ht).trans hv⟩

theorem does_sys (c : L.Call) (s : τ) :
    Does e (Sock.sys c) s [] [] (.ret (e.sys s c).2) (e.sys s c).1 := by
  intro v
  have ht : e.turn (Sock.sys c, v, s) [] =
      some ⟨(.ret (e.sys s c).2, v, (e.sys s c).1), [], []⟩ := rfl
  exact ⟨v, reaches_single ht⟩

theorem reaches_ret {a b : α} {w w' : ν × τ} {i o : Marked κ}
    (h : (e.machine α).Reaches (.ret a, w) i o (.ret b, w')) :
    a = b ∧ w = w' ∧ i = [] ∧ o = [] := by
  obtain ⟨hq, hi, ho⟩ := h.of_stuck fun _ => rfl
  cases hq
  exact ⟨rfl, rfl, hi, ho⟩

theorem reaches_recv (he : e.Prompt recvs sends) {m : κ} (hm : recvs m) {fd : Fd} (hf : 0 ≤ fd)
    {n : Nat} {f : ReadReply n → Prog (Sock κ L) α} {a : α} {v : ν} {s : τ} {w : ν × τ}
    {i o : Marked κ} (h : (e.machine α).Reaches (Sock.recv m fd n >>= f, v, s) i o (.ret a, w)) :
    ∃ bs, ∃ hn : bs.length = n, ∃ v' i', i = mark m bs ++ i' ∧
      (e.machine α).Reaches (f (.got bs hn.le), v', s) i' o (.ret a, w) := by
  obtain ⟨inp, t, i', o', ht, rfl, rfl, rest⟩ := h.first (by rintro ⟨⟩)
  obtain ⟨j, hj, hle⟩ := he.recv_whole (v := v) (n := n) hm
  simp only [Sock.recv, Prog.call_bind, turn, if_neg (Int.not_lt.mpr hf), hj, hear,
    Nat.min_eq_right hle, Option.ite_none_right_eq_some, Option.some.injEq] at ht
  obtain ⟨hl, rfl⟩ := ht
  have hn : (inp.take n).length = n := by
    rw [List.length_take, Nat.min_eq_left hl]
  exact ⟨inp.take n, hn, _, i', rfl, rest⟩

theorem reaches_malloc (he : e.Prompt recvs sends) {n : Nat}
    {f : Option (Block n) → Prog (Sock κ L) α} {a : α} {v : ν} {s : τ} {w : ν × τ}
    {i o : Marked κ} (h : (e.machine α).Reaches (Sock.malloc n >>= f, v, s) i o (.ret a, w)) :
    ∃ b v', (e.machine α).Reaches (f (some b), v', s) i o (.ret a, w) := by
  obtain ⟨inp, t, i', o', ht, rfl, rfl, rest⟩ := h.first (by rintro ⟨⟩)
  obtain ⟨b, hb⟩ := he.malloc_some (v := v) (n := n)
  cases ht
  rw [hb] at rest
  exact ⟨b, _, rest⟩

theorem reaches_scratch {n : Nat} {f : Block n → Prog (Sock κ L) α} {a : α} {v : ν} {s : τ}
    {w : ν × τ} {i o : Marked κ}
    (h : (e.machine α).Reaches (Sock.scratch n >>= f, v, s) i o (.ret a, w)) :
    ∃ b v', (e.machine α).Reaches (f b, v', s) i o (.ret a, w) := by
  obtain ⟨inp, t, i', o', ht, rfl, rfl, rest⟩ := h.first (by rintro ⟨⟩)
  cases ht
  exact ⟨_, _, rest⟩

theorem does_sys_then {c : L.Call} {s s' t : τ} {r : L.Reply c} (hc : e.sys s c = (s', r))
    {f : L.Reply c → Prog (Sock κ L) α} {i o : Marked κ} {q : Prog (Sock κ L) α}
    (h : Does e (f r) s' i o q t) : Does e (Sock.sys c >>= f) s i o q t := by
  have hs := does_sys (e := e) c s
  rw [hc] at hs
  exact hs.andThen h

end Calls
end Env
end Interaction
