import AgFS.Session.Passes

/-! When the server gives up a client that it does not hear from. -/
namespace AgFS
open Interaction ByteOrder Sock

/-- Against reads that come out like this, the server closes the connection at the first point where
six of them in a row have missed, and at no other. -/
def DropsInTime (host : Endian) (start : ClientConnection) (reads : List CommandRead) : Prop :=
  ∀ ts self t next, Passes host start ts self → Runs (self.commandLoop host) t (.ret next) →
    (∀ u ∈ ts ++ [t], decoded host u ≠ cmd.STOP) → (ts ++ [t]).map commandRead <+: reads →
    (next.isRight ↔ List.replicate 6 CommandRead.missed <:+ (ts ++ [t]).map commandRead)

section Counter
variable {host : Endian} {self next : ClientConnection} {t : List ServerEvent}

/-- The connection object when a number of reads have missed since it was made. -/
def missing (mount : Str) (socket : Fd) (misses : Nat) : ClientConnection := ⟨mount, socket, misses⟩

private theorem runs_miss {mount : Str} {socket : Fd} {misses : Nat}
    {res : ClientConnection ⊕ ClientConnection}
    (h : Runs (missing mount socket misses).miss t (.ret res)) :
    (misses < 5 → res = .inl (missing mount socket (misses + 1))) ∧
      (5 ≤ misses → res = .inr (missing mount (-1) (misses + 1))) := by
  unfold ClientConnection.miss at h
  by_cases hmisses : misses < 5
  · rw [if_neg (by simp only [missing]; omega)] at h
    obtain ⟨-, hret⟩ := Runs.ret_iff.mp h
    cases hret
    exact ⟨fun _ => rfl, fun h => absurd hmisses (by omega)⟩
  · rw [if_pos (by simp only [missing]; omega)] at h
    obtain ⟨_, u, -, hu⟩ := Sock.runs_sys.mp h
    obtain ⟨-, hret⟩ := Runs.ret_iff.mp hu
    cases hret
    exact ⟨fun h => absurd h hmisses, fun _ => rfl⟩

theorem commandLoop_counts {mount : Str} {socket : Fd} {misses : Nat} (hmisses : misses < 6)
    {res : ClientConnection ⊕ ClientConnection}
    (h : Runs ((missing mount socket misses).commandLoop host) t (.ret res))
    (hstop : decoded host t ≠ cmd.STOP) :
    res = if misses + [commandRead t].count .missed < 6 then
        .inl (missing mount socket (misses + [commandRead t].count .missed))
      else .inr (missing mount (-1) 6) := by
  obtain ⟨rfl, hret⟩ | ⟨r, u, rfl, ⟨hread, hu⟩ | ⟨hread, hu⟩⟩ := runs_commandLoop h
  · cases hret
  · obtain ⟨hless, hsix⟩ := runs_miss hu
    rw [hread, List.count_singleton_self]
    by_cases hfive : misses < 5
    · rw [if_pos (by omega), hless hfive]
    · obtain rfl : misses = 5 := by omega
      exact hsix le_rfl
  · obtain ⟨handler, hhandler⟩ := dispatch_goesOn host (missing mount socket misses) hstop
    rw [hhandler] at hu
    obtain ⟨_, _, _, -, -, hend⟩ := Runs.bind_ret_iff.mp hu
    obtain ⟨-, hret⟩ := Runs.ret_iff.mp hend
    cases hret
    rw [hread]
    exact (if_pos hmisses).symm

/-- Run of the counter: at the head of the loop it is the number of reads that have missed. -/
theorem passes_count {mount : Str} {socket : Fd} {start : ClientConnection}
    {ts : List (List ServerEvent)} (h : Passes host start ts self) {misses : Nat}
    (hstart : start = missing mount socket misses) (hmisses : misses < 6)
    (hstop : ∀ u ∈ ts, decoded host u ≠ cmd.STOP) :
    misses + (ts.map commandRead).count .missed < 6 ∧
      self = missing mount socket (misses + (ts.map commandRead).count .missed) := by
  induction h generalizing misses with
  | nil => exact ⟨hmisses, hstart⟩
  | @cons self next last t rest h _ ih =>
    subst hstart
    obtain ⟨hfirst, hrest⟩ := List.forall_mem_cons.mp hstop
    have hnext := commandLoop_counts hmisses h hfirst
    split at hnext
    · rename_i hless
      obtain ⟨hcount, hlast⟩ := ih (Sum.inl.inj hnext) hless hrest
      rw [List.map_cons, ← List.singleton_append, List.count_append, ← Nat.add_assoc]
      exact ⟨hcount, hlast⟩
    · cases hnext

/-- The connection is closed in the pass in which the sixth read misses. -/
theorem closed_iff {mount : Str} {socket : Fd} {ts : List (List ServerEvent)}
    {res : ClientConnection ⊕ ClientConnection} (hpasses : Passes host (missing mount socket 0) ts self)
    (h : Runs (self.commandLoop host) t (.ret res)) (hstop : ∀ u ∈ ts ++ [t], decoded host u ≠ cmd.STOP) :
    (ts.map commandRead).count .missed < 6 ∧
      (res.isRight ↔ 6 ≤ ((ts ++ [t]).map commandRead).count .missed) := by
  obtain ⟨hmany, hlast⟩ := List.forall_mem_append.mp hstop
  obtain ⟨hcount, rfl⟩ := passes_count hpasses rfl (by decide) hmany
  rw [Nat.zero_add] at hcount h
  refine ⟨hcount, ?_⟩
  rw [commandLoop_counts hcount h (hlast t List.mem_cons_self), List.map_append, List.count_append,
    List.map_singleton]
  split
  · rename_i hless
    simp only [Sum.isRight_inl, Bool.false_eq_true, false_iff]
    omega
  · rename_i hless
    simp only [Sum.isRight_inr, true_iff]
    omega

def silentPass (socket : Fd) : List ServerEvent := [⟨.recv .command socket 2, .fail .EAGAIN⟩]

def lastPass (socket : Fd) : List ServerEvent := silentPass socket ++ [⟨.sys (.close socket), ()⟩]

def heartbeatPass (socket : Fd) : List ServerEvent :=
  [⟨.recv .command socket 2, .got [0, 1] le_rfl⟩, ⟨.send .command socket (htobe16 cmd.HEARTBEAT), .all _⟩]

private theorem decoded_silentPass (socket : Fd) : decoded host (silentPass socket) ≠ cmd.STOP := by
  change be16toh (overlay (host.store 2 _) []) ≠ cmd.STOP
  cases host <;> decide

private theorem decoded_heartbeatPass (socket : Fd) : decoded host (heartbeatPass socket) = cmd.HEARTBEAT := by
  cases host <;> rfl

private theorem runs_silentPass {mount : Str} {socket : Fd} {misses : Nat} (h : misses < 5) :
    Runs ((missing mount socket misses).commandLoop host) (silentPass socket)
      (.ret (.inl (missing mount socket (misses + 1)))) := by
  apply Runs.step
  change Runs (missing mount socket misses).miss [] _
  rw [ClientConnection.miss, if_neg (by simp only [missing]; omega)]
  exact .refl _

private theorem runs_lastPass {mount : Str} {socket : Fd} :
    Runs ((missing mount socket 5).commandLoop host) (lastPass socket) (.ret (.inr (missing mount (-1) 6))) := by
  apply Runs.step
  apply Runs.step
  exact .refl _

private theorem runs_heartbeatPass :
    Runs (self.commandLoop host) (heartbeatPass self.socket_) (.ret (.inl self)) := by
  cases host
  all_goals
    apply Runs.step
    apply Runs.step
    exact .refl _

/-- Whatever reads are to miss, as long as there are fewer than six the session goes on. -/
theorem exists_passes (host : Endian) (mount : Str) (socket : Fd) (reads : List CommandRead) (misses : Nat)
    (h : misses + reads.count .missed < 6) :
    ∃ ts, Passes host (missing mount socket misses) ts (missing mount socket (misses + reads.count .missed)) ∧
      (∀ u ∈ ts, decoded host u ≠ cmd.STOP) ∧ ts.map commandRead = reads := by
  induction reads generalizing misses with
  | nil => exact ⟨[], .nil _, by simp, rfl⟩
  | cons read reads ih =>
    cases read with
    | missed =>
      rw [List.count_cons_self] at h ⊢
      obtain ⟨ts, hpasses, hstop, hreads⟩ := ih (misses + 1) (by omega)
      refine ⟨silentPass socket :: ts, ?_, ?_, congrArg (_ :: ·) hreads⟩
      · rw [Nat.add_comm (reads.count _) 1, ← Nat.add_assoc]
        exact .cons (runs_silentPass (by omega)) hpasses
      · exact List.forall_mem_cons.mpr ⟨decoded_silentPass socket, hstop⟩
    | heard =>
      have hcount : (CommandRead.heard :: reads).count .missed = reads.count .missed :=
        List.count_cons_of_ne (by decide)
      rw [hcount] at h ⊢
      obtain ⟨ts, hpasses, hstop, hreads⟩ := ih misses h
      refine ⟨heartbeatPass socket :: ts, .cons runs_heartbeatPass hpasses, ?_, congrArg (_ :: ·) hreads⟩
      refine List.forall_mem_cons.mpr ⟨?_, hstop⟩
      rw [decoded_heartbeatPass]
      decide

end Counter

/-! The points of a list up to which an element comes so and so often. -/

section Count
variable {α : Type} [DecidableEq α] {a : α}

private theorem exists_count_eq {l : List α} {k : Nat} (h : k < l.count a) :
    ∃ pre, pre ++ [a] <+: l ∧ pre.count a = k := by
  induction l generalizing k with
  | nil => simp at h
  | cons b l ih =>
    by_cases hb : b = a
    · subst hb
      rw [List.count_cons_self] at h
      cases k with
      | zero => exact ⟨[], by simp, rfl⟩
      | succ k =>
        obtain ⟨pre, hpre, hcount⟩ := ih (show k < l.count b by omega)
        exact ⟨b :: pre, List.cons_prefix_cons.mpr ⟨rfl, hpre⟩, by rw [List.count_cons_self, hcount]⟩
    · rw [List.count_cons_of_ne hb] at h
      obtain ⟨pre, hpre, hcount⟩ := ih h
      exact ⟨b :: pre, List.cons_prefix_cons.mpr ⟨rfl, hpre⟩, by rw [List.count_cons_of_ne hb, hcount]⟩

theorem eq_of_count {b c : α} {l m n : List α} {k : Nat} (hl : l ++ [b] <+: n) (hm : m ++ [c] <+: n)
    (hlless : l.count a < k) (hmless : m.count a < k) (hlmany : k ≤ (l ++ [b]).count a)
    (hmmany : k ≤ (m ++ [c]).count a) : l ++ [b] = m ++ [c] := by
  rcases List.prefix_or_prefix_of_prefix hl hm with h | h
  · rcases List.prefix_concat_iff.mp h with heq | hpre
    · exact heq
    · have hle := hpre.sublist.count_le a
      omega
  · rcases List.prefix_concat_iff.mp h with heq | hpre
    · exact heq.symm
    · have hle := hpre.sublist.count_le a
      omega

end Count

/-- Six misses in a row end at the sixth miss, if the first six that there are do. -/
theorem sixMisses_iff {pre : List CommandRead} {read : CommandRead} {reads : List CommandRead} {n : Nat}
    (hsix : List.replicate n .heard ++ List.replicate 6 .missed <+: reads) (h : pre ++ [read] <+: reads)
    (hless : pre.count .missed < 6) :
    6 ≤ (pre ++ [read]).count .missed ↔ List.replicate 6 .missed <:+ pre ++ [read] := by
  constructor
  · intro hmany
    have hsplit : List.replicate n CommandRead.heard ++ List.replicate 6 .missed =
        (List.replicate n .heard ++ List.replicate 5 .missed) ++ [.missed] := by
      rw [List.append_assoc]
      rfl
    have hnone : (List.replicate n CommandRead.heard).count .missed = 0 := List.count_replicate ..
    rw [hsplit] at hsix
    have heq := eq_of_count (k := 6) h hsix hless
      (by rw [List.count_append, hnone, List.count_replicate_self]; decide) hmany
      (by rw [← hsplit, List.count_append, hnone, List.count_replicate_self])
    rw [heq, ← hsplit]
    exact List.suffix_append _ _
  · intro hsuffix
    have hle := hsuffix.sublist.count_le CommandRead.missed
    rwa [List.count_replicate_self] at hle

/-- Where six reads miss and the client is dropped in time, the first six come one after the other. -/
theorem consecutive_of_dropsInTime {host : Endian} {mount : Str} {socket : Fd} {reads : List CommandRead}
    (hdrops : DropsInTime host ⟨mount, socket, 0⟩ reads) (hmany : 6 ≤ reads.count .missed) :
    ∃ n, List.replicate n .heard ++ List.replicate 6 .missed <+: reads := by
  obtain ⟨pre, hpre, hcount⟩ := exists_count_eq (k := 5) hmany
  obtain ⟨ts, hpasses, hstop, hreads⟩ := exists_passes host mount socket pre 0 (by omega)
  rw [hcount] at hpasses
  have hmap : (ts ++ [lastPass socket]).map commandRead = pre ++ [.missed] := by
    rw [List.map_append, hreads]
    rfl
  have hlast : ∀ u ∈ ts ++ [lastPass socket], decoded host u ≠ cmd.STOP := by
    refine List.forall_mem_append.mpr ⟨hstop, List.forall_mem_singleton.mpr ?_⟩
    exact decoded_silentPass socket
  have hsix := hdrops ts _ _ _ hpasses runs_lastPass hlast (hmap ▸ hpre)
  rw [hmap] at hsix
  obtain ⟨front, hfront⟩ := hsix.mp rfl
  have hnone : front.count .missed = 0 := by
    have htotal := congrArg (List.count CommandRead.missed) hfront
    rw [List.count_append, List.count_append, List.count_replicate_self, hcount,
      List.count_singleton_self] at htotal
    omega
  have hheard : front = List.replicate front.length .heard := by
    refine List.eq_replicate_iff.mpr ⟨rfl, fun read hread => ?_⟩
    cases read with
    | missed => exact absurd hread (List.count_eq_zero.mp hnone)
    | heard => rfl
  refine ⟨front.length, ?_⟩
  rw [← hheard, hfront]
  exact hpre

/-- The server drops its client exactly where six reads in a row miss, if and only if fewer than
six reads miss at all or the first six that do come one after the other. -/
theorem dropsInTime_iff (host : Endian) (mount : Str) (socket : Fd) (reads : List CommandRead) :
    DropsInTime host ⟨mount, socket, 0⟩ reads ↔
      reads.count .missed < 6 ∨
        ∃ n, List.replicate n .heard ++ List.replicate 6 .missed <+: reads := by
  constructor
  · intro hdrops
    by_cases hmany : reads.count .missed < 6
    · exact .inl hmany
    · obtain ⟨n, hn⟩ := consecutive_of_dropsInTime hdrops (by omega)
      exact .inr ⟨n, hn⟩
  · intro h ts self t res hpasses hruns hstop hpre
    obtain ⟨hless, hclosed⟩ := closed_iff hpasses hruns hstop
    rw [hclosed]
    rcases h with hfew | ⟨n, hsix⟩
    · have hle := hpre.sublist.count_le CommandRead.missed
      refine iff_of_false (by omega) fun hsuffix => ?_
      have hsuffixLe := hsuffix.sublist.count_le CommandRead.missed
      rw [List.count_replicate_self] at hsuffixLe
      omega
    · rw [List.map_append, List.map_singleton] at hpre ⊢
      exact sixMisses_iff hsix hpre hless

/-- A client is dropped after three misses, a heartbeat and three misses more. -/
theorem not_dropsInTime :
    ¬ DropsInTime .little ⟨[0x2F], 4, 0⟩ [.missed, .missed, .missed, .heard, .missed, .missed, .missed] := by
  intro hdrops
  obtain ⟨n, hn⟩ := consecutive_of_dropsInTime hdrops (by decide)
  have hlength := hn.length_le
  rw [List.length_append, List.length_replicate, List.length_replicate] at hlength
  have hn : n = 0 ∨ n = 1 := by
    change n + 6 ≤ 7 at hlength
    omega
  rcases hn with rfl | rfl
  · exact absurd hn (by decide)
  · exact absurd hn (by decide)

end AgFS
