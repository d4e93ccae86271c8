import AgFS.Concurrency.Acceptance

/-! When a server that has stopped answering is noticed. -/
namespace AgFS
open Interaction ByteOrder Sock

/-- Replies to a heartbeat that are what they should be, or are taken for a loss. -/
def LossNoticed (host : Endian) (reply : Bytes) : Prop :=
  reply = htobe16 cmd.HEARTBEAT ∨ reply = htobe16 cmd.NONE ∨
    host = .big ∧ (reply = [] ∨ reply = [0])

/-- A lost reply is taken for `NONE` where the bytes of `NONE` are in network order already. -/
theorem taken_none {host : Endian} (r : ReadReply 2) :
    taken host r = cmd.NONE ↔
      r.bytes = htobe16 cmd.NONE ∨ host = .big ∧ (r.bytes = [] ∨ r.bytes = [0]) := by
  rw [taken_iff]
  have hle := ReadReply_bytes_length r
  have hnone : htobe16 cmd.NONE = [0, 11] := rfl
  match r.bytes, hle with
  | [], _ => cases host <;> decide
  | [b], _ =>
    cases host with
    | little =>
      change [b, 0] = [0, 11] ↔ _
      simp [hnone]
    | big =>
      change [b, 11] = [0, 11] ↔ _
      simp [hnone]
  | [b, b'], _ =>
    rw [overlay_full (store_length host).le]
    simp

def Beat (events : List (Event (Sock Kind ClientSys))) : Prop :=
  ∃ fd h, ⟨.recv .command fd 2, .got (htobe16 cmd.HEARTBEAT) h⟩ ∈ events

private theorem socket_send (s : Object) (i : Thread) (m : Kind) (fd : Fd) (bs : Bytes) (r : WriteReply bs.length) :
    (s.after i (.send m fd bs) r).socket_ = s.socket_ := congrArg View.socket_ (view_send s i m fd bs r)

private theorem socket_recv (s : Object) (i : Thread) (m : Kind) (fd : Fd) (n : Nat) (r : ReadReply n) :
    (s.after i (.recv m fd n) r).socket_ = s.socket_ := by
  cases m with
  | command =>
    simp only [Object.after, Object.heard]
    split
    · rfl
    · split <;> rfl
  | _ => rfl

section Alone
variable {host : Endian} {i : Thread} {s t : Object} {events : List (Event (Sock Kind ClientSys))}

/-- One call of `heartbeat`: the one reply it reads, and what it leaves in `socket_`. -/
theorem heartbeat_acts {err : AgerrT} (hruns : Runs (ServerConnection.heartbeat host) events (.ret err))
    (hacts : Threads.Acts (Object.Does i) s events t) :
    ∃ r, (∀ fd r', ⟨.recv .command fd 2, r'⟩ ∈ events ↔ fd = s.socket_ ∧ r' = r) ∧
      t.socket_ = if taken host r = cmd.NONE then -1 else s.socket_ := by
  obtain ⟨_, _, rfl, h₁⟩ := Runs.call_ret_iff.mp hruns
  cases hacts with | cons does rest
  obtain ⟨-, rfl⟩ := does
  obtain ⟨fd, _, rfl, h₂⟩ := Runs.call_ret_iff.mp h₁
  cases rest with | cons does rest
  obtain ⟨hfd, rfl⟩ := does
  obtain rfl : fd = s.socket_ := hfd
  obtain ⟨r', _, rfl, h₃⟩ := Runs.call_ret_iff.mp h₂
  cases rest with | cons does rest
  obtain ⟨-, rfl⟩ := does
  obtain ⟨fd', _, rfl, h₄⟩ := Runs.call_ret_iff.mp h₃
  cases rest with | cons does rest
  obtain ⟨hfd, rfl⟩ := does
  obtain rfl : fd' = s.socket_ := hfd.trans (socket_send ..)
  obtain ⟨r, u, rfl, h₅⟩ := Runs.call_ret_iff.mp h₄
  cases rest with | cons does rest
  obtain ⟨-, rfl⟩ := does
  refine ⟨r, ?_⟩
  change Runs ((if taken host r = cmd.NONE then _ else _ : ClientIo AgerrT) >>= _) _ _ at h₅
  by_cases hnone : taken host r = cmd.NONE
  · rw [if_pos hnone] at h₅ ⊢
    obtain ⟨_, _, rfl, h₆⟩ := Runs.call_ret_iff.mp h₅
    cases rest with | cons does rest
    obtain ⟨_, _, rfl, h₇⟩ := Runs.call_ret_iff.mp h₆
    cases rest with | cons does rest
    obtain ⟨_, _, rfl, h₈⟩ := Runs.call_ret_iff.mp h₇
    cases rest with | cons does rest
    obtain ⟨-, rfl⟩ := does
    obtain ⟨_, _, rfl, h₉⟩ := Runs.call_ret_iff.mp h₈
    cases rest with | cons does rest
    obtain ⟨-, rfl⟩ := does
    obtain ⟨rfl, -⟩ := Runs.ret_iff.mp h₉
    cases rest
    refine ⟨fun fd r' => ?_, rfl⟩
    simp [eq_comm]
  · rw [if_neg hnone] at h₅ ⊢
    obtain ⟨_, _, rfl, h₆⟩ := Runs.call_ret_iff.mp h₅
    cases rest with | cons does rest
    obtain ⟨-, rfl⟩ := does
    obtain ⟨rfl, -⟩ := Runs.ret_iff.mp h₆
    cases rest
    refine ⟨fun fd r' => ?_, ?_⟩
    · simp
    · exact (socket_recv ..).trans (socket_send ..)

/-- A call of `heartbeat` leaves the object connected only after a whole reply if and only if
it has nothing to notice, or the reply it reads is of the kind that it notices. -/
theorem heartbeat_noticed {err : AgerrT} (hruns : Runs (ServerConnection.heartbeat host) events (.ret err))
    (hacts : Threads.Acts (Object.Does i) s events t) :
    (0 ≤ t.socket_ → Beat events) ↔
      s.socket_ < 0 ∨ ∃ r, ⟨.recv .command s.socket_ 2, r⟩ ∈ events ∧ LossNoticed host (ReadReply.bytes r) := by
  obtain ⟨r, hrecv, hsocket⟩ := heartbeat_acts hruns hacts
  have hbeat : Beat events ↔ ReadReply.bytes r = htobe16 cmd.HEARTBEAT := by
    constructor
    · rintro ⟨fd, h, hmem⟩
      rw [← ((hrecv fd _).mp hmem).2]
      rfl
    · intro hr
      cases r with
      | fail err => cases hr
      | got bs h =>
        obtain rfl : bs = htobe16 cmd.HEARTBEAT := hr
        exact ⟨s.socket_, h, (hrecv _ _).mpr ⟨rfl, rfl⟩⟩
  have hread : (∃ r', ⟨.recv .command s.socket_ 2, r'⟩ ∈ events ∧ LossNoticed host (ReadReply.bytes r')) ↔
      LossNoticed host (ReadReply.bytes r) := by
    constructor
    · rintro ⟨r', hmem, hr'⟩
      rwa [← ((hrecv _ _).mp hmem).2]
    · exact fun hr => ⟨r, (hrecv _ _).mpr ⟨rfl, rfl⟩, hr⟩
  rw [hread, hbeat, LossNoticed, ← taken_none, hsocket]
  by_cases hneg : s.socket_ < 0
  · refine iff_of_true (fun hnonneg => ?_) (.inl hneg)
    split at hnonneg
    · exact absurd hnonneg (by decide)
    · exact absurd hneg (not_lt.mpr hnonneg)
  · by_cases hnone : taken host r = cmd.NONE
    · rw [if_pos hnone]
      exact iff_of_true (fun hnonneg => absurd hnonneg (by decide)) (.inr (.inr hnone))
    · simp [hneg, hnone, not_lt.mp hneg]

end Alone

/-- If `heartbeat` reads the reply to a heartbeat from a socket, it notices a loss. -/
def NoticesLoss (host : Endian) (s : Object) (i : Thread) : Event (Sock Kind ClientSys) → Prop
  | ⟨.recv .command fd _, r⟩ => i = .heartbeat → s.monitor_ = some i → fd < 0 ∨ LossNoticed host (ReadReply.bytes r)
  | _ => True

/-- Where heartbeats go unanswered no connection can be used, except that `heartbeat` may be
about to drop it. -/
def Noticing (s : Object) (x : Thread → Phase) : Prop :=
  s.answering = false → (∀ fd, s.view.sockets fd ≠ some true) ∨ ∃ fd, x .heartbeat = .missed fd

section Step
variable {host : Endian} {self : ServerConnection} {s : Object} {x : Thread → Phase} {i : Thread}
  {y : Phase} {c : SockCall Kind ClientSys} {r : (Sock Kind ClientSys).Reply c}

private theorem after_answering (hc : ∀ fd n, c ≠ .recv .command fd n) :
    (s.after i c r).answering = s.answering := by
  cases c with
  | recv m fd n =>
    cases m with
    | command => exact absurd rfl (hc fd n)
    | _ => rfl
  | send m fd bs => cases r <;> rfl
  | malloc n | scratch n | abort why => rfl
  | sys c =>
    cases c with
    | socket | connect fd => cases r <;> rfl
    | _ => rfl

theorem after_accepted (hc : ∀ fd n, c ≠ .recv .command fd n) {fd : Fd}
    (haccepted : (s.after i c r).view.sockets fd = some true) : s.view.sockets fd = some true := by
  cases c with
  | recv m fd' n =>
    cases m with
    | command => exact absurd rfl (hc fd' n)
    | _ => exact haccepted
  | send m fd' bs => rwa [view_send] at haccepted
  | malloc n | scratch n | abort why => exact haccepted
  | sys c =>
    cases c with
    | close fd' =>
      rw [view_close] at haccepted
      by_cases hfd : fd = fd'
      · simp [hfd] at haccepted
      · simpa [hfd] using haccepted
    | socket =>
      cases r with
      | error err => exact haccepted
      | ok fd' =>
        rw [show s.after i (.sys .socket) (.ok fd') = s.put fd' (some ⟨false, []⟩) from rfl, view_put] at haccepted
        by_cases hfd : fd = fd'
        · simp [hfd, Socket.accepted] at haccepted
        · simpa [hfd] using haccepted
    | connect fd' => rwa [view_connect] at haccepted
    | _ => exact haccepted

theorem Moving.missed {fd : Fd} (hmove : Moving host self .heartbeat (.missed fd) c r y) :
    (∃ fd', y = .missed fd') ∨ c = .sys (.close fd) := by
  cases hmove with
  | memory | refetch => exact .inl ⟨_, rfl⟩
  | drop => exact .inr rfl
  | ends h | goesOn h | offline h => rcases h with h | h <;> cases h

theorem Noticing.keep (h : Noticing s x) {t : Object} (hi : i = .heartbeat → ∀ fd, x .heartbeat ≠ .missed fd)
    (hsockets : t.view.sockets = s.view.sockets) (hanswering : t.answering = false → s.answering = false) :
    Noticing t (Function.update x i y) := by
  intro ht
  rcases h (hanswering ht) with hno | ⟨fd, hmissed⟩
  · exact .inl (hsockets ▸ hno)
  · have hne : Thread.heartbeat ≠ i := fun heq => hi heq.symm fd hmissed
    exact .inr ⟨fd, by rwa [Function.update_of_ne hne]⟩

theorem Noticing.heard (h : Noticing s x) (hg : Guarded s.view x) {fd : Fd} {n : Nat} {r : ReadReply n}
    (hmove : Moving host self i (x i) (.recv .command fd n) r y)
    (hnotices : NoticesLoss host s i ⟨.recv .command fd n, r⟩) :
    Noticing (s.after i (.recv .command fd n) r) (Function.update x i y) := by
  generalize hx : x i = a at hmove
  have hat := hg.at_ i
  rw [hx] at hat
  have hholds (ha : a.Holding) : s.monitor_ = some i := (hg.held i).mpr (hx ▸ ha)
  have hfree (ha : ¬ a.Holding) : s.monitor_ ≠ some i := fun hi => ha (hx ▸ (hg.held i).mp hi)
  cases hmove with
  | memory hc => exact hc.elim
  | recv =>
    refine h.keep (fun hi => by cases hi) (congrArg View.sockets
      (view_recv_holding s _ (hholds trivial) ..)) fun ht => ?_
    simpa [Object.after, Object.heard, hholds trivial] using ht
  | @answered fd r htaken =>
    have hview := congrArg View.sockets (view_recv_holding s _ (hholds trivial) .command fd 2 r)
    rcases hnotices rfl (hholds trivial) with hneg | hreply | hnone
    · exact fun _ => .inl (hview ▸ hg.none_accepted ((hat.2 (.inl rfl)).trans_lt hneg))
    · refine h.keep (fun _ fd' => by simp [hx]) hview fun ht => ?_
      simpa [Object.after, Object.heard, hholds trivial, hreply] using ht
    · exact absurd ((taken_none r).mpr hnone) htaken
  | lost => exact fun _ => .inr ⟨fd, Function.update_self ..⟩
  | astray => exact hat.elim
  | accept hr =>
    intro ht
    simp [Object.after, Object.heard, hfree id, hr] at ht
  | refuse hr =>
    refine h.keep (fun _ fd' => by simp [hx]) (congrArg View.sockets (view_recv_other s _ _ _ _ hr)) fun ht => ?_
    simpa [Object.after, Object.heard, hfree id, hr] using ht
  | recvNowhere hneg =>
    by_cases hr : ReadReply.bytes r = htobe16 cmd.ACCEPT
    · intro ht
      simp [Object.after, Object.heard, hfree id, hr] at ht
    · refine h.keep (fun _ fd' => by simp [hx]) (congrArg View.sockets (view_recv_other s _ _ _ _ hr)) fun ht => ?_
      simpa [Object.after, Object.heard, hfree id, hr] using ht

private theorem Noticing.step (h : Noticing s x) (hg : Guarded s.view x) (hmove : Moving host self i (x i) c r y)
    (hnotices : NoticesLoss host s i ⟨c, r⟩) : Noticing (s.after i c r) (Function.update x i y) := by
  by_cases hc : ∃ fd n, c = .recv .command fd n
  · obtain ⟨fd, n, rfl⟩ := hc
    exact h.heard hg hmove hnotices
  · have hc : ∀ fd n, c ≠ .recv .command fd n := fun fd n heq => hc ⟨fd, n, heq⟩
    intro hanswering
    rw [after_answering hc] at hanswering
    rcases h hanswering with hno | ⟨fd, hmissed⟩
    · exact .inl fun fd haccepted => hno fd (after_accepted hc haccepted)
    · by_cases hi : Thread.heartbeat = i
      · subst hi
        have hat := hg.at_ .heartbeat
        rw [hmissed] at hmove hat
        rcases hmove.missed with ⟨fd', rfl⟩ | rfl
        · exact .inr ⟨fd', Function.update_self ..⟩
        · refine .inl fun fd' haccepted => ?_
          rw [view_close] at haccepted
          by_cases hfd : fd' = fd
          · simp [hfd] at haccepted
          · simp only [Function.update_of_ne hfd] at haccepted
            exact hfd ((hg.unique fd' haccepted).symm.trans hat.2.2)
      · exact .inr ⟨fd, by rwa [Function.update_of_ne hi]⟩

end Step

/-- A callback that can send something to the server does so only while every heartbeat since
the last `ACCEPT` has been answered. -/
def SendsAnswered (t : Threads.State (Sock Kind ClientSys) Thread Object) : Prop :=
  ∀ n m fd bs k, t.running (.callback n) = .call (.send m fd bs) k →
    ∀ count h, t.shared.Possible (.send m fd bs) (.wrote count h) → t.shared.answering = true

private theorem Guarded.sends_answered {host : Endian} {conn : ServerConnection}
    {t : Threads.State (Sock Kind ClientSys) Thread Object} {x : Thread → Phase}
    (hphased : Threads.Phased (Moving host conn) Resting
      (fun s x => Guarded s.view x ∧ Noticing s x) t x) : SendsAnswered t := by
  obtain ⟨hg, hnoticing⟩ := hphased.inv
  intro n m fd bs k hnext count hcount hpossible
  obtain ⟨y, hmove⟩ := hphased.moves hnext (.fail .EBADF)
  have hat := hg.at_ (.callback n)
  generalize hx : x (.callback n) = a at hmove hat
  cases hmove with
  | memory hc => exact hc.elim
  | send =>
    have haccepted : t.shared.view.sockets fd = some true := by
      refine hat.1.resolve_left fun hneg => ?_
      exact nomatch hpossible (hg.closed_of_neg hneg)
    by_contra hnot
    rcases hnoticing (Bool.eq_false_iff.mpr hnot) with hno | ⟨fd', hmissed⟩
    · exact hno fd haccepted
    · exact nomatch hg.only_holder (i := .callback n) (hx ▸ trivial) (hmissed ▸ trivial : (x .heartbeat).Holding)

/-- What `heartbeat` leaves connected has answered exactly if the reply is of the kind that it
notices; and in every interleaving in which all are, and no operation reads `socket_` while
`connect` waits for an answer, operations are sent only to a server that answers. -/
theorem heartbeat_notices (host : Endian) :
    (∀ {i : Thread} {s t : Object} {events : List (Event (Sock Kind ClientSys))} {err : AgerrT},
      Runs (ServerConnection.heartbeat host) events (.ret err) →
      Threads.Acts (Object.Does i) s events t →
      ((0 ≤ t.socket_ → Beat events) ↔ s.socket_ < 0 ∨
        ∃ r, ⟨.recv .command s.socket_ 2, r⟩ ∈ events ∧ LossNoticed host (ReadReply.bytes r))) ∧
    ∀ {conn : ServerConnection} {s : Object}, s.Started conn →
      ∀ {t : Threads.State (Sock Kind ClientSys) Thread Object},
        (conn.threads host).Run (fun s i ev => ReadsReady s i ev ∧ NoticesLoss host s i ev) (.idle s) t →
          SendsAnswered t := by
  refine ⟨heartbeat_noticed, fun {conn s} hs {t} hrun => ?_⟩
  obtain ⟨x, hphased⟩ := ServerConnection.run_phased (fun s x => Guarded s.view x ∧ Noticing s x)
    ⟨hs.guarded, fun hno => nomatch hs.running.2.2.symm.trans hno⟩
    (fun h hmove hpossible hmeets =>
      ⟨h.1.step hmove hpossible hmeets.1, h.2.step h.1 hmove hmeets.2⟩) hrun
  exact Guarded.sends_answered hphased

private theorem not_beat_lostRound : ¬ Beat (lostRound.drop 2) := by
  rintro ⟨fd, hbytes, hmem⟩
  simp [lostRound] at hmem

/-- A heartbeat is lost, which is noticed, the connection is made anew, and the next one is answered. Then an operation
is about to send its command. -/
theorem heartbeat_notices_madeAnew :
    (loadedA.play .heartbeat (lostRound.drop 2)).socket_ < 0 ∧ Beat (answeredRound.drop 2) ∧
      ((((loadedA.play .heartbeat lostRound).play .heartbeat madeAnew).play .heartbeat answeredRound).play
        (.callback 0) (itsCommand.take 2)).answering = true := by
  have hlostbeat : Runs (ServerConnection.heartbeat .big) (lostRound.drop 2) (.ret 0) := by
    repeat apply Runs.step
    exact .refl _
  have hbeat : Runs (ServerConnection.heartbeat .big) (answeredRound.drop 2) (.ret 0) := by
    repeat apply Runs.step
    exact .refl _
  have hlostacts : Threads.Acts (Object.Does .heartbeat) loadedA (lostRound.drop 2)
      (loadedA.play .heartbeat (lostRound.drop 2)) := by
    refine .cons ⟨rfl, rfl⟩ (.cons ⟨rfl, rfl⟩ (.cons ⟨nofun, rfl⟩ (.cons ⟨rfl, rfl⟩ (.cons ⟨nofun, rfl⟩ ?_))))
    exact .cons ⟨rfl, rfl⟩ (.cons ⟨nofun, rfl⟩ (.cons ⟨trivial, rfl⟩ (.cons ⟨trivial, rfl⟩ (.nil _))))
  have hacts : Threads.Acts (Object.Does .heartbeat) loadedA (answeredRound.drop 2)
      (loadedA.play .heartbeat (answeredRound.drop 2)) := by
    refine .cons ⟨rfl, rfl⟩ (.cons ⟨rfl, rfl⟩ (.cons ⟨nofun, rfl⟩ (.cons ⟨rfl, rfl⟩ (.cons ⟨nofun, rfl⟩ ?_))))
    exact .cons ⟨trivial, rfl⟩ (.nil _)
  have hcommand : ∃ k, Runs (accessOnA >>= fun _ => return true) (itsCommand.take 2)
      (.call (.send .command (3 : Int) [0, 7]) k) := by
    apply Exists.intro
    apply Runs.step
    apply Runs.step
    exact .refl _
  obtain ⟨k, hcommand⟩ := hcommand
  have hlost := ServerConnection.run_plays (s := .idle loadedA) (i := .heartbeat)
    (C := fun s i ev => ReadsReady s i ev ∧ NoticesLoss .big s i ev) rfl rfl runs_lostRound
    ⟨⟨rfl, nofun, trivial⟩, ⟨rfl, fun _ => nofun, trivial⟩, ⟨rfl, nofun, trivial⟩, ⟨rfl, fun _ _ => .inr rfl, trivial⟩,
      ⟨nofun, nofun, trivial⟩, ⟨rfl, fun _ _ => .inr rfl, trivial⟩,
      ⟨nofun, nofun, fun _ _ => .inr (.inr (.inr ⟨rfl, .inl rfl⟩))⟩,
      ⟨rfl, fun _ _ => .inr rfl, trivial⟩, ⟨nofun, nofun, trivial⟩, ⟨trivial, nofun, trivial⟩,
      ⟨trivial, nofun, trivial⟩,
      trivial⟩
  have hanew := hlost.trans (ServerConnection.run_plays (i := .heartbeat) rfl rfl runs_madeAnew
    ⟨⟨rfl, nofun, trivial⟩, ⟨rfl, fun _ => nofun, trivial⟩, ⟨trivial, nofun, trivial⟩, ⟨rfl, nofun, trivial⟩,
      ⟨nofun, nofun, trivial⟩, ⟨trivial, nofun, trivial⟩, ⟨rfl, fun _ => nofun, trivial⟩,
      ⟨rfl, fun _ => nofun, trivial⟩, ⟨nofun, nofun, trivial⟩, ⟨nofun, nofun, trivial⟩,
      ⟨rfl, fun _ => nofun, trivial⟩, ⟨nofun, nofun, fun _ => nofun⟩, trivial⟩)
  have hanswered := hanew.trans (ServerConnection.run_plays (i := .heartbeat) rfl rfl runs_answeredRound
    ⟨⟨rfl, nofun, trivial⟩, ⟨rfl, fun _ => nofun, trivial⟩, ⟨rfl, nofun, trivial⟩, ⟨rfl, fun _ _ => .inr rfl, trivial⟩,
      ⟨nofun, nofun, trivial⟩, ⟨rfl, fun _ _ => .inr rfl, trivial⟩, ⟨nofun, nofun, fun _ _ => .inr (.inl rfl)⟩,
      ⟨trivial, nofun, trivial⟩, trivial⟩)
  have hready := hanswered.trans (ServerConnection.run_plays rfl starts_accessOnA hcommand
    ⟨⟨rfl, nofun, trivial⟩, ⟨rfl, fun _ _ => .inr rfl, trivial⟩, trivial⟩)
  have hcalls := heartbeat_notices .big
  refine ⟨lt_of_not_ge fun hconnected => not_beat_lostRound ?_, ?_,
    hcalls.2 loadedA_started hready 0 .command 3 [0, 7] k rfl 2 (by decide) nofun⟩
  · refine (hcalls.1 hlostbeat hlostacts).mpr (.inr ⟨.fail .EAGAIN, ?_, .inr (.inr ⟨rfl, .inl rfl⟩)⟩) hconnected
    exact .tail _ (.tail _ (.tail _ (.tail _ (.head _))))
  · refine (hcalls.1 hbeat hacts).mpr (.inr ⟨.got [0, 1] (by decide), ?_, .inl rfl⟩) (by decide)
    exact .tail _ (.tail _ (.tail _ (.tail _ (.head _))))

/-- On a little-endian host a time-out goes unnoticed. -/
theorem not_heartbeat_notices : ∃ (s t : Object) (events : List (Event (Sock Kind ClientSys))) (err : AgerrT),
    Runs (ServerConnection.heartbeat .little) events (.ret err) ∧
      Threads.Acts (Object.Does .heartbeat) s events t ∧ ¬ (0 ≤ t.socket_ → Beat events) := by
  let events : List (Event (Sock Kind ClientSys)) :=
    [⟨.sys .lock, ()⟩, ⟨.sys .getSocket, (3 : Int)⟩, ⟨.send .command 3 [0, 1], .wrote 2 (by decide)⟩,
      ⟨.sys .getSocket, (3 : Int)⟩, ⟨.recv .command 3 2, .fail .EAGAIN⟩, ⟨.sys .unlock, ()⟩]
  refine ⟨loadedA, loadedA.play .heartbeat events, events, 0, ?_, ?_, fun h => ?_⟩
  · repeat apply Runs.step
    exact .refl _
  · refine .cons ⟨rfl, rfl⟩ (.cons ⟨rfl, rfl⟩ (.cons ⟨nofun, rfl⟩ (.cons ⟨rfl, rfl⟩ (.cons ⟨nofun, rfl⟩ ?_))))
    exact .cons ⟨trivial, rfl⟩ (.nil _)
  · obtain ⟨fd, hbytes, hmem⟩ := h (by decide)
    simp [events] at hmem

end AgFS
