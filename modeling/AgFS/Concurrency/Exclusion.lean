import AgFS.Concurrency.Phases

/-! Operations keep to sockets on which the server has accepted the client, as long as none
of them reads `socket_` while `connect` is at work on what it holds. -/
namespace AgFS
open Interaction ByteOrder Sock

/-- What matters about an object here: for each open socket, whether `ACCEPT` has been read. -/
structure View where
  socket_ : Fd
  monitor_ : Option Thread
  sockets : Fd → Option Bool

def Socket.accepted (sock : Socket) : Bool := decide (.accept ∈ sock.log)

def Object.view (s : Object) : View :=
  ⟨s.socket_, s.monitor_, fun fd => (s.sockets fd).map Socket.accepted⟩

def View.Ready (v : View) : Prop := v.socket_ < 0 ∨ v.sockets v.socket_ = some true

/-- An operation reads `socket_` only if that is not a socket from which `ACCEPT` has yet to
be read. -/
def ReadsReady (s : Object) (i : Thread) (ev : Event (Sock Kind ClientSys)) : Prop :=
  ev.call = .sys .getSocket → s.monitor_ = some i → s.view.Ready

section View
variable (s : Object) (i : Thread)

theorem view_put (fd : Fd) (sock : Option Socket) :
    (s.put fd sock).view =
      { s.view with sockets := Function.update s.view.sockets fd (sock.map Socket.accepted) } := by
  simp only [Object.view, Object.put, View.mk.injEq, true_and]
  exact Function.comp_update (fun sock : Option Socket => sock.map Socket.accepted) s.sockets fd sock

theorem view_close (fd : Fd) (r : Except Errno Unit) :
    (s.after i (.sys (.close fd)) r).view =
      { s.view with sockets := Function.update s.view.sockets fd none } :=
  view_put s fd none

@[simp] theorem accepted_note {sock : Socket} {h : Happening} (hh : h ≠ .accept) :
    (sock.note h).accepted = sock.accepted := by
  simp [Socket.accepted, Socket.note, hh.symm]

private theorem view_note {fd : Fd} {h : Happening} (hh : h ≠ .accept) : (s.note fd h).view = s.view := by
  simp only [Object.view, Object.note, Object.put, View.mk.injEq, true_and]
  funext fd'
  by_cases hfd : fd' = fd
  · subst hfd
    simp [Function.comp_def, hh]
  · simp [hfd]

private theorem spoken_ne (bs : Bytes) : s.spoken i bs ≠ .accept := by
  unfold Object.spoken
  split <;> nofun

theorem view_send (m : Kind) (fd : Fd) (bs : Bytes) (r : WriteReply bs.length) :
    (s.after i (.send m fd bs) r).view = s.view := by
  cases r with
  | fail err => rfl
  | wrote count hcount => exact view_note s (spoken_ne s i _)

theorem view_connect (fd : Fd) (r : Except Errno Unit) :
    (s.after i (.sys (.connect fd)) r).view = s.view := by
  cases r with
  | error err => rfl
  | ok r =>
    simp only [Object.after, Object.view, Object.put, View.mk.injEq, true_and]
    funext fd'
    by_cases hfd : fd' = fd
    · subst hfd
      rw [Function.update_self, Option.map_map]
      rfl
    · simp [hfd]

theorem view_recv_holding (hi : s.monitor_ = some i) (m : Kind) (fd : Fd) (n : Nat) (r : ReadReply n) :
    (s.after i (.recv m fd n) r).view = s.view := by
  cases m with
  | command => simp only [Object.after, Object.heard, if_pos hi, Object.view]
  | _ => rfl

private theorem view_accept (hi : s.monitor_ ≠ some i) {fd : Fd} {n : Nat} {r : ReadReply n}
    (hr : ReadReply.bytes r = htobe16 cmd.ACCEPT) (hopen : ∃ sock, s.sockets fd = some sock) :
    (s.after i (.recv .command fd n) r).view =
      { s.view with sockets := Function.update s.view.sockets fd (some true) } := by
  obtain ⟨sock, hsock⟩ := hopen
  simp only [Object.after, Object.heard, if_neg hi, if_pos hr]
  change (s.note fd .accept).view = _
  rw [Object.note, view_put, hsock]
  simp [Socket.accepted, Socket.note]

theorem view_recv_other (m : Kind) (fd : Fd) (n : Nat) {r : ReadReply n}
    (hr : ReadReply.bytes r ≠ htobe16 cmd.ACCEPT) : (s.after i (.recv m fd n) r).view = s.view := by
  cases m with
  | command =>
    simp only [Object.after, Object.heard, if_neg hr]
    split <;> rfl
  | _ => rfl

end View

def View.At (v : View) (i : Thread) : Phase → Prop
  | .inside (some fd) =>
    (fd < 0 ∨ v.sockets fd = some true) ∧ (i = .heartbeat ∨ i = .destroy → v.socket_ = fd)
  | .missed fd => i = .heartbeat ∧ (fd < 0 ∨ v.sockets fd = some true) ∧ v.socket_ = fd
  | .closing => (i = .heartbeat ∨ i = .destroy) ∧ ∀ fd, v.sockets fd ≠ some true
  | .off => i = .heartbeat ∧ v.socket_ < 0
  | .made fd | .joined fd => i = .heartbeat ∧ v.socket_ < 0 ∧ v.sockets fd = some false
  | .shaking _ fd | .refused fd => i = .heartbeat ∧ v.socket_ = fd ∧ v.sockets fd = some false
  | .shut => i = .heartbeat ∧ ∀ fd, v.sockets fd ≠ some true
  | .astray => False
  | _ => True

def Phase.Stopping : Phase → Prop
  | .inside (some _) | .closing => True
  | _ => False

/-- `heartbeatThread` is neither in `heartbeat` nor in `connect`. -/
def Phase.Idle : Phase → Prop
  | .outside | .finished | .left => True
  | _ => False

private theorem Phase.Stopping.holding {x : Phase} (h : x.Stopping) : x.Holding := by
  cases x with
  | inside _ | closing => trivial
  | _ => exact h.elim

private theorem View.at_idle {v : View} {i : Thread} {a : Phase} (h : a.Idle) : v.At i a := by
  cases a with
  | outside | finished | left => trivial
  | _ => exact h.elim

theorem View.At.idle {v : View} {i : Thread} {a : Phase} (h : v.At i a) (hfd : 0 ≤ v.socket_)
    (haccepted : v.sockets v.socket_ = some true) (ha : ¬ a.Holding) : a.Idle := by
  cases a with
  | outside | finished | left => trivial
  | inside found | missed fd | closing | gone | stopped => exact absurd trivial ha
  | off => exact absurd h.2 (not_lt.mpr hfd)
  | made fd | joined fd => exact absurd h.2.1 (not_lt.mpr hfd)
  | shaking stage fd | refused fd =>
    obtain ⟨-, rfl, hpending⟩ := h
    exact nomatch haccepted.symm.trans hpending
  | shut => exact h.2 _ haccepted
  | astray => exact h

private theorem View.At.destroy {v v' : View} {a : Phase} (h : v.At .destroy a) (ha : ¬ a.Stopping) :
    v'.At .destroy a := by
  cases a with
  | inside found =>
    cases found with
    | none => trivial
    | some fd => exact absurd trivial ha
  | closing => exact absurd trivial ha
  | outside | finished | gone | stopped | left => trivial
  | astray => exact h
  | _ => exact nomatch h.1

private theorem View.At.callback {v v' : View} {n : Nat} {a : Phase} (h : v.At (.callback n) a)
    (hkept : a.Holding → ∀ fd, v.sockets fd = some true → v'.sockets fd = some true) :
    v'.At (.callback n) a := by
  cases a with
  | inside found =>
    cases found with
    | none => trivial
    | some fd => exact ⟨h.1.imp_right (hkept trivial fd), by rintro (h | h) <;> cases h⟩
  | outside | finished | gone | stopped | left => trivial
  | closing => exact (h.1.elim nofun nofun : False).elim
  | astray => exact h
  | _ => exact nomatch h.1

/-- The threads exclude each other: by the monitor, and where `connect` goes without it. -/
structure Guarded (v : View) (x : Thread → Phase) : Prop where
  held (i : Thread) : v.monitor_ = some i ↔ (x i).Holding
  nonneg (fd : Fd) : v.sockets fd ≠ none → 0 ≤ fd
  unique (fd : Fd) : v.sockets fd = some true → v.socket_ = fd
  alone : (x .destroy).Stopping → 0 ≤ v.socket_ ∧ (x .heartbeat).Idle
  at_ (i : Thread) : v.At i (x i)

namespace Guarded
variable {v : View} {x : Thread → Phase} {i : Thread} {y : Phase}

theorem only_holder (h : Guarded v x) {j : Thread} (hi : (x i).Holding) (hj : (x j).Holding) : j = i :=
  Held.only h.held hi hj

theorem of_move (h : Guarded v x) {v' : View} (hmonitor : v'.monitor_ = v.monitor_)
    (hy : y.Holding ↔ (x i).Holding) (hnonneg : ∀ fd, v'.sockets fd ≠ none → 0 ≤ fd)
    (hunique : ∀ fd, v'.sockets fd = some true → v'.socket_ = fd)
    (halone : (Function.update x i y .destroy).Stopping →
      0 ≤ v'.socket_ ∧ (Function.update x i y .heartbeat).Idle)
    (hat : v'.At i y) (hothers : ∀ j ≠ i, v'.At j (x j)) : Guarded v' (Function.update x i y) where
  held := by
    rw [hmonitor]
    exact Held.keep h.held hy
  nonneg := hnonneg
  unique := hunique
  alone := halone
  at_ j := by
    by_cases hj : j = i
    · subst hj
      rwa [Function.update_self]
    · rw [Function.update_of_ne hj]
      exact hothers j hj

theorem quiet (h : Guarded v x) (hy : y.Holding ↔ (x i).Holding) (hat : v.At i y)
    (halone : (Function.update x i y .destroy).Stopping →
      0 ≤ v.socket_ ∧ (Function.update x i y .heartbeat).Idle) :
    Guarded v (Function.update x i y) :=
  h.of_move rfl hy h.nonneg h.unique halone hat fun j _ => h.at_ j

private theorem alone_callback (h : Guarded v x) {n : Nat} :
    (Function.update x (.callback n) y .destroy).Stopping →
      0 ≤ v.socket_ ∧ (Function.update x (.callback n) y .heartbeat).Idle := by
  simpa using h.alone

/-- Where `heartbeatThread` is not idle, `stop` is not closing anything. -/
theorem not_stopping (h : Guarded v x) (hx : ¬ (x .heartbeat).Idle) : ¬ (x .destroy).Stopping :=
  fun hstop => hx (h.alone hstop).2

private theorem alone_busy (h : Guarded v x) (hx : ¬ (x .heartbeat).Idle) {P : Prop} :
    (Function.update x .heartbeat y .destroy).Stopping → P := by
  intro hstop
  rw [Function.update_of_ne (show Thread.destroy ≠ .heartbeat by nofun)] at hstop
  exact absurd hstop (h.not_stopping hx)

private theorem alone_idle (h : Guarded v x) (hy : y.Idle) :
    (Function.update x .heartbeat y .destroy).Stopping →
      0 ≤ v.socket_ ∧ (Function.update x .heartbeat y .heartbeat).Idle := by
  intro hstop
  rw [Function.update_of_ne (show Thread.destroy ≠ .heartbeat by nofun)] at hstop
  exact ⟨(h.alone hstop).1, by simpa using hy⟩

private theorem alone_destroy (h : Guarded v x) (hy : y.Stopping → (x .destroy).Stopping) :
    (Function.update x .destroy y .destroy).Stopping →
      0 ≤ v.socket_ ∧ (Function.update x .destroy y .heartbeat).Idle := by
  intro hstop
  rw [Function.update_self] at hstop
  simpa using h.alone (hy hstop)

theorem quiet_busy (h : Guarded v x) {a : Phase} (hx : x .heartbeat = a) (ha : ¬ a.Idle)
    (hy : y.Holding ↔ a.Holding) (hat : v.At .heartbeat y) :
    Guarded v (Function.update x .heartbeat y) :=
  h.quiet (hx ▸ hy) hat (h.alone_busy (hx ▸ ha))

private theorem acquire (h : Guarded v x) (hfree : v.monitor_ = none) (hx : x i = .outside) :
    Guarded { v with monitor_ := some i } (Function.update x i (.inside none)) where
  held := Held.acquire (hfree ▸ h.held) trivial
  nonneg := h.nonneg
  unique := h.unique
  alone hstop := by
    by_cases hi : Thread.destroy = i
    · subst hi
      rw [Function.update_self] at hstop
      exact hstop.elim
    · rw [Function.update_of_ne hi] at hstop
      have hsome := (h.held _).mpr hstop.holding
      rw [hfree] at hsome
      cases hsome
  at_ j := by
    by_cases hj : j = i
    · subst hj
      rw [Function.update_self]
      trivial
    · rw [Function.update_of_ne hj]
      exact h.at_ j

private theorem release (h : Guarded v x) (hx : (x i).Holding) (hy : ¬ y.Holding) (hat : v.At i y) :
    Guarded { v with monitor_ := none } (Function.update x i y) where
  held := Held.release h.held hx hy
  nonneg := h.nonneg
  unique := h.unique
  alone hstop := by
    have hhold := hstop.holding
    by_cases hi : Thread.destroy = i
    · subst hi
      rw [Function.update_self] at hhold
      exact absurd hhold hy
    · rw [Function.update_of_ne hi] at hhold
      exact absurd (h.only_holder hx hhold) hi
  at_ j := by
    by_cases hj : j = i
    · subst hj
      rwa [Function.update_self]
    · rw [Function.update_of_ne hj]
      exact h.at_ j

/-- What other threads rely on: those that are neither idle nor callbacks are kept out, and
callbacks keep their socket. -/
theorem others (h : Guarded v x) {v' : View} (hheart : i ≠ .heartbeat → (x .heartbeat).Idle)
    (hdestroy : i ≠ .destroy → ¬ (x .destroy).Stopping)
    (hkept : (x i).Holding ∨ ∀ fd, v.sockets fd = some true → v'.sockets fd = some true)
    {j : Thread} (hj : j ≠ i) : v'.At j (x j) := by
  cases j with
  | heartbeat => exact View.at_idle (hheart hj.symm)
  | destroy => exact (h.at_ _).destroy (hdestroy hj.symm)
  | callback n =>
    refine (h.at_ _).callback fun hold => ?_
    exact hkept.resolve_left fun hi => hj (h.only_holder hi hold)

theorem none_accepted (h : Guarded v x) (hfd : v.socket_ < 0) (fd : Fd) : v.sockets fd ≠ some true := by
  intro haccepted
  have hnonneg := h.nonneg fd (by simp [haccepted])
  rw [← h.unique fd haccepted] at hnonneg
  exact absurd hfd (not_lt.mpr hnonneg)

theorem create (h : Guarded v x) (hx : x .heartbeat = .off) (hoff : v.socket_ < 0) {fd : Nat}
    (hclosed : v.sockets fd = none) :
    Guarded { v with sockets := Function.update v.sockets fd (some false) }
      (Function.update x .heartbeat (.made fd)) := by
  have hkept (fd' : Fd) (b : Bool) (hb : v.sockets fd' = some b) :
      Function.update v.sockets fd (some false) fd' = some b := by
    have heq : fd' ≠ fd := fun heq => nomatch (heq ▸ hb).symm.trans hclosed
    rwa [Function.update_of_ne heq]
  refine h.of_move rfl (iff_of_false nofun (hx ▸ nofun)) (fun fd' hopen => ?_) (fun fd' haccepted => ?_)
    (h.alone_busy (hx ▸ nofun)) ⟨rfl, hoff, Function.update_self ..⟩ fun j hj =>
      h.others (fun hi => absurd rfl hi) (fun _ => h.not_stopping (hx ▸ nofun))
        (.inr fun fd' => hkept fd' true) hj
  · by_cases heq : fd' = fd
    · exact heq ▸ Int.natCast_nonneg fd
    · exact h.nonneg fd' (by simpa [heq] using hopen)
  · by_cases heq : fd' = fd
    · subst heq
      simp at haccepted
    · simp only [Function.update_of_ne heq] at haccepted
      exact h.unique fd' haccepted

theorem accepts (h : Guarded v x) {stage : Stage} {fd : Fd} (hx : x .heartbeat = .shaking stage fd)
    (hfd : v.socket_ = fd) (hpending : v.sockets fd = some false) :
    Guarded { v with sockets := Function.update v.sockets fd (some true) }
      (Function.update x .heartbeat .outside) := by
  refine h.of_move rfl (iff_of_false nofun (hx ▸ nofun)) (fun fd' hopen => ?_) (fun fd' haccepted => ?_)
    (h.alone_busy (hx ▸ nofun)) trivial fun j hj =>
      h.others (fun hi => absurd rfl hi) (fun _ => h.not_stopping (hx ▸ nofun)) (.inr fun fd' haccepted => ?_) hj
  · by_cases heq : fd' = fd
    · exact heq ▸ h.nonneg fd (by simp [hpending])
    · exact h.nonneg fd' (by simpa [heq] using hopen)
  · by_cases heq : fd' = fd
    · exact hfd.trans heq.symm
    · simp only [Function.update_of_ne heq] at haccepted
      exact h.unique fd' haccepted
  · by_cases heq : fd' = fd
    · subst heq
      exact Function.update_self ..
    · exact (Function.update_of_ne heq ..).trans haccepted

theorem assign (h : Guarded v x) {a : Phase} (hx : x i = a) (hheart : i ≠ .heartbeat → (x .heartbeat).Idle)
    (hdestroy : i ≠ .destroy → ¬ (x .destroy).Stopping) (hno : ∀ fd, v.sockets fd ≠ some true) (fd : Fd)
    (hy : y.Holding ↔ a.Holding) (hstop : ¬ y.Stopping) (hat : ({ v with socket_ := fd } : View).At i y) :
    Guarded { v with socket_ := fd } (Function.update x i y) := by
  refine h.of_move rfl (hx ▸ hy) h.nonneg (fun fd' h => absurd h (hno fd')) (fun hstop' => ?_) hat
    fun j hj => h.others hheart hdestroy (.inr fun _ => ?_) hj
  · by_cases hi : Thread.destroy = i
    · subst hi
      rw [Function.update_self] at hstop'
      exact absurd hstop' hstop
    · rw [Function.update_of_ne hi] at hstop'
      exact absurd hstop' (hdestroy (Ne.symm hi))
  · exact id

theorem close (h : Guarded v x) {a : Phase} (hx : x i = a) (hheart : i ≠ .heartbeat → (x .heartbeat).Idle)
    (hdestroy : i ≠ .destroy → ¬ (x .destroy).Stopping) {fd : Fd} (hfd : v.socket_ = fd)
    (hhold : a.Holding ∨ v.sockets fd ≠ some true) (hy : y.Holding ↔ a.Holding)
    (hstop : i = .destroy → 0 ≤ fd)
    (hat : (∀ fd', Function.update v.sockets fd none fd' ≠ some true) →
      ({ v with sockets := Function.update v.sockets fd none } : View).At i y) :
    Guarded { v with sockets := Function.update v.sockets fd none } (Function.update x i y) := by
  have hno : ∀ fd', Function.update v.sockets fd none fd' ≠ some true := by
    intro fd'
    by_cases heq : fd' = fd
    · simp [heq]
    · rw [Function.update_of_ne heq]
      exact fun haccepted => heq ((h.unique fd' haccepted).symm.trans hfd)
  refine h.of_move rfl (hx ▸ hy) (fun fd' hopen => ?_) (fun fd' h => absurd h (hno fd')) (fun hstop' => ?_)
    (hat hno) fun j hj => h.others hheart hdestroy ?_ hj
  · by_cases heq : fd' = fd
    · simp [heq] at hopen
    · exact h.nonneg fd' (by simpa [heq] using hopen)
  · by_cases hi : Thread.destroy = i
    · subst hi
      rw [Function.update_of_ne (show Thread.heartbeat ≠ .destroy by nofun), hfd]
      exact ⟨hstop rfl, hheart nofun⟩
    · rw [Function.update_of_ne hi] at hstop'
      exact absurd hstop' (hdestroy (Ne.symm hi))
  · refine hhold.imp (fun hold => hx ▸ hold) fun hpending fd' haccepted => ?_
    have heq : fd' ≠ fd := fun heq => hpending (heq ▸ haccepted)
    exact (Function.update_of_ne heq _ _).trans haccepted

section Step
variable {host : Endian} {self : ServerConnection} {s : Object} {c : SockCall Kind ClientSys}
  {r : (Sock Kind ClientSys).Reply c}

theorem ready_of_fetch (h : Guarded s.view x) (hx : (x i).Holding) {fd : Fd} (hfd : fd = s.socket_)
    (hready : ReadsReady s i ⟨.sys .getSocket, fd⟩) : fd < 0 ∨ s.view.sockets fd = some true := by
  subst hfd
  exact hready rfl ((h.held i).mpr hx)

theorem closed_of_neg (h : Guarded s.view x) {fd : Fd} (hfd : fd < 0) : s.sockets fd = none := by
  by_contra hopen
  exact absurd hfd (not_lt.mpr (h.nonneg fd (by simpa [Object.view] using hopen)))

theorem step (h : Guarded s.view x) (hmove : Moving host self i (x i) c r y) (hpossible : s.Possible c r)
    (hready : ReadsReady s i ⟨c, r⟩) : Guarded (s.after i c r).view (Function.update x i y) := by
  generalize hx : x i = a at hmove
  have hat := h.at_ i
  have hself : Function.update x i a = x := by rw [← hx, Function.update_eq_self]
  rw [hx] at hat
  cases hmove with
  | memory hc =>
    rw [hself]
    cases c with
    | malloc n | scratch n => exact h
    | abort why => exact hpossible.elim
    | _ => exact hc.elim
  | lock => exact h.acquire hpossible hx
  | fetch hfound =>
    have hhold : (x i).Holding := hx ▸ trivial
    refine h.quiet (iff_of_true trivial hhold)
      ⟨h.ready_of_fetch hhold hpossible hready, fun _ => Eq.symm hpossible⟩ ?_
    cases i with
    | callback n => exact h.alone_callback
    | heartbeat => exact h.alone_busy (hx ▸ nofun)
    | destroy =>
      obtain ⟨fd, rfl⟩ := Option.ne_none_iff_exists'.mp (hfound rfl)
      exact h.alone_destroy fun _ => hx ▸ trivial
  | send =>
    rw [view_send, hself]
    exact h
  | unlock hi => exact h.release (hx ▸ trivial) nofun trivial
  | test => rwa [hself]
  | recv | answered =>
    rw [hself, view_recv_holding _ _ ((h.held _).mpr (hx ▸ trivial))]
    exact h
  | lost hr =>
    rw [view_recv_holding _ _ ((h.held _).mpr (hx ▸ trivial))]
    exact h.quiet_busy hx nofun Iff.rfl ⟨rfl, hat.1, hat.2 (.inl rfl)⟩
  | refetch =>
    exact h.quiet_busy hx nofun Iff.rfl
      ⟨rfl, h.ready_of_fetch (hx ▸ trivial) hpossible hready, Eq.symm hpossible⟩
  | drop =>
    rw [view_close]
    exact h.close hx (fun hi => absurd rfl hi) (fun _ => h.not_stopping (hx ▸ nofun)) hat.2.2
      (.inl trivial) Iff.rfl nofun fun hno => ⟨.inl rfl, hno⟩
  | dropped =>
    exact h.assign hx (fun hi => absurd rfl hi) (fun _ => h.not_stopping (hx ▸ nofun)) hat.2 _ Iff.rfl
      nofun trivial
  | @connected fd hfd =>
    obtain rfl : fd = s.socket_ := hpossible
    have haccepted := (h.ready_of_fetch (hx ▸ trivial) rfl hready).resolve_left (not_lt.mpr hfd)
    refine h.quiet (iff_of_true trivial (hx ▸ trivial)) ⟨.inr haccepted, fun _ => rfl⟩ fun _ => ⟨hfd, ?_⟩
    rw [Function.update_of_ne (show Thread.heartbeat ≠ .destroy by nofun)]
    refine (h.at_ .heartbeat).idle hfd haccepted fun hhold => ?_
    exact nomatch h.only_holder (i := .destroy) (hx ▸ trivial) hhold
  | unconnected hfd =>
    exact h.quiet (iff_of_true trivial (hx ▸ trivial)) trivial (h.alone_destroy nofun)
  | close =>
    have hstop := h.alone (hx ▸ trivial)
    rw [view_close]
    have hfd := hat.2 (.inr rfl)
    exact h.close hx (fun _ => hstop.2) (fun hi => absurd rfl hi) hfd (.inl trivial) Iff.rfl
      (fun _ => hfd ▸ hstop.1) fun hno => ⟨.inr rfl, hno⟩
  | clear =>
    have hstop := h.alone (hx ▸ trivial)
    exact h.assign hx (fun _ => hstop.2) (fun hi => absurd rfl hi) hat.2 _ Iff.rfl nofun trivial
  | setClosed => exact h.quiet (iff_of_true trivial (hx ▸ trivial)) trivial (h.alone_destroy nofun)
  | leave => exact h.release (hx ▸ trivial) nofun trivial
  | ends hidle =>
    exact h.quiet (iff_of_false nofun (by rcases hidle with rfl | rfl <;> exact hx ▸ nofun)) trivial
      (h.alone_idle trivial)
  | goesOn hidle => rwa [hself]
  | online hfd => rwa [hself]
  | @offline _ fd hidle hfd =>
    obtain rfl : fd = s.socket_ := hpossible
    rcases hidle with rfl | rfl
    · refine h.quiet (iff_of_false nofun (hx ▸ nofun)) ⟨rfl, hfd⟩ fun hstop => ?_
      rw [Function.update_of_ne (show Thread.destroy ≠ .heartbeat by nofun)] at hstop
      exact absurd (h.alone hstop).1 (not_le.mpr hfd)
    · rwa [hself]
  | @strays fd hfd =>
    obtain rfl : fd = s.socket_ := hpossible
    exact absurd hat.2 (not_lt.mpr hfd)
  | astray => exact hat.elim
  | lookup | noSocket => rwa [hself]
  | @socket fd =>
    have hclosed : s.view.sockets fd = none := by simp [Object.view, show s.sockets fd = none from hpossible]
    rw [show s.after .heartbeat (.sys .socket) (.ok fd) = s.put fd (some ⟨false, []⟩) from rfl, view_put]
    exact h.create hx hat.2 hclosed
  | join =>
    rw [view_connect]
    exact h.quiet_busy hx nofun Iff.rfl hat
  | notJoined =>
    exact h.quiet_busy hx nofun Iff.rfl ⟨rfl, hat.2.1⟩
  | store =>
    exact h.assign hx (fun hi => absurd rfl hi) (fun _ => h.not_stopping (hx ▸ nofun))
      (h.none_accepted hat.2.1) _ Iff.rfl nofun ⟨rfl, rfl, hat.2.2⟩
  | storeError hfd =>
    exact h.assign hx (fun hi => absurd rfl hi) (fun _ => h.not_stopping (hx ▸ nofun))
      (h.none_accepted hat.2) _ Iff.rfl nofun ⟨rfl, hfd⟩
  | @look _ fd fd' hfd | @lookRefused fd fd' hfd =>
    obtain rfl : fd' = s.socket_ := hpossible
    obtain rfl : s.socket_ = fd := hat.2.1
    exact h.quiet_busy hx nofun Iff.rfl hat
  | @lookStopped _ fd fd' hfd | @lookGone fd fd' hfd =>
    obtain rfl : fd' = s.socket_ := hpossible
    exact h.quiet_busy hx nofun Iff.rfl ⟨rfl, hfd⟩
  | sendSize | sendText =>
    rw [view_send]
    exact h.quiet_busy hx nofun Iff.rfl hat
  | sendBroken | sendNowhere => rwa [view_send, hself]
  | accept hr =>
    have hfree : s.monitor_ ≠ some .heartbeat := fun hi => by
      have hhold := (h.held _).mp hi
      rw [hx] at hhold
      exact hhold
    obtain ⟨sock, hsock, -⟩ := Option.map_eq_some_iff.mp hat.2.2
    rw [view_accept s _ hfree hr ⟨sock, hsock⟩]
    exact h.accepts hx hat.2.1 hat.2.2
  | refuse hr =>
    rw [view_recv_other _ _ _ _ _ hr]
    exact h.quiet_busy hx nofun Iff.rfl hat
  | closeRefused =>
    rw [view_close]
    exact h.close hx (fun hi => absurd rfl hi) (fun _ => h.not_stopping (hx ▸ nofun)) hat.2.1
      (.inr (by rw [hat.2.2]; nofun)) Iff.rfl nofun fun hno => ⟨rfl, hno⟩
  | clearRefused =>
    exact h.assign hx (fun hi => absurd rfl hi) (fun _ => h.not_stopping (hx ▸ nofun)) hat.2 _ Iff.rfl
      nofun ⟨rfl, show (-1 : Int) < 0 by decide⟩
  | @recvNowhere m fd n r hfd =>
    have hr : r = ReadReply.fail .EBADF := hpossible (h.closed_of_neg hfd)
    rw [hself, view_recv_other _ _ _ _ _ (hr ▸ nofun)]
    exact h
  | closeNowhere hfd =>
    rw [hself, view_close, Function.update_eq_self_iff.mpr]
    · exact h
    · simp [Object.view, h.closed_of_neg hfd]

end Step

end Guarded
end AgFS
