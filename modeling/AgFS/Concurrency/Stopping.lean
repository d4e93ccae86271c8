import AgFS.Concurrency.Acceptance

/-! What `stop` leaves behind, when `heartbeatThread` may be anywhere. -/
namespace AgFS
open Interaction ByteOrder Sock

def Object.Linked (s : Object) (fd : Fd) : Prop :=
  ∃ sock, s.sockets fd = some sock ∧ sock.connected = true

/-- `connect` has this socket, and has not stored it yet. -/
def Phase.Joins (fd : Fd) : Phase → Prop
  | .joined fd' => fd = fd'
  | _ => False

/-- What `heartbeatThread` may rely on. -/
def Object.Beats (s : Object) : Phase → Prop
  | .inside (some fd) | .missed fd => s.socket_ = fd
  | .closing | .shut => ∀ fd, ¬ s.Linked fd
  | .off | .made _ | .joined _ => s.socket_ < 0
  | .shaking _ fd | .refused fd => s.socket_ = fd ∨ s.socket_ < 0
  | .finished => s.closed_ = true
  | .astray => False
  | _ => True

def Object.Parts (s : Object) (a : Phase) : Phase → Prop
  | .inside (some fd) => s.leaving = true ∧ (s.socket_ = fd ∨ s.socket_ < 0)
  | .closing => s.leaving = true ∧ ∀ fd, s.Linked fd → a.Joins fd
  | .gone => s.leaving = true ∧ s.socket_ < 0
  | .stopped | .left => s.leaving = true ∧ s.socket_ < 0 ∧ s.closed_ = true
  | _ => True

/-- The only sockets with a peer are the one in the object and one that `connect` has yet to
store there. -/
structure Parting (s : Object) (x : Thread → Phase) : Prop where
  linked (fd : Fd) : s.Linked fd → 0 ≤ fd ∧ (s.socket_ = fd ∨ (x .heartbeat).Joins fd)
  beats : s.Beats (x .heartbeat)
  parts : s.Parts (x .heartbeat) (x .destroy)
  closed : s.closed_ = true → x .destroy = .stopped ∨ x .destroy = .left

/-- `connect` stores no socket once `stop` has begun. -/
def StoresBefore (s : Object) (i : Thread) : Event (Sock Kind ClientSys) → Prop
  | ⟨.sys (.setSocket fd), _⟩ => i = .heartbeat → fd < 0 ∨ s.leaving = false
  | _ => True

namespace Object
variable {s t : Object} {fd fd' : Fd}

private theorem linked_put {sock : Option Socket} (h : (s.put fd sock).Linked fd') :
    fd' = fd ∧ (∃ k, sock = some k ∧ k.connected = true) ∨ fd' ≠ fd ∧ s.Linked fd' := by
  obtain ⟨k, hk, hconnected⟩ := h
  by_cases heq : fd' = fd
  · subst heq
    simp only [put, Function.update_self] at hk
    exact .inl ⟨rfl, k, hk, hconnected⟩
  · simp only [put, Function.update_of_ne heq] at hk
    exact .inr ⟨heq, k, hk, hconnected⟩

private theorem linked_note {h : Happening} (hlinked : (s.note fd h).Linked fd') : s.Linked fd' := by
  rcases linked_put hlinked with ⟨rfl, k, hk, hconnected⟩ | ⟨-, hold⟩
  · obtain ⟨sock, hsock, rfl⟩ := Option.map_eq_some_iff.mp hk
    exact ⟨sock, hsock, hconnected⟩
  · exact hold

theorem linked_shut (hlinked : (s.put fd none).Linked fd') : fd' ≠ fd ∧ s.Linked fd' := by
  rcases linked_put hlinked with ⟨-, _, hk, -⟩ | hold
  · cases hk
  · exact hold

/-- Nothing changes that matters when a connection is stopped, except that sockets are closed. -/
structure Same (s t : Object) : Prop where
  socket_ : t.socket_ = s.socket_
  closed_ : t.closed_ = s.closed_
  leaving : s.leaving = true → t.leaving = true
  linked (fd : Fd) : t.Linked fd → s.Linked fd

private theorem Same.refl (s : Object) : Same s s := ⟨rfl, rfl, id, fun _ => id⟩

private theorem Same.note (s : Object) (fd : Fd) (h : Happening) : Same s (s.note fd h) :=
  ⟨rfl, rfl, id, fun _ => linked_note⟩

/-- Calls that neither change the fields of the object nor give a socket a peer. -/
def Quiet : SockCall Kind ClientSys → Prop
  | .sys (.setSocket _) | .sys .setClosed | .sys (.connect _) => False
  | _ => True

private theorem after_same {i : Thread} {c : SockCall Kind ClientSys} (hc : Quiet c)
    (r : (Sock Kind ClientSys).Reply c) : Same s (s.after i c r) := by
  cases c with
  | recv m fd n =>
    cases m with
    | command =>
      simp only [after, heard]
      split
      · exact ⟨rfl, rfl, id, fun _ => id⟩
      · split
        · exact ⟨rfl, rfl, id, fun _ => linked_note⟩
        · exact .refl s
    | _ => exact .refl s
  | send m fd bs =>
    cases r with
    | fail err => exact .refl s
    | wrote count hcount => exact .note s fd _
  | malloc n | scratch n | abort why => exact .refl s
  | sys c =>
    cases c with
    | setSocket fd | setClosed | connect fd => exact hc.elim
    | getSocket => exact ⟨rfl, rfl, fun h => by simp [after, h], fun _ => id⟩
    | close fd => exact ⟨rfl, rfl, id, fun _ h => (linked_shut h).2⟩
    | socket =>
      cases r with
      | error err => exact .refl s
      | ok fd =>
        refine ⟨rfl, rfl, id, fun _ h => (linked_put h).elim (fun h => ?_) And.right⟩
        obtain ⟨-, k, hk, hconnected⟩ := h
        cases hk
        cases hconnected
    | _ => exact ⟨rfl, rfl, id, fun _ => id⟩

private theorem linked_close {i : Thread} {r : Except Errno Unit}
    (h : (s.after i (.sys (.close fd)) r).Linked fd') : fd' ≠ fd ∧ s.Linked fd' :=
  linked_shut h

private theorem Beats.same {a : Phase} (h : s.Beats a) (hsame : Same s t) : t.Beats a := by
  cases a with
  | inside found =>
    cases found with
    | none => trivial
    | some fd => exact hsame.socket_.trans h
  | missed fd => exact hsame.socket_.trans h
  | closing | shut => exact fun fd hlinked => h fd (hsame.linked fd hlinked)
  | off | made fd | joined fd | shaking stage fd | refused fd => simpa only [Beats, hsame.socket_] using h
  | finished => exact hsame.closed_.trans h
  | astray => exact h
  | _ => trivial

private theorem Parts.same {a b y : Phase} (h : s.Parts a b) (hsame : Same s t)
    (hjoins : ∀ fd, a.Joins fd → y.Joins fd) : t.Parts y b := by
  cases b with
  | inside found =>
    cases found with
    | none => trivial
    | some fd => exact ⟨hsame.leaving h.1, hsame.socket_ ▸ h.2⟩
  | closing => exact ⟨hsame.leaving h.1, fun fd hlinked => hjoins fd (h.2 fd (hsame.linked fd hlinked))⟩
  | gone => exact ⟨hsame.leaving h.1, hsame.socket_ ▸ h.2⟩
  | stopped | left => exact ⟨hsame.leaving h.1, hsame.socket_ ▸ h.2.1, hsame.closed_ ▸ h.2.2⟩
  | _ => trivial

end Object

namespace Parting
open Object
variable {host : Endian} {self : ServerConnection} {s t : Object} {x : Thread → Phase} {i : Thread}
  {y : Phase} {c : SockCall Kind ClientSys} {r : (Sock Kind ClientSys).Reply c}

theorem callback (h : Parting s x) {n : Nat} (hsame : Same s t) :
    Parting t (Function.update x (.callback n) y) where
  linked fd hlinked := hsame.socket_ ▸ h.linked fd (hsame.linked fd hlinked)
  beats := h.beats.same hsame
  parts := h.parts.same hsame fun _ => id
  closed hclosed := h.closed (hsame.closed_ ▸ hclosed)

theorem heartbeat (h : Parting s x) (hsame : Same s t) (hbeats : t.Beats y)
    (hjoins : ∀ fd, (x .heartbeat).Joins fd → y.Joins fd) :
    Parting t (Function.update x .heartbeat y) where
  linked fd hlinked := by
    obtain ⟨hnonneg, hfd⟩ := h.linked fd (hsame.linked fd hlinked)
    rw [Function.update_self, hsame.socket_]
    exact ⟨hnonneg, hfd.imp_right (hjoins fd)⟩
  beats := by rwa [Function.update_self]
  parts := by
    rw [Function.update_self]
    exact h.parts.same hsame hjoins
  closed hclosed := h.closed (hsame.closed_ ▸ hclosed)

theorem reset (h : Parting s x) (hno : ∀ fd, ¬ s.Linked fd) {fd : Fd} (hneg : fd < 0)
    (hbeats : ({ s with socket_ := fd } : Object).Beats y) :
    Parting { s with socket_ := fd } (Function.update x .heartbeat y) where
  linked fd' hlinked := absurd hlinked (hno fd')
  beats := by rwa [Function.update_self]
  parts := by
    rw [Function.update_self, Function.update_of_ne (show Thread.destroy ≠ .heartbeat by nofun)]
    have hparts := h.parts
    generalize x .destroy = b at hparts
    cases b with
    | inside found =>
      cases found with
      | none => trivial
      | some fd => exact ⟨hparts.1, .inr hneg⟩
    | closing => exact ⟨hparts.1, fun fd' hlinked => absurd hlinked (hno fd')⟩
    | gone => exact ⟨hparts.1, hneg⟩
    | stopped | left => exact ⟨hparts.1, hneg, hparts.2.2⟩
    | _ => trivial
  closed := h.closed

theorem stop (h : Parting s x) (hsame : Same s t) (hparts : t.Parts (x .heartbeat) y)
    (hclosed : s.closed_ = true → y = .stopped ∨ y = .left) :
    Parting t (Function.update x .destroy y) where
  linked fd hlinked := hsame.socket_ ▸ h.linked fd (hsame.linked fd hlinked)
  beats := h.beats.same hsame
  parts := by rwa [Function.update_self]
  closed ht := by
    rw [Function.update_self]
    exact hclosed (hsame.closed_ ▸ ht)

private theorem off_unlinked (h : Parting s x) (hoff : s.socket_ < 0) (hjoins : ∀ fd, ¬ (x .heartbeat).Joins fd)
    (fd : Fd) : ¬ s.Linked fd := by
  intro hlinked
  obtain ⟨hnonneg, hfd⟩ := h.linked fd hlinked
  have hfd := hfd.resolve_right (hjoins fd)
  exact absurd (hfd ▸ hoff) (not_lt.mpr hnonneg)

theorem store (h : Parting s x) {fd : Nat} (hx : x .heartbeat = .joined fd) (hleaving : s.leaving = false) :
    Parting { s with socket_ := (fd : Int) } (Function.update x .heartbeat (.shaking .fresh fd)) where
  linked fd' hlinked := by
    obtain ⟨hnonneg, hfd⟩ := h.linked fd' hlinked
    have hoff : s.socket_ < 0 := by
      have hbeats := h.beats
      rwa [hx] at hbeats
    rw [hx] at hfd
    refine ⟨hnonneg, .inl ?_⟩
    refine (hfd.resolve_left fun heq => ?_).symm
    exact absurd (heq ▸ hoff) (not_lt.mpr hnonneg)
  beats := by
    rw [Function.update_self]
    exact .inl rfl
  parts := by
    rw [Function.update_self, Function.update_of_ne (show Thread.destroy ≠ .heartbeat by nofun)]
    have hparts := h.parts
    have hnot : s.leaving ≠ true := by simp [hleaving]
    generalize x .destroy = b at hparts
    cases b with
    | inside found =>
      cases found with
      | none => trivial
      | some fd => exact absurd hparts.1 hnot
    | closing | gone | stopped | left => exact absurd hparts.1 hnot
    | _ => trivial
  closed := h.closed

theorem join (h : Parting s x) {fd : Nat} (hx : x .heartbeat = .made fd) :
    Parting (s.put fd ((s.sockets fd).map fun sock => { sock with connected := true }))
      (Function.update x .heartbeat (.joined fd)) := by
  have hoff : s.socket_ < 0 := by
    have hbeats := h.beats
    rwa [hx] at hbeats
  have hold (fd' : Fd) : ¬ s.Linked fd' := h.off_unlinked hoff (fun fd => by rw [hx]; exact id) fd'
  have hlinked (fd' : Fd)
      (hnew : (s.put fd ((s.sockets fd).map fun sock => { sock with connected := true })).Linked fd') :
      fd' = fd := (linked_put hnew).elim And.left fun h => absurd h.2 (hold fd')
  refine ⟨fun fd' hnew => ?_, ?_, ?_, h.closed⟩
  · rw [Function.update_self]
    exact ⟨hlinked fd' hnew ▸ Int.natCast_nonneg fd, .inr (hlinked fd' hnew)⟩
  · rwa [Function.update_self]
  · rw [Function.update_self, Function.update_of_ne (show Thread.destroy ≠ .heartbeat by nofun)]
    have hparts := h.parts
    generalize x .destroy = b at hparts
    cases b with
    | inside found =>
      cases found with
      | none => trivial
      | some fd => exact hparts
    | closing => exact ⟨hparts.1, fun fd' hnew => hlinked fd' hnew⟩
    | gone | stopped | left => exact hparts
    | _ => trivial

theorem clear (h : Parting s x) (hheld : Held s.monitor_ x) (hx : x .destroy = .closing) :
    Parting { s with socket_ := -1 } (Function.update x .destroy .gone) := by
  have hparts := h.parts
  rw [hx] at hparts
  refine ⟨fun fd hlinked => ?_, ?_, ?_, fun hclosed => ?_⟩
  · exact ⟨(h.linked fd hlinked).1, .inr (hparts.2 fd hlinked)⟩
  · rw [Function.update_of_ne (show Thread.heartbeat ≠ .destroy by nofun)]
    have hbeats := h.beats
    have hfree : ¬ (x .heartbeat).Holding := fun hhold =>
      nomatch hheld.only (i := .destroy) (hx ▸ trivial) hhold
    generalize x .heartbeat = a at hbeats hfree
    cases a with
    | inside found | missed fd => exact absurd trivial hfree
    | off | made fd | joined fd => exact (by decide : (-1 : Int) < 0)
    | shaking stage fd | refused fd => exact .inr (by decide : (-1 : Int) < 0)
    | _ => exact hbeats
  · rw [Function.update_self]
    exact ⟨hparts.1, (by decide : (-1 : Int) < 0)⟩
  · have hold := h.closed hclosed
    rw [hx] at hold
    rcases hold with hold | hold <;> cases hold

theorem ask (h : Parting s x) (hc : Object.Quiet c) {n : Nat} :
    Parting (s.after (.callback n) c r) (Function.update x (.callback n) y) :=
  h.callback (after_same hc r)

theorem beat (h : Parting s x) {a : Phase} (hx : x .heartbeat = a) (hc : Object.Quiet c)
    (ha : ∀ fd, ¬ a.Joins fd) (hbeats : s.Beats y) :
    Parting (s.after .heartbeat c r) (Function.update x .heartbeat y) :=
  h.heartbeat (after_same hc r) (hbeats.same (after_same hc r)) fun fd hjoins =>
    absurd (hx ▸ hjoins) (ha fd)

theorem part (h : Parting s x) {a : Phase} (hx : x .destroy = a) (hc : Object.Quiet c)
    (ha : a ≠ .stopped ∧ a ≠ .left) (hparts : (s.after .destroy c r).Parts (x .heartbeat) y) :
    Parting (s.after .destroy c r) (Function.update x .destroy y) := by
  refine h.stop (after_same hc r) hparts fun hclosed => ?_
  have hold := h.closed hclosed
  rw [hx] at hold
  exact (hold.elim ha.1 ha.2).elim

theorem still (h : Parting s x) (hc : Object.Quiet c) : Parting (s.after i c r) x := by
  have hsame : Same s (s.after i c r) := after_same hc r
  refine ⟨fun fd hlinked => ?_, h.beats.same hsame, h.parts.same hsame fun _ => id, fun hclosed => ?_⟩
  · rw [hsame.socket_]
    exact h.linked fd (hsame.linked fd hlinked)
  · exact h.closed (hsame.closed_ ▸ hclosed)

theorem unlinked_close (h : Parting s x) {fd : Fd} {r : Except Errno Unit}
    (hfd : s.socket_ = fd ∨ s.socket_ < 0) {fd' : Fd}
    (hlinked : (s.after i (.sys (.close fd)) r).Linked fd') : (x .heartbeat).Joins fd' := by
  obtain ⟨hne, hlinked⟩ := linked_close hlinked
  obtain ⟨hnonneg, hsocket⟩ := h.linked fd' hlinked
  refine hsocket.resolve_left fun heq => ?_
  rcases hfd with hfd | hneg
  · exact hne (heq.symm.trans hfd)
  · exact absurd (heq ▸ hneg) (not_lt.mpr hnonneg)

theorem shut (h : Parting s x) {fd : Fd} {r : Except Errno Unit} (hfd : s.socket_ = fd ∨ s.socket_ < 0)
    (hjoins : ∀ fd, ¬ (x .heartbeat).Joins fd)
    (hy : (∀ fd', ¬ (s.after .heartbeat (.sys (.close fd)) r).Linked fd') →
      (s.after .heartbeat (.sys (.close fd)) r).Beats y) :
    Parting (s.after .heartbeat (.sys (.close fd)) r) (Function.update x .heartbeat y) :=
  h.heartbeat (after_same (c := .sys (.close fd)) trivial r)
    (hy fun fd' hlinked => hjoins fd' (h.unlinked_close hfd hlinked)) fun fd' h => absurd h (hjoins fd')

theorem close (h : Parting s x) (hx : x .destroy = .gone) :
    Parting { s with closed_ := true } (Function.update x .destroy .stopped) := by
  have hparts := h.parts
  rw [hx] at hparts
  refine ⟨h.linked, ?_, ?_, fun _ => .inl (Function.update_self ..)⟩
  · rw [Function.update_of_ne (show Thread.heartbeat ≠ .destroy by nofun)]
    have hbeats := h.beats
    generalize x .heartbeat = a at hbeats
    cases a with
    | finished => rfl
    | inside found => cases found <;> exact hbeats
    | _ => exact hbeats
  · rw [Function.update_self]
    exact ⟨hparts.1, hparts.2, rfl⟩

private theorem step (h : Parting s x) (hheld : Held s.monitor_ x) (hmove : Moving host self i (x i) c r y)
    (hpossible : s.Possible c r) (hstores : StoresBefore s i ⟨c, r⟩) :
    Parting (s.after i c r) (Function.update x i y) := by
  generalize hx : x i = a at hmove
  have hself : Function.update x i a = x := by rw [← hx, Function.update_eq_self]
  have hbeats (hi : i = .heartbeat) : s.Beats a := hx ▸ hi ▸ h.beats
  have hparts (hi : i = .destroy) : s.Parts (x .heartbeat) a := by
    have hdestroy := h.parts
    rwa [← hi, hx] at hdestroy
  cases hmove with
  | memory hc =>
    rw [hself]
    cases c with
    | malloc n | scratch n => exact h
    | abort why => exact hpossible.elim
    | _ => exact hc.elim
  | lock =>
    cases i with
    | callback n => exact h.ask (c := .sys .lock) trivial
    | heartbeat => exact h.beat hx trivial (fun _ => id) trivial
    | destroy => exact h.part hx trivial ⟨by simp, by simp⟩ trivial
  | @fetch _ _ fd hfound =>
    obtain rfl : fd = s.socket_ := hpossible
    cases i with
    | callback n => exact h.ask (c := .sys .getSocket) trivial
    | heartbeat => exact h.beat hx trivial (fun _ => id) rfl
    | destroy =>
      obtain ⟨fd, rfl⟩ := Option.ne_none_iff_exists'.mp (hfound rfl)
      exact h.part hx trivial ⟨by simp, by simp⟩ ⟨by simp [Object.after, (hparts rfl).1], .inl rfl⟩
  | send | recv | answered | goesOn | online | lookup | noSocket | sendBroken | sendNowhere
    | recvNowhere | closeNowhere =>
    rw [hself]
    exact h.still trivial
  | unlock hi =>
    cases i with
    | callback n => exact h.ask (c := .sys .unlock) trivial
    | heartbeat => exact h.beat hx trivial (fun _ => id) trivial
    | destroy => exact absurd rfl hi
  | test =>
    rw [hself]
    exact h.still trivial
  | lost => exact h.beat hx trivial (fun _ => id) (hbeats rfl)
  | refetch => exact h.beat hx trivial (fun _ => id) (Eq.symm hpossible)
  | drop => exact h.shut (.inl (hbeats rfl)) (by rw [hx]; exact fun _ => id) id
  | dropped => exact h.reset (hbeats rfl) (by decide) trivial
  | connected hfd => exact h.part hx trivial ⟨by simp, by simp⟩ ⟨by simp [Object.after], .inl (Eq.symm hpossible)⟩
  | @unconnected fd hfd =>
    obtain rfl : fd = s.socket_ := hpossible
    exact h.part hx trivial ⟨by simp, by simp⟩ ⟨by simp [Object.after], hfd⟩
  | close =>
    exact h.part hx trivial ⟨by simp, by simp⟩ ⟨(hparts rfl).1, fun fd' hlinked => h.unlinked_close
      (hparts rfl).2 hlinked⟩
  | clear => exact h.clear hheld hx
  | setClosed => exact h.close hx
  | leave => exact h.stop (after_same (c := .sys .unlock) trivial ()) (hparts rfl) fun _ => .inr rfl
  | ends hidle =>
    refine h.beat hx trivial ?_ (Eq.symm hpossible)
    rcases hidle with rfl | rfl <;> exact fun _ => id
  | @offline _ fd hidle hfd =>
    obtain rfl : fd = s.socket_ := hpossible
    refine h.beat hx trivial ?_ hfd
    rcases hidle with rfl | rfl <;> exact fun _ => id
  | @strays fd hfd =>
    obtain rfl : fd = s.socket_ := hpossible
    exact absurd (hbeats rfl) (not_lt.mpr hfd)
  | astray => exact (hbeats rfl).elim
  | @socket fd => exact h.beat hx trivial (fun _ => id) (hbeats rfl)
  | join => exact h.join hx
  | notJoined => exact h.heartbeat (.refl s) (hbeats rfl) (hx ▸ fun _ => id)
  | @store fd r => exact h.store hx ((hstores rfl).resolve_left (not_lt.mpr (Int.natCast_nonneg fd)))
  | storeError hfd => exact h.reset (h.off_unlinked (hbeats rfl) (by rw [hx]; exact fun _ => id)) hfd hfd
  | @look _ fd fd' hfd | @lookRefused fd fd' hfd =>
    obtain rfl : fd' = s.socket_ := hpossible
    exact h.beat hx trivial (fun _ => id) (.inl rfl)
  | @lookStopped _ fd fd' hfd | @lookGone fd fd' hfd =>
    obtain rfl : fd' = s.socket_ := hpossible
    exact h.beat hx trivial (fun _ => id) hfd
  | sendSize | sendText | refuse => exact h.beat hx trivial (fun _ => id) (hbeats rfl)
  | accept hr => exact h.beat hx trivial (fun _ => id) trivial
  | closeRefused => exact h.shut (hbeats rfl) (by rw [hx]; exact fun _ => id) id
  | clearRefused => exact h.reset (hbeats rfl) (by decide) (by decide : (-1 : Int) < 0)

end Parting

private theorem Object.after_monitor (s : Object) {i : Thread} {c : SockCall Kind ClientSys}
    {r : (Sock Kind ClientSys).Reply c} (hlock : c ≠ .sys .lock) (hunlock : c ≠ .sys .unlock) :
    (s.after i c r).monitor_ = s.monitor_ := by
  cases c with
  | recv m fd n =>
    cases m with
    | command =>
      simp only [after, heard]
      split
      · rfl
      · split <;> rfl
    | _ => rfl
  | send m fd bs => cases r <;> rfl
  | malloc n | scratch n | abort why => rfl
  | sys c =>
    cases c with
    | lock => exact absurd rfl hlock
    | unlock => exact absurd rfl hunlock
    | socket | connect fd => cases r <;> rfl
    | _ => rfl

private theorem Held.step {host : Endian} {self : ServerConnection} {s : Object} {x : Thread → Phase}
    {i : Thread} {y : Phase} {c : SockCall Kind ClientSys} {r : (Sock Kind ClientSys).Reply c}
    (h : Held s.monitor_ x) (hmove : Moving host self i (x i) c r y) (hpossible : s.Possible c r)
    (hstray : x .heartbeat ≠ .astray) : Held (s.after i c r).monitor_ (Function.update x i y) := by
  by_cases hlock : c = .sys .lock
  · subst hlock
    have hfree : s.monitor_ = none := hpossible
    refine Held.acquire (hfree ▸ h) ?_
    generalize hx : x i = a at hmove
    cases hmove with
    | memory hc => exact hc.elim
    | lock => trivial
    | astray => exact absurd hx hstray
  · by_cases hunlock : c = .sys .unlock
    · subst hunlock
      generalize hx : x i = a at hmove
      cases hmove with
      | memory hc => exact hc.elim
      | unlock hi => exact Held.release h (hx ▸ trivial) nofun
      | leave => exact Held.release h (hx ▸ trivial) nofun
      | astray => exact absurd hx hstray
    · rw [s.after_monitor hlock hunlock]
      exact h.keep (hmove.holding hlock hunlock)

private theorem Object.Started.parting {conn : ServerConnection} {s : Object} (h : s.Started conn) :
    Parting s fun _ => .outside where
  linked fd hlinked := by
    obtain ⟨sock, hsock, -⟩ := hlinked
    have hfd := h.only fd (by simp [hsock])
    exact ⟨hfd ▸ h.nonneg, .inl hfd.symm⟩
  beats := trivial
  parts := trivial
  closed hclosed := nomatch h.running.1.symm.trans hclosed

/-- In every interleaving in which `connect` stores no socket once `stop` has begun, the object
is closed and not connected when `stop` has returned, and no socket with a peer is open when
`heartbeatThread` has ended. -/
theorem stays_stopped {host : Endian} {conn : ServerConnection} {s : Object} (hs : s.Started conn)
    {t : Threads.State (Sock Kind ClientSys) Thread Object}
    (hrun : (conn.threads host).Run StoresBefore (.idle s) t) :
    (t.running .destroy = .ret false → t.shared.closed_ = true ∧ t.shared.socket_ < 0) ∧
      (t.running .heartbeat = .ret false → ∀ fd, ¬ t.shared.Linked fd) := by
  obtain ⟨x, hx⟩ := ServerConnection.run_phased (fun s x => Held s.monitor_ x ∧ Parting s x)
    ⟨hs.guarded.held, hs.parting⟩
    (fun h hmove hpossible hmeets => by
      refine ⟨h.1.step hmove hpossible fun hstray => ?_, h.2.step h.1 hmove hpossible hmeets⟩
      have hbeats := h.2.beats
      rwa [hstray] at hbeats) hrun
  obtain ⟨-, hparting⟩ := hx.inv
  have hparts := hparting.parts
  have hbeats := hparting.beats
  refine ⟨fun hdone => ?_, fun hdone fd hlinked => ?_⟩
  · have hleft := hx.follows .destroy
    rw [hdone] at hleft
    rw [show x .destroy = .left from hleft] at hparts
    exact ⟨hparts.2.2, hparts.2.1⟩
  · have hover := hx.follows .heartbeat
    rw [hdone] at hover
    rcases (hover : x .heartbeat = .finished ∨ x .heartbeat = .astray) with hover | hover
    · rw [hover] at hbeats
      have hoff : t.shared.socket_ < 0 := by
        rcases hparting.closed hbeats with hdestroy | hdestroy
        · exact (hdestroy ▸ hparts : t.shared.Parts _ .stopped).2.1
        · exact (hdestroy ▸ hparts : t.shared.Parts _ .left).2.1
      exact hparting.off_unlinked hoff (fun fd => by rw [hover]; exact id) fd hlinked
    · rw [hover] at hbeats
      exact hbeats

def stopped : List (Event (Sock Kind ClientSys)) :=
  [⟨.sys .lock, ()⟩, ⟨.sys .getSocket, (3 : Int)⟩, ⟨.sys .getSocket, (3 : Int)⟩,
    ⟨.send .command 3 [0, 0], .wrote 2 (by decide)⟩, ⟨.sys .getSocket, (3 : Int)⟩,
    ⟨.sys (.close 3), .ok ()⟩, ⟨.sys (.setSocket (-1)), ()⟩, ⟨.sys .setClosed, ()⟩, ⟨.sys .unlock, ()⟩]

def lastRound : List (Event (Sock Kind ClientSys)) := [⟨.sys .getClosed, true⟩]

theorem stays_stopped_lastRound :
    ((loadedA.play .destroy stopped).play .heartbeat lastRound).closed_ = true ∧
      ∀ fd, ¬ ((loadedA.play .destroy stopped).play .heartbeat lastRound).Linked fd := by
  have hstop : Runs (ServerConnection.stop >>= fun _ => return false) stopped (.ret false) := by
    repeat apply Runs.step
    exact .refl _
  have hlast : Runs (heartbeatThread .little serverA) lastRound (.ret false) := by
    repeat apply Runs.step
    exact .refl _
  have hstarts : serverA.Starts .little .destroy (ServerConnection.stop >>= fun _ => return false) := rfl
  have hrun := ServerConnection.run_plays (s := .idle loadedA) (C := StoresBefore) rfl hstarts hstop
    ⟨⟨rfl, trivial⟩, ⟨rfl, trivial⟩, ⟨rfl, trivial⟩, ⟨nofun, trivial⟩, ⟨rfl, trivial⟩, ⟨nofun, trivial⟩,
      ⟨trivial, nofun⟩, ⟨trivial, trivial⟩, ⟨trivial, trivial⟩, trivial⟩
  have hrun' := hrun.trans (ServerConnection.run_plays (i := .heartbeat) rfl rfl hlast ⟨⟨rfl, trivial⟩, trivial⟩)
  have hstopped := stays_stopped loadedA_started hrun'
  exact ⟨(hstopped.1 rfl).1, hstopped.2 rfl⟩

def stoppedDown : List (Event (Sock Kind ClientSys)) :=
  [⟨.sys .lock, ()⟩, ⟨.sys .getSocket, (-1 : Int)⟩, ⟨.sys .setClosed, ()⟩, ⟨.sys .unlock, ()⟩]

/-- `connect` goes on when `stop` has returned. -/
theorem not_stays_stopped : loadedA.Started serverA ∧
    ∃ t, (serverA.threads .big).Run (fun _ _ _ => True) (.idle loadedA) t ∧
      t.running .destroy = .ret false ∧ ¬ t.shared.socket_ < 0 := by
  have hnew : ∃ p q, Runs (heartbeatThread .big serverA) (newSocket.take 2) p ∧ Runs p (newSocket.drop 2) q := by
    apply Exists.intro
    apply Exists.intro
    constructor
    · repeat apply Runs.step
      exact .refl _
    · repeat apply Runs.step
      exact .refl _
  have hstop : Runs (ServerConnection.stop >>= fun _ => return false) stoppedDown (.ret false) := by
    repeat apply Runs.step
    exact .refl _
  obtain ⟨p, q, hnew, hrest⟩ := hnew
  have hrun₁ := ServerConnection.run_plays (s := .idle loadedA) (C := fun _ _ _ => True) (i := .heartbeat)
    rfl rfl runs_lostRound ⟨⟨rfl, trivial⟩, ⟨rfl, trivial⟩, ⟨rfl, trivial⟩, ⟨rfl, trivial⟩, ⟨nofun, trivial⟩,
      ⟨rfl, trivial⟩, ⟨nofun, trivial⟩, ⟨rfl, trivial⟩, ⟨nofun, trivial⟩, ⟨trivial, trivial⟩, ⟨trivial, trivial⟩,
      trivial⟩
  have hrun₂ := hrun₁.trans (ServerConnection.run_plays (i := .heartbeat) rfl rfl hnew
    ⟨⟨rfl, trivial⟩, ⟨rfl, trivial⟩, trivial⟩)
  have hrun₃ := hrun₂.trans (ServerConnection.run_plays (i := .destroy) rfl rfl hstop
    ⟨⟨rfl, trivial⟩, ⟨rfl, trivial⟩, ⟨trivial, trivial⟩, ⟨trivial, trivial⟩, trivial⟩)
  have hrun₄ := hrun₃.trans (ServerConnection.run_resumes (i := .heartbeat) (p := p) rfl hrest
    ⟨⟨trivial, trivial⟩, ⟨rfl, trivial⟩, ⟨nofun, trivial⟩, ⟨trivial, trivial⟩, trivial⟩)
  exact ⟨loadedA_started, _, hrun₄, rfl, (by decide : ¬ (3 : Int) < 0)⟩

end AgFS
