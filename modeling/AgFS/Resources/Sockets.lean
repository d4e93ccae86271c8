import AgFS.Concurrency.Phases

/-! The sockets that are open before and after what a connection object does alone. -/
namespace AgFS
open Interaction ByteOrder Sock Threads

namespace Object

def Opened (s : Object) (fd : Fd) : Prop := s.sockets fd ≠ none

/-- Neither the sockets nor the one in the object have changed. -/
structure Alike (s t : Object) : Prop where
  socket_ : t.socket_ = s.socket_
  opened (fd : Fd) : t.Opened fd ↔ s.Opened fd

/-- The object has closed its socket, and has none any more. -/
structure Releases (s t : Object) : Prop where
  socket_ : t.socket_ < 0
  opened (fd : Fd) : t.Opened fd ↔ s.Opened fd ∧ fd ≠ s.socket_

private theorem Alike.refl (s : Object) : Alike s s := ⟨rfl, fun _ => Iff.rfl⟩

private theorem Alike.trans {s t u : Object} (h : Alike s t) (h' : Alike t u) : Alike s u :=
  ⟨h'.socket_.trans h.socket_, fun fd => (h'.opened fd).trans (h.opened fd)⟩

theorem alike_put {s : Object} {fd : Fd} {f : Socket → Socket} :
    Alike s (s.put fd ((s.sockets fd).map f)) := by
  refine ⟨rfl, fun fd' => ?_⟩
  by_cases hfd : fd' = fd
  · subst hfd
    simp [Opened, put]
  · simp [Opened, put, hfd]

/-- Calls that neither open nor close a socket, and leave `socket_` alone. -/
def Plain : SockCall Kind ClientSys → Prop
  | .sys (.setSocket _) | .sys (.close _) | .sys .socket => False
  | _ => True

private theorem after_alike {s : Object} {i : Thread} {c : SockCall Kind ClientSys} (hc : Plain c)
    (r : (Sock Kind ClientSys).Reply c) : Alike s (s.after i c r) := by
  cases c with
  | recv m fd n =>
    cases m with
    | command =>
      simp only [after, heard]
      split
      · exact ⟨rfl, fun _ => Iff.rfl⟩
      · split
        · exact ⟨rfl, (alike_put (s := s)).opened⟩
        · exact .refl s
    | _ => exact .refl s
  | send m fd bs =>
    cases r with
    | fail err => exact .refl s
    | wrote count hcount => exact alike_put
  | malloc n | scratch n | abort why => exact .refl s
  | sys c =>
    cases c with
    | setSocket fd | close fd | socket => exact hc.elim
    | connect fd =>
      cases r with
      | error err => exact .refl s
      | ok r => exact alike_put
    | _ => exact ⟨rfl, fun _ => Iff.rfl⟩

private theorem opened_close {s : Object} {i : Thread} {fd : Fd} {r : Except Errno Unit} (fd' : Fd) :
    (s.after i (.sys (.close fd)) r).Opened fd' ↔ s.Opened fd' ∧ fd' ≠ fd := by
  by_cases hfd : fd' = fd
  · subst hfd
    simp [Opened, after, put]
  · simp [Opened, after, put, hfd]

private theorem opened_socket {s : Object} {i : Thread} {fd : Nat} (fd' : Fd) :
    (s.after i (.sys .socket) (.ok fd)).Opened fd' ↔ s.Opened fd' ∨ fd' = fd := by
  change (s.put fd (some ⟨false, []⟩)).Opened fd' ↔ _
  by_cases hfd : fd' = fd
  · subst hfd
    simp [Opened, put]
  · simp [Opened, put, hfd]

theorem releases {s t : Object} (h : Alike s t) {i : Thread} {fd : Fd} (hfd : fd = s.socket_)
    (r : Except Errno Unit) :
    Releases s ((t.after i (.sys (.close fd)) r).after i (.sys (.setSocket (-1))) ()) :=
  ⟨(by decide : (-1 : Int) < 0), fun fd' => by
    rw [← h.opened fd', ← hfd]
    exact opened_close (i := i) (r := r) fd'⟩

end Object

def Accepts : Event (Sock Kind ClientSys) → Prop
  | ⟨.recv .command _ _, r⟩ => ReadReply.bytes r = htobe16 cmd.ACCEPT
  | _ => False

/-- A socket gets no peer. -/
def Drops : Event (Sock Kind ClientSys) → Prop
  | ⟨.sys (.connect _), .error _⟩ => True
  | _ => False

def Heard (events : List (Event (Sock Kind ClientSys))) : Prop := ∃ ev ∈ events, Accepts ev

def Dropped (events : List (Event (Sock Kind ClientSys))) : Prop := ∃ ev ∈ events, Drops ev

section Lists
variable {ev : Event (Sock Kind ClientSys)} {t u : List (Event (Sock Kind ClientSys))}

@[simp] theorem not_heard_nil : ¬ Heard [] := nofun

@[simp] theorem not_dropped_nil : ¬ Dropped [] := nofun

@[simp] theorem heard_cons : Heard (ev :: t) ↔ Accepts ev ∨ Heard t := by
  simp [Heard]

@[simp] theorem dropped_cons : Dropped (ev :: t) ↔ Drops ev ∨ Dropped t := by
  simp [Dropped]

@[simp] theorem heard_append : Heard (t ++ u) ↔ Heard t ∨ Heard u := by
  induction t with
  | nil => simp
  | cons ev t ih => rw [List.cons_append, heard_cons, heard_cons, ih, or_assoc]

@[simp] theorem dropped_append : Dropped (t ++ u) ↔ Dropped t ∨ Dropped u := by
  induction t with
  | nil => simp
  | cons ev t ih => rw [List.cons_append, dropped_cons, dropped_cons, ih, or_assoc]

end Lists

/-- How an attempt to get a connection ends: with no socket, with one that nobody knows, or
with the socket `fd`. -/
inductive Attempt (s t : Object) (events : List (Event (Sock Kind ClientSys))) (fd : Fd) : Prop
  | failed (neg : fd < 0) (opened : ∀ fd', t.Opened fd' ↔ s.Opened fd') (kept : ¬ Dropped events)
  | lost (new : Nat) (neg : fd < 0) (fresh : ¬ s.Opened new)
      (opened : ∀ fd', t.Opened fd' ↔ s.Opened fd' ∨ fd' = new) (dropped : Dropped events)
  | made (nonneg : 0 ≤ fd) (fresh : ¬ s.Opened fd)
      (opened : ∀ fd', t.Opened fd' ↔ s.Opened fd' ∨ fd' = fd) (kept : ¬ Dropped events)

private theorem Object.Releases.congr {s s' t t' : Object} (h : Releases s t) (hs : Alike s' s) (ht : Alike t t') :
    Releases s' t' := by
  refine ⟨ht.socket_ ▸ h.socket_, fun fd => ?_⟩
  rw [ht.opened fd, h.opened fd, hs.opened fd, hs.socket_]

private theorem Attempt.congr {s t m : Object} {events events' : List (Event (Sock Kind ClientSys))} {fd : Fd}
    (h : Attempt s m events fd) (hopened : ∀ fd', t.Opened fd' ↔ m.Opened fd')
    (hdropped : Dropped events' ↔ Dropped events) : Attempt s t events' fd := by
  cases h with
  | failed neg opened kept =>
    exact .failed neg (fun fd' => (hopened fd').trans (opened fd')) fun hd => kept (hdropped.mp hd)
  | lost new neg fresh opened dropped =>
    exact .lost new neg fresh (fun fd' => (hopened fd').trans (opened fd')) (hdropped.mpr dropped)
  | made nonneg fresh opened kept =>
    exact .made nonneg fresh (fun fd' => (hopened fd').trans (opened fd')) fun hd => kept (hdropped.mp hd)

private theorem Attempt.of_alike {s t m : Object} {events : List (Event (Sock Kind ClientSys))} {fd : Fd}
    (h : Attempt m t events fd) (hs : Object.Alike s m) : Attempt s t events fd := by
  cases h with
  | failed neg opened kept => exact .failed neg (fun fd' => (opened fd').trans (hs.opened fd')) kept
  | lost new neg fresh opened dropped =>
    exact .lost new neg (fun hold => fresh ((hs.opened _).mpr hold))
      (fun fd' => (opened fd').trans (or_congr_left (hs.opened fd'))) dropped
  | made nonneg fresh opened kept =>
    exact .made nonneg (fun hold => fresh ((hs.opened _).mpr hold))
      (fun fd' => (opened fd').trans (or_congr_left (hs.opened fd'))) kept

section Alone
variable {host : Endian} {conn : ServerConnection} {i : Thread} {s t : Object}
  {events : List (Event (Sock Kind ClientSys))}

theorem alone_call {α : Type} {c : SockCall Kind ClientSys}
    {f : (Sock Kind ClientSys).Reply c → ClientIo α} {a : α}
    (h : Alone (Object.Does i) s (Prog.call (S := Sock Kind ClientSys) c .ret >>= f) events a t) :
    ∃ r u, events = ⟨c, r⟩ :: u ∧ s.Possible c r ∧ Alone (Object.Does i) (s.after i c r) (f r) u a t := by
  obtain ⟨r, u, m, rfl, ⟨hpossible, rfl⟩, hrest⟩ := h.call
  exact ⟨r, u, rfl, hpossible, hrest⟩

theorem alone_socket {α : Type} {f : Fd → ClientIo α} {a : α}
    (h : Alone (Object.Does i) s (ServerConnection.socket_ >>= f) events a t) :
    ∃ u m, events = ⟨.sys .getSocket, s.socket_⟩ :: u ∧ Object.Alike s m ∧
      Alone (Object.Does i) m (f s.socket_) u a t := by
  obtain ⟨fd, u, rfl, hfd, hrest⟩ := alone_call h
  obtain rfl : fd = s.socket_ := hfd
  exact ⟨u, _, rfl, Object.after_alike (c := .sys .getSocket) trivial s.socket_, hrest⟩

def Sends : SockCall Kind ClientSys → Prop
  | .send _ _ _ => True
  | _ => False

private theorem sends_writeString (fd : Fd) (str : Str) : (agfsWriteString fd str : ClientIo Int32).Only Sends :=
  ⟨trivial, fun _ => .ite trivial ⟨trivial, fun _ => .ite trivial trivial⟩⟩

private theorem alone_sends {α : Type} {p : ClientIo α} {a : α} (h : Alone (Object.Does i) s p events a t)
    (hp : p.Only Sends) : Object.Alike s t ∧ ¬ Heard events ∧ ¬ Dropped events := by
  have hsends := hp.runs h.runs
  refine ⟨h.only hp .refl .trans fun {s c r t} hc hdoes => ?_, ?_, ?_⟩
  · obtain ⟨-, rfl⟩ := hdoes
    refine Object.after_alike ?_ _
    cases c with
    | send m fd bs => trivial
    | _ => exact hc.elim
  · rintro ⟨⟨c, r⟩, hmem, haccepts⟩
    have hc := hsends _ hmem
    cases c with
    | send m fd bs => exact haccepts
    | _ => exact hc.elim
  · rintro ⟨⟨c, r⟩, hmem, hdrops⟩
    have hc := hsends _ hmem
    cases c with
    | send m fd bs => exact hdrops
    | _ => exact hc.elim

private theorem alone_dnsLookup {port : Str} {fd : Fd}
    (h : Alone (Object.Does i) s (conn.dnsLookup port) events fd t) :
    Attempt s t events fd ∧ ¬ Heard events ∧
      (fd < 0 → fd = ServerConnection.DNS_ERROR ∨ fd = ServerConnection.SOCKET_FAILURE ∨
        fd = ServerConnection.CONNECTION_FAILURE) := by
  obtain ⟨found, _, rfl, -, h₁⟩ := alone_call h
  cases found with
  | false =>
    obtain ⟨rfl, rfl, rfl⟩ := h₁.ret
    exact ⟨.failed (by decide) (fun _ => Iff.rfl) (by simp [Drops]), by simp [Accepts], fun _ => .inl rfl⟩
  | true =>
    obtain ⟨r, _, rfl, hfresh, h₂⟩ := alone_call h₁
    cases r with
    | error err =>
      obtain ⟨rfl, rfl, rfl⟩ := h₂.ret
      exact ⟨.failed (by decide) (fun _ => Iff.rfl) (by simp [Drops]), by simp [Accepts], fun _ => .inr (.inl rfl)⟩
    | ok new =>
      have hclosed : ¬ s.Opened new := fun hopen => hopen hfresh
      obtain ⟨r, _, rfl, -, h₃⟩ := alone_call h₂
      cases r with
      | error err =>
        obtain ⟨rfl, rfl, rfl⟩ := h₃.ret
        exact ⟨.lost new (by decide) hclosed (Object.opened_socket (i := i)) (by simp [Drops]), by simp [Accepts],
          fun _ => .inr (.inr rfl)⟩
      | ok r =>
        obtain ⟨rfl, rfl, rfl⟩ := h₃.ret
        refine ⟨.made (Int.natCast_nonneg new) hclosed (fun fd' => ?_) (by simp [Drops]), by simp [Accepts],
          fun hneg => absurd hneg (not_lt.mpr (Int.natCast_nonneg new))⟩
        exact ((Object.after_alike (c := .sys (.connect new)) trivial (.ok r)).opened fd').trans
          (Object.opened_socket (i := i) fd')

/-- A handshake ends with `ACCEPT`, or else the socket is closed. -/
theorem alone_handshake (h : Alone (Object.Does i) s (conn.handshake host) events () t) :
    ¬ Dropped events ∧
      (Heard events ∧ Object.Alike s t ∨ ¬ Heard events ∧ Object.Releases s t) := by
  obtain ⟨_, m₁, rfl, hm₁, h₁⟩ := alone_socket h
  obtain ⟨u, _, _, m₂, rfl, hkey, h₂⟩ := h₁.bind
  obtain ⟨hm₂, hheard, hdropped⟩ := alone_sends hkey (sends_writeString _ conn.key_)
  obtain ⟨_, m₃, rfl, hm₃, h₃⟩ := alone_socket h₂
  obtain ⟨r, _, rfl, -, h₄⟩ := alone_call h₃
  have halike := (hm₁.trans hm₂).trans (hm₃.trans (Object.after_alike (i := i) (c := .recv .command _ 2) trivial r))
  change Alone _ _ (if taken host r = cmd.ACCEPT then _ else _ : ClientIo Unit) _ _ _ at h₄
  by_cases haccept : ReadReply.bytes r = htobe16 cmd.ACCEPT
  · rw [if_pos ((taken_accept r).mpr haccept)] at h₄
    obtain ⟨rfl, -, rfl⟩ := h₄.ret
    exact ⟨by simp [Drops, hdropped], .inl ⟨by simp [Accepts, haccept], halike⟩⟩
  · rw [if_neg fun htaken => haccept ((taken_accept r).mp htaken)] at h₄
    obtain ⟨_, m₄, rfl, hm₄, h₅⟩ := alone_socket h₄
    obtain ⟨_, _, rfl, -, h₆⟩ := alone_call h₅
    obtain ⟨_, _, rfl, -, h₇⟩ := alone_call h₆
    obtain ⟨rfl, -, rfl⟩ := h₇.ret
    refine ⟨by simp [Drops, hdropped], .inr ⟨by simp [Accepts, hheard, haccept], ?_⟩⟩
    exact Object.releases (halike.trans hm₄) halike.socket_ _

/-- `connect` ends with a socket exactly if it has read `ACCEPT`. -/
theorem alone_connect (h : Alone (Object.Does i) s (conn.connect host) events () t) :
    Attempt s t events t.socket_ ∧ (Heard events ↔ 0 ≤ t.socket_) := by
  obtain ⟨u, v, fd, m, rfl, hlookup, h₁⟩ := h.bind
  obtain ⟨hattempt, hheard, hneg⟩ := alone_dnsLookup hlookup
  obtain ⟨_, _, rfl, -, h₂⟩ := alone_call h₁
  obtain ⟨w, m', rfl, hm', h₃⟩ := alone_socket h₂
  change Alone _ _ (if fd = _ ∨ fd = _ ∨ fd = _ then _ else _ : ClientIo Unit) _ _ _ at h₃
  have hsocket : m'.socket_ = fd := hm'.socket_
  have hopened (fd' : Fd) : m'.Opened fd' ↔ m.Opened fd' := hm'.opened fd'
  by_cases herror : fd < 0
  · rw [if_pos (hneg herror)] at h₃
    obtain ⟨rfl, -, rfl⟩ := h₃.ret
    rw [hsocket]
    exact ⟨hattempt.congr hopened (by simp [Drops]), by simpa [Accepts, hheard] using herror⟩
  · have hnonneg := not_lt.mp herror
    have hproper : ¬ (fd = ServerConnection.DNS_ERROR ∨ fd = ServerConnection.SOCKET_FAILURE ∨
        fd = ServerConnection.CONNECTION_FAILURE) := by
      rintro (rfl | rfl | rfl) <;> exact absurd hnonneg (by decide)
    rw [if_neg hproper] at h₃
    obtain ⟨hkept, hend⟩ := alone_handshake h₃
    have hdropped : Dropped (u ++ ⟨.sys (.setSocket fd), ()⟩ :: ⟨.sys .getSocket, fd⟩ :: w) ↔ Dropped u := by
      simp [Drops, hkept]
    have hheard' : Heard (u ++ ⟨.sys (.setSocket fd), ()⟩ :: ⟨.sys .getSocket, fd⟩ :: w) ↔ Heard w := by
      simp [Accepts, hheard]
    rcases hend with ⟨haccepted, halike⟩ | ⟨hrefused, hreleased⟩
    · have hfd : t.socket_ = fd := halike.socket_.trans hsocket
      rw [hfd]
      refine ⟨hattempt.congr (fun fd' => (halike.opened fd').trans (hopened fd')) hdropped, ?_⟩
      exact iff_of_true (hheard'.mpr haccepted) hnonneg
    · refine ⟨?_, iff_of_false (fun hh => hrefused (hheard'.mp hh)) (not_le.mpr hreleased.socket_)⟩
      cases hattempt with
      | failed neg opened kept => exact absurd neg herror
      | lost new neg fresh opened dropped => exact absurd neg herror
      | made nonneg fresh opened kept =>
        refine .failed hreleased.socket_ (fun fd' => ?_) fun hd => kept (hdropped.mp hd)
        rw [hreleased.opened fd', hsocket, hopened fd', opened fd']
        constructor
        · rintro ⟨hold | hnew, hne⟩
          · exact hold
          · exact absurd hnew hne
        · intro hold
          exact ⟨.inl hold, fun heq => fresh (heq ▸ hold)⟩

private theorem alone_connected {b : Bool} (h : Alone (Object.Does i) s ServerConnection.connected events b t) :
    Object.Alike s t ∧ b = !decide (s.socket_ < 0) ∧ ¬ Dropped events := by
  obtain ⟨_, _, rfl, halike, h₁⟩ := alone_socket h
  obtain ⟨rfl, rfl, rfl⟩ := h₁.ret
  exact ⟨halike, rfl, by simp [Drops]⟩

theorem alone_monitored {α : Type} {body : ClientIo α} {a : α}
    (h : Alone (Object.Does i) s (ServerConnection.monitored body) events a t) :
    ∃ m m' u, Object.Alike s m ∧ Alone (Object.Does i) m body u a m' ∧ Object.Alike m' t ∧
      (Dropped events ↔ Dropped u) := by
  obtain ⟨_, _, rfl, -, h₁⟩ := alone_call h
  obtain ⟨u, v, a, m, rfl, hbody, h₂⟩ := h₁.bind
  obtain ⟨_, _, rfl, -, h₃⟩ := alone_call h₂
  obtain ⟨rfl, rfl, rfl⟩ := h₃.ret
  refine ⟨_, m, u, Object.after_alike (c := .sys .lock) trivial (), hbody,
    Object.after_alike (c := .sys .unlock) trivial (), by simp [Drops]⟩

/-- A heartbeat leaves the sockets as they are, or closes the one of the object. -/
theorem alone_heartbeat {err : AgerrT}
    (h : Alone (Object.Does i) s (ServerConnection.heartbeat host) events err t) :
    ¬ Dropped events ∧ (Object.Alike s t ∨ Object.Releases s t) := by
  obtain ⟨m, m', u, hm, hbody, hm', hdropped⟩ := alone_monitored h
  obtain ⟨_, m₁, rfl, hm₁, h₁⟩ := alone_socket hbody
  obtain ⟨r, _, rfl, -, h₂⟩ := alone_call h₁
  obtain ⟨_, m₂, rfl, hm₂, h₃⟩ := alone_socket h₂
  obtain ⟨r', _, rfl, -, h₄⟩ := alone_call h₃
  have hsent := hm₁.trans (Object.after_alike (i := i) (c := .send .command _ _) trivial r)
  have halike := hsent.trans (hm₂.trans (Object.after_alike (i := i) (c := .recv .command _ 2) trivial r'))
  change Alone _ _ (if taken host r' = cmd.NONE then _ else _ : ClientIo AgerrT) _ _ _ at h₄
  by_cases hnone : taken host r' = cmd.NONE
  · rw [if_pos hnone] at h₄
    obtain ⟨_, m₃, rfl, hm₃, h₅⟩ := alone_socket h₄
    obtain ⟨_, _, rfl, -, h₆⟩ := alone_call h₅
    obtain ⟨_, _, rfl, -, h₇⟩ := alone_call h₆
    obtain ⟨rfl, -, rfl⟩ := h₇.ret
    refine ⟨hdropped.not.mpr (by simp [Drops]), .inr ?_⟩
    exact (Object.releases (halike.trans hm₃) halike.socket_ _).congr hm hm'
  · rw [if_neg hnone] at h₄
    obtain ⟨rfl, -, rfl⟩ := h₄.ret
    exact ⟨hdropped.not.mpr (by simp [Drops]), .inl ((hm.trans halike).trans hm')⟩

theorem alone_stop {err : AgerrT} (h : Alone (Object.Does i) s ServerConnection.stop events err t) :
    ¬ Dropped events ∧ (s.socket_ < 0 ∧ Object.Alike s t ∨ Object.Releases s t) := by
  obtain ⟨m, m', u, hm, hbody, hm', hdropped⟩ := alone_monitored h
  obtain ⟨v, w, b, m₁, rfl, hconnected, h₁⟩ := hbody.bind
  obtain ⟨hm₁, hb, hv⟩ := alone_connected hconnected
  have hsocket := (hm.trans hm₁).socket_
  by_cases hneg : s.socket_ < 0
  · have hfalse : b = false := by rw [hb, hm.socket_]; simp [hneg]
    subst hfalse
    obtain ⟨_, _, rfl, -, h₂⟩ := alone_call h₁
    obtain ⟨rfl, -, rfl⟩ := h₂.ret
    have hclosed := Object.after_alike (s := m₁) (i := i) (c := .sys .setClosed) trivial ()
    exact ⟨hdropped.not.mpr (by simp [hv, Drops]), .inl ⟨hneg, ((hm.trans hm₁).trans hclosed).trans hm'⟩⟩
  · have htrue : b = true := by rw [hb, hm.socket_]; simp [hneg]
    subst htrue
    obtain ⟨_, m₂, rfl, hm₂, h₂⟩ := alone_socket h₁
    obtain ⟨sent, _, rfl, -, h₃⟩ := alone_call h₂
    obtain ⟨_, m₃, rfl, hm₃, h₄⟩ := alone_socket h₃
    obtain ⟨r, _, rfl, -, h₅⟩ := alone_call h₄
    obtain ⟨_, _, rfl, -, h₆⟩ := alone_call h₅
    have halike := hm₂.trans (Object.after_alike (i := i) (c := .send .command _ _) trivial sent)
    have hreleases := (Object.releases (i := i) (halike.trans hm₃) halike.socket_ r).congr (hm.trans hm₁) (.refl _)
    cases r with
    | error e =>
      obtain ⟨_, _, rfl, -, h₇⟩ := alone_call h₆
      obtain ⟨rfl, -, rfl⟩ := h₇.ret
      have hfinal := (Object.after_alike (c := .sys .setClosed) trivial ()).trans hm'
      exact ⟨hdropped.not.mpr (by simp [hv, Drops]), .inr (hreleases.congr (.refl s) hfinal)⟩
    | ok r =>
      obtain ⟨_, _, rfl, -, h₇⟩ := alone_call h₆
      obtain ⟨rfl, -, rfl⟩ := h₇.ret
      have hfinal := (Object.after_alike (c := .sys .setClosed) trivial ()).trans hm'
      exact ⟨hdropped.not.mpr (by simp [hv, Drops]), .inr (hreleases.congr (.refl s) hfinal)⟩

/-- A round of `heartbeatThread` asks for a new connection only if there is none. -/
theorem alone_heartbeatThread {b : Bool}
    (h : Alone (Object.Does i) s (heartbeatThread host conn) events b t) :
    s.socket_ < 0 ∧ Attempt s t events t.socket_ ∨
      ¬ Dropped events ∧ (Object.Alike s t ∨ Object.Releases s t) := by
  obtain ⟨closed, _, rfl, -, h₁⟩ := alone_call h
  have hs : Object.Alike s (s.after i (.sys .getClosed) closed) :=
    Object.after_alike (c := .sys .getClosed) trivial closed
  cases closed with
  | true =>
    obtain ⟨rfl, -, rfl⟩ := h₁.ret
    exact .inr ⟨by simp [Drops], .inl hs⟩
  | false =>
    obtain ⟨u, v, found, m, rfl, hconnected, h₂⟩ := h₁.bind
    obtain ⟨hm, hfound, hu⟩ := alone_connected hconnected
    have halike := hs.trans hm
    cases found with
    | false =>
      obtain ⟨w, _, _, m', rfl, hconnect, h₃⟩ := h₂.bind
      obtain ⟨rfl, -, rfl⟩ := h₃.ret
      have hattempt := (alone_connect hconnect).1.of_alike halike
      refine .inl ⟨by simpa [hs.socket_] using hfound, hattempt.congr (fun _ => Iff.rfl) ?_⟩
      simp [Drops, hu]
    | true =>
      obtain ⟨w, _, _, m', rfl, hbeat, h₃⟩ := h₂.bind
      obtain ⟨rfl, -, rfl⟩ := h₃.ret
      obtain ⟨hw, hend⟩ := alone_heartbeat hbeat
      refine .inr ⟨by simp [Drops, hu, hw], ?_⟩
      exact hend.imp halike.trans fun hreleases => hreleases.congr halike (.refl _)

end Alone
end AgFS
