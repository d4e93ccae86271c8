import AgFS.Codec.Operations
import AgFS.Concurrency.Object

/-! How far each thread has come: the protocol that its calls follow. -/
namespace AgFS
open Interaction ByteOrder Sock

/-- How much of the key has gone out. -/
inductive Stage where
  | fresh
  | sized
  | broken
  | spent

/-- What has been sent of a field is all of it, none of it, or a part. -/
def Stage.afterSize {n : Nat} : WriteReply n → Stage
  | .fail _ => .spent
  | .wrote count _ => if count = n then .sized else .broken

/-- The phases of a thread. In `inside (some fd)` it holds the monitor, and has found `fd` in
`socket_`; in `missed fd` it has also taken a heartbeat for lost. `gone` is for a thread that
stops the connection and knows it is not connected. From `off` on the phases are those of
`connect`, which runs when the connection has been found not to be connected; a thread that
then finds it connected is `astray`. -/
inductive Phase where
  | outside
  | finished
  | inside (found : Option Fd)
  | missed (fd : Fd)
  | closing
  | gone
  | stopped
  | left
  | off
  | made (fd : Nat)
  | joined (fd : Nat)
  | shaking (stage : Stage) (fd : Fd)
  | refused (fd : Fd)
  | shut
  | astray

def Phase.Holding : Phase → Prop
  | .inside _ | .missed _ | .closing | .gone | .stopped => True
  | _ => False

/-- The command that `heartbeat` and `connect` take a reply for. -/
def taken (host : Endian) (r : ReadReply 2) : CmdT :=
  be16toh (overlay (host.store 2 cmd.NONE.toNat) r.bytes)

/-- Calls that have to do with memory only. -/
def Unshared : SockCall Kind ClientSys → Prop
  | .malloc _ | .scratch _ | .abort _ => True
  | _ => False

/-- The moves of the threads. -/
inductive Moving (host : Endian) (self : ServerConnection) :
    Thread → Moves (Sock Kind ClientSys) Phase
  | memory {i x c r} (h : Unshared c) : Moving host self i x c r x
  -- operations
  | lock {i r} : Moving host self i .outside (.sys .lock) r (.inside none)
  | fetch {i found fd} (h : i = .destroy → found ≠ none) :
      Moving host self i (.inside found) (.sys .getSocket) fd (.inside (some fd))
  | send {i m fd bs r} : Moving host self i (.inside (some fd)) (.send m fd bs) r (.inside (some fd))
  | unlock {i found r} (h : i ≠ .destroy) :
      Moving host self i (.inside found) (.sys .unlock) r .outside
  -- callbacks
  | test {n fd} : Moving host self (.callback n) .outside (.sys .getSocket) fd .outside
  | recv {n m fd k r} :
      Moving host self (.callback n) (.inside (some fd)) (.recv m fd k) r (.inside (some fd))
  -- `heartbeat`
  | answered {fd r} (h : taken host r ≠ cmd.NONE) :
      Moving host self .heartbeat (.inside (some fd)) (.recv .command fd 2) r (.inside (some fd))
  | lost {fd r} (h : taken host r = cmd.NONE) :
      Moving host self .heartbeat (.inside (some fd)) (.recv .command fd 2) r (.missed fd)
  | refetch {fd fd'} : Moving host self .heartbeat (.missed fd) (.sys .getSocket) fd' (.missed fd')
  | drop {fd r} : Moving host self .heartbeat (.missed fd) (.sys (.close fd)) r .closing
  | dropped {r} : Moving host self .heartbeat .closing (.sys (.setSocket (-1))) r (.inside none)
  -- `stop`
  | connected {fd} (h : 0 ≤ fd) :
      Moving host self .destroy (.inside none) (.sys .getSocket) fd (.inside (some fd))
  | unconnected {fd} (h : fd < 0) :
      Moving host self .destroy (.inside none) (.sys .getSocket) fd .gone
  | close {fd r} : Moving host self .destroy (.inside (some fd)) (.sys (.close fd)) r .closing
  | clear {r} : Moving host self .destroy .closing (.sys (.setSocket (-1))) r .gone
  | setClosed {r} : Moving host self .destroy .gone (.sys .setClosed) r .stopped
  | leave {r} : Moving host self .destroy .stopped (.sys .unlock) r .left
  -- `heartbeatThread`
  | ends {x} (h : x = .outside ∨ x = .off) : Moving host self .heartbeat x (.sys .getClosed) true .finished
  | goesOn {x} (h : x = .outside ∨ x = .off) : Moving host self .heartbeat x (.sys .getClosed) false x
  | online {fd} (h : 0 ≤ fd) : Moving host self .heartbeat .outside (.sys .getSocket) fd .outside
  | offline {x fd} (hx : x = .outside ∨ x = .off) (h : fd < 0) :
      Moving host self .heartbeat x (.sys .getSocket) fd .off
  | strays {fd} (h : 0 ≤ fd) : Moving host self .heartbeat .off (.sys .getSocket) fd .astray
  | astray {c r} : Moving host self .heartbeat .astray c r .astray
  -- `connect`
  | lookup {hostname port r} :
      Moving host self .heartbeat .off (.sys (.getaddrinfo hostname port)) r .off
  | socket {fd} : Moving host self .heartbeat .off (.sys .socket) (.ok fd) (.made fd)
  | noSocket {err} : Moving host self .heartbeat .off (.sys .socket) (.error err) .off
  | join {fd : Nat} : Moving host self .heartbeat (.made fd) (.sys (.connect fd)) (.ok ()) (.joined fd)
  | notJoined {fd : Nat} {err} :
      Moving host self .heartbeat (.made fd) (.sys (.connect fd)) (.error err) .off
  | store {fd : Nat} {r} :
      Moving host self .heartbeat (.joined fd) (.sys (.setSocket fd)) r (.shaking .fresh fd)
  | storeError {fd r} (h : fd < 0) : Moving host self .heartbeat .off (.sys (.setSocket fd)) r .off
  | look {stage fd fd'} (h : 0 ≤ fd') :
      Moving host self .heartbeat (.shaking stage fd) (.sys .getSocket) fd' (.shaking stage fd')
  | lookStopped {stage fd fd'} (h : fd' < 0) :
      Moving host self .heartbeat (.shaking stage fd) (.sys .getSocket) fd' .off
  | sendSize {fd r} : Moving host self .heartbeat (.shaking .fresh fd)
      (.send .field fd (htobe64 (UInt64.ofNat self.key_.length))) r (.shaking (Stage.afterSize r) fd)
  | sendText {fd r} :
      Moving host self .heartbeat (.shaking .sized fd) (.send .text fd self.key_) r (.shaking .spent fd)
  | sendBroken {m fd bs r} :
      Moving host self .heartbeat (.shaking .broken fd) (.send m fd bs) r (.shaking .broken fd)
  | accept {stage fd r} (h : ReadReply.bytes r = htobe16 cmd.ACCEPT) :
      Moving host self .heartbeat (.shaking stage fd) (.recv .command fd 2) r .outside
  | refuse {stage fd r} (h : ReadReply.bytes r ≠ htobe16 cmd.ACCEPT) :
      Moving host self .heartbeat (.shaking stage fd) (.recv .command fd 2) r (.refused fd)
  | lookRefused {fd fd'} (h : 0 ≤ fd') :
      Moving host self .heartbeat (.refused fd) (.sys .getSocket) fd' (.refused fd')
  | lookGone {fd fd'} (h : fd' < 0) :
      Moving host self .heartbeat (.refused fd) (.sys .getSocket) fd' .off
  | closeRefused {fd r} : Moving host self .heartbeat (.refused fd) (.sys (.close fd)) r .shut
  | clearRefused {r} : Moving host self .heartbeat .shut (.sys (.setSocket (-1))) r .off
  | sendNowhere {m fd bs r} (h : fd < 0) : Moving host self .heartbeat .off (.send m fd bs) r .off
  | recvNowhere {m fd n r} (h : fd < 0) : Moving host self .heartbeat .off (.recv m fd n) r .off
  | closeNowhere {fd r} (h : fd < 0) : Moving host self .heartbeat .off (.sys (.close fd)) r .off

theorem Moving.holding {host : Endian} {self : ServerConnection} {i : Thread} {x y : Phase}
    {c : SockCall Kind ClientSys} {r : (Sock Kind ClientSys).Reply c} (h : Moving host self i x c r y)
    (hlock : c ≠ .sys .lock) (hunlock : c ≠ .sys .unlock) : y.Holding ↔ x.Holding := by
  cases h with
  | lock => exact absurd rfl hlock
  | unlock | leave => exact absurd rfl hunlock
  | ends h | offline h => rcases h with rfl | rfl <;> rfl
  | _ => rfl

def Held (monitor : Option Thread) (x : Thread → Phase) : Prop :=
  ∀ i, monitor = some i ↔ (x i).Holding

namespace Held
variable {monitor : Option Thread} {x : Thread → Phase} {i j : Thread} {y : Phase}

theorem only (h : Held monitor x) (hi : (x i).Holding) (hj : (x j).Holding) : j = i :=
  Option.some.inj (((h j).mpr hj).symm.trans ((h i).mpr hi))

theorem keep (h : Held monitor x) (hy : y.Holding ↔ (x i).Holding) :
    Held monitor (Function.update x i y) := by
  intro j
  by_cases hj : j = i
  · subst hj
    rw [Function.update_self, hy]
    exact h j
  · rw [Function.update_of_ne hj]
    exact h j

theorem acquire (h : Held none x) (hy : y.Holding) : Held (some i) (Function.update x i y) := by
  intro j
  by_cases hj : j = i
  · subst hj
    simpa using hy
  · have hnot : ¬ (x j).Holding := fun hold => nomatch (h j).mpr hold
    rw [Function.update_of_ne hj]
    exact iff_of_false (fun heq => hj (Option.some.inj heq).symm) hnot

theorem release (h : Held monitor x) (hx : (x i).Holding) (hy : ¬ y.Holding) :
    Held none (Function.update x i y) := by
  intro j
  by_cases hj : j = i
  · subst hj
    rw [Function.update_self]
    exact iff_of_false nofun hy
  · rw [Function.update_of_ne hj]
    exact iff_of_false nofun fun hold => hj (h.only hx hold)

end Held

/-- Where a thread may be when it has nothing more to do, for now or for good. -/
def Resting : Thread → Phase → Bool → Prop
  | .callback _, x, _ => x = .outside
  | .heartbeat, x, true => x = .outside ∨ x = .off ∨ x = .astray
  | .heartbeat, x, false => x = .finished ∨ x = .astray
  | .destroy, x, true => x = .outside
  | .destroy, x, false => x = .left

section Threads
variable (host : Endian) (self : ServerConnection)

private theorem operates {i : Thread} (h : ∃ n, i = .callback n) :
    Operates (Moving host self i) .outside .inside := by
  obtain ⟨n, rfl⟩ := h
  exact {
    lock := fun _ => .lock
    fetch := fun _ _ => .fetch nofun
    unlock := fun _ _ => .unlock nofun
    memory := fun _ => ⟨fun _ _ => .memory trivial, fun _ _ => .memory trivial, nofun⟩
    on := fun _ => { malloc := fun _ _ => .memory trivial
                     scratch := fun _ _ => .memory trivial
                     abort := nofun
                     recv := fun _ _ _ => .recv
                     send := fun _ _ _ => .send } }

theorem follows_seen {n : Nat} {α : Type} {callback : AgfsIo α} {p : ClientIo α}
    (hcallback : callback.Only AgfsCall.Asked) (hseen : Seen host self.hostname_ callback p) :
    p.Follows (Moving host self (.callback n)) (fun y _ => y = .outside) .outside := by
  induction hseen with
  | ret a => rfl
  | @here c k f h rest ih =>
    obtain ⟨hc, hk⟩ := hcallback
    have hcarry : (carryOut host c).Follows (Moving host self (.callback n))
        (fun y _ => y = .outside) .outside := by
      cases c with
      | connected server => exact fun fd => ⟨_, .test, rfl⟩
      | request server r => exact (operates host self ⟨n, rfl⟩).perform hc
    refine hcarry.bind ?_
    rintro _ r rfl
    exact ih r (hk r)
  | elsewhere r h rest ih => exact ih (hcallback.2 r)

variable {host self}

theorem follows_astray {α : Type} {Q : Phase → α → Prop} (p : ClientIo α) (hQ : ∀ a, Q .astray a) :
    p.Follows (Moving host self .heartbeat) Q .astray := by
  induction p with
  | ret a => exact hQ a
  | call c k ih => exact fun r => ⟨.astray, .astray, ih r⟩

theorem ReadReply_bytes_length {n : Nat} (r : ReadReply n) : r.bytes.length ≤ n := by
  cases r with
  | fail err => exact Nat.zero_le n
  | got bs h => exact h

theorem store_length (host : Endian) : (host.store 2 cmd.NONE.toNat).length = 2 := by
  cases host <;> rfl

/-- A command is taken for what its two bytes spell once the reply lies over `NONE`. -/
theorem taken_iff (r : ReadReply 2) (c : CmdT) :
    taken host r = c ↔ overlay (host.store 2 cmd.NONE.toNat) r.bytes = htobe16 c := by
  have hlen : (overlay (host.store 2 cmd.NONE.toNat) r.bytes).length = 2 := by
    rw [overlay_length ((ReadReply_bytes_length r).trans_eq (store_length host).symm), store_length]
  constructor
  · intro h
    rw [← h, taken, htobe16_be16toh hlen]
  · intro h
    rw [taken, h, be16toh_htobe16]

theorem taken_accept (r : ReadReply 2) :
    taken host r = cmd.ACCEPT ↔ r.bytes = htobe16 cmd.ACCEPT := by
  rw [taken_iff]
  have hle := ReadReply_bytes_length r
  match r.bytes, hle with
  | [], _ => cases host <;> decide
  | [b], _ =>
    cases host
    · exact iff_of_false (fun h => absurd (List.cons.inj (List.cons.inj h).2).1 (by decide)) nofun
    · exact iff_of_false (fun h => absurd (List.cons.inj (List.cons.inj h).2).1 (by decide)) nofun
  | [b, b'], _ => rw [overlay_full (store_length host).le]

variable (host self) in
theorem nowhere {fd : Fd} (h : fd < 0) :
    Allows (fun c => ∀ r, Moving host self .heartbeat .off c r .off) fd where
  malloc _ _ := .memory trivial
  scratch _ _ := .memory trivial
  abort := nofun
  recv _ _ _ := .recvNowhere h
  send _ _ _ := .sendNowhere h

section Connect
variable {α : Type} {Q : Phase → α → Prop}

/-- In `connect`, something done with the descriptor in `socket_` when the connection has been
stopped in the meantime. -/
theorem follows_off {p : Fd → ClientIo α} (hastray : ∀ a, Q .astray a)
    (hp : ∀ fd < 0, (p fd).Follows (Moving host self .heartbeat) Q .off) :
    (ServerConnection.socket_ >>= p).Follows (Moving host self .heartbeat) Q .off := by
  intro fd
  by_cases hfd : fd < 0
  · exact ⟨.off, .offline (.inr rfl) hfd, hp fd hfd⟩
  · exact ⟨.astray, .strays (not_lt.mp hfd), follows_astray _ hastray⟩

end Connect

def Ended (y : Phase) (_ : Unit) : Prop := y = .outside ∨ y = .off ∨ y = .astray

private theorem follows_refusal_off :
    (ServerConnection.socket_ >>= fun fd => ClientIo.sys (.close fd) >>= fun _ =>
      ClientIo.sys (.setSocket (-1))).Follows (Moving host self .heartbeat) Ended .off :=
  follows_off (fun _ => .inr (.inr rfl)) fun fd hfd _ =>
    ⟨.off, .closeNowhere hfd, fun _ => ⟨.off, .storeError (by decide), .inr (.inl rfl)⟩⟩

private theorem follows_refusal (fd : Fd) :
    (ServerConnection.socket_ >>= fun fd => ClientIo.sys (.close fd) >>= fun _ =>
      ClientIo.sys (.setSocket (-1))).Follows (Moving host self .heartbeat) Ended (.refused fd) := by
  intro fd'
  by_cases hfd : fd' < 0
  · refine ⟨.off, .lookGone hfd, fun _ => ⟨.off, .closeNowhere hfd, fun _ => ?_⟩⟩
    exact ⟨.off, .storeError (by decide), .inr (.inl rfl)⟩
  · refine ⟨.refused fd', .lookRefused (not_lt.mp hfd), fun _ => ⟨.shut, .closeRefused, fun _ => ?_⟩⟩
    exact ⟨.off, .clearRefused, .inr (.inl rfl)⟩

theorem follows_verdict (stage : Stage) (fd : Fd) :
    (ServerConnection.socket_ >>= fun fd => agfsReadCmd host fd cmd.NONE >>= fun read =>
      if read.2 = cmd.ACCEPT then .ret ()
      else ServerConnection.socket_ >>= fun fd => ClientIo.sys (.close fd) >>= fun _ =>
        ClientIo.sys (.setSocket (-1))).Follows (Moving host self .heartbeat) Ended
          (.shaking stage fd) := by
  intro fd'
  by_cases hfd : fd' < 0
  · refine ⟨.off, .lookStopped hfd, ?_⟩
    have := nowhere host self hfd
    refine (Prog.Follows.of_only (only_readCmd host fd' cmd.NONE)).bind ?_
    rintro _ read rfl
    exact .ite (fun _ => .inr (.inl rfl)) fun _ => follows_refusal_off
  · refine ⟨.shaking stage fd', .look (not_lt.mp hfd), fun r => ?_⟩
    by_cases haccept : ReadReply.bytes r = htobe16 cmd.ACCEPT
    · refine ⟨.outside, .accept haccept, ?_⟩
      change (if taken host r = cmd.ACCEPT then _ else _ : ClientIo Unit).Follows _ _ _
      rw [if_pos ((taken_accept r).mpr haccept)]
      exact .inl rfl
    · refine ⟨.refused fd', .refuse haccept, ?_⟩
      change (if taken host r = cmd.ACCEPT then _ else _ : ClientIo Unit).Follows _ _ _
      rw [if_neg (fun h => haccept ((taken_accept r).mp h))]
      exact follows_refusal fd'

private theorem follows_writeKey {fd : Fd} :
    (agfsWriteString fd self.key_ : ClientIo Int32).Follows (Moving host self .heartbeat)
      (fun y _ => ∃ stage, y = .shaking stage fd) (.shaking .fresh fd) := by
  intro r
  refine ⟨_, .sendSize, .ite (fun _ => ⟨_, rfl⟩) fun hr => ?_⟩
  have hdone (r' : WriteReply self.key_.length) (stage : Stage) :
      (if r'.int < 0 then return r'.int else return r.int + r'.int : ClientIo Int32).Follows
        (Moving host self .heartbeat) (fun y _ => ∃ stage, y = .shaking stage fd) (.shaking stage fd) :=
    .ite (fun _ => ⟨_, rfl⟩) fun _ => ⟨_, rfl⟩
  cases r with
  | fail err => exact absurd (show (-1 : Int32) < 0 by decide) hr
  | wrote count hcount =>
    rw [Stage.afterSize]
    by_cases hn : count = (htobe64 (UInt64.ofNat self.key_.length)).length
    · rw [if_pos hn]
      exact fun r' => ⟨_, .sendText, hdone r' _⟩
    · rw [if_neg hn]
      exact fun r' => ⟨_, .sendBroken, hdone r' _⟩

theorem follows_unsent {fd : Fd} (hfd : fd < 0) :
    (agfsWriteString fd self.key_ >>= fun _ => ServerConnection.socket_ >>= fun fd =>
      agfsReadCmd host fd cmd.NONE >>= fun read =>
        if read.2 = cmd.ACCEPT then .ret ()
        else ServerConnection.socket_ >>= fun fd => ClientIo.sys (.close fd) >>= fun _ =>
          ClientIo.sys (.setSocket (-1))).Follows (Moving host self .heartbeat) Ended .off := by
  have := nowhere host self hfd
  refine (Prog.Follows.of_only (only_writeString fd self.key_)).bind ?_
  rintro _ _ rfl
  refine follows_off (fun _ => .inr (.inr rfl)) fun fd hfd => ?_
  have := nowhere host self hfd
  refine (Prog.Follows.of_only (only_readCmd host fd cmd.NONE)).bind ?_
  rintro _ read rfl
  exact .ite (fun _ => .inr (.inl rfl)) fun _ => follows_refusal_off

private theorem follows_handshake_off :
    (self.handshake host).Follows (Moving host self .heartbeat) Ended .off :=
  follows_off (fun _ => .inr (.inr rfl)) fun _ hfd => follows_unsent hfd

private theorem follows_handshake (fd : Fd) :
    (self.handshake host).Follows (Moving host self .heartbeat) Ended (.shaking .fresh fd) := by
  intro fd'
  by_cases hfd : fd' < 0
  · exact ⟨.off, .lookStopped hfd, follows_unsent hfd⟩
  · refine ⟨.shaking .fresh fd', .look (not_lt.mp hfd), follows_writeKey.bind ?_⟩
    rintro _ _ ⟨stage, rfl⟩
    exact follows_verdict stage fd'

theorem follows_dnsLookup (port : Str) :
    (self.dnsLookup port).Follows (Moving host self .heartbeat)
      (fun y (fd : Fd) => (y = .off ∧ fd < 0) ∨ ∃ fd' : Nat, y = .joined fd' ∧ fd = fd') .off := by
  intro found
  refine ⟨.off, .lookup, .ite (fun _ => .inl ⟨rfl, by decide⟩) fun _ r => ?_⟩
  cases r with
  | error err => exact ⟨.off, .noSocket, .inl ⟨rfl, by decide⟩⟩
  | ok fd =>
    refine ⟨.made fd, .socket, fun r => ?_⟩
    cases r with
    | error err => exact ⟨.off, .notJoined, .inl ⟨rfl, by decide⟩⟩
    | ok r => exact ⟨.joined fd, .join, .inr ⟨fd, rfl, rfl⟩⟩

private theorem follows_connect :
    (self.connect host).Follows (Moving host self .heartbeat) Ended .off := by
  refine (follows_dnsLookup (cstr self.port_)).bind ?_
  rintro _ fd (⟨rfl, hfd⟩ | ⟨fd', rfl, rfl⟩)
  · intro r
    refine ⟨.off, .storeError hfd, follows_off (fun _ => .inr (.inr rfl)) fun fd hfd => ?_⟩
    exact .ite (fun _ => .inr (.inl rfl)) fun _ => follows_handshake_off
  · intro r
    refine ⟨_, .store, fun fd => ?_⟩
    by_cases hfd : fd < 0
    · refine ⟨.off, .lookStopped hfd, ?_⟩
      exact .ite (fun _ => .inr (.inl rfl)) fun _ => follows_handshake_off
    · refine ⟨.shaking .fresh fd, .look (not_lt.mp hfd), .ite (fun h => ?_) fun _ => follows_handshake fd⟩
      rcases h with rfl | rfl | rfl <;> exact absurd (show _ < (0 : Int) by decide) hfd

private theorem follows_heartbeat :
    (ServerConnection.heartbeat host).Follows (Moving host self .heartbeat)
      (fun y _ => y = .outside) .outside := by
  intro _
  refine ⟨_, .lock, fun fd => ⟨_, .fetch nofun, fun r => ⟨_, .send, fun fd => ⟨_, .fetch nofun, fun r => ?_⟩⟩⟩⟩
  by_cases hnone : taken host r = cmd.NONE
  · refine ⟨_, .lost hnone, ?_⟩
    change ((if taken host r = cmd.NONE then _ else _ : ClientIo AgerrT) >>= _).Follows _ _ _
    rw [if_pos hnone]
    intro fd
    refine ⟨_, .refetch, fun _ => ⟨_, .drop, fun _ => ⟨_, .dropped, fun _ => ?_⟩⟩⟩
    exact ⟨_, .unlock nofun, rfl⟩
  · refine ⟨_, .answered hnone, ?_⟩
    change ((if taken host r = cmd.NONE then _ else _ : ClientIo AgerrT) >>= _).Follows _ _ _
    rw [if_neg hnone]
    exact fun _ => ⟨_, .unlock nofun, rfl⟩

theorem follows_heartbeatThread {x : Phase} (h : Resting .heartbeat x true) :
    (heartbeatThread host self).Follows (Moving host self .heartbeat) (Resting .heartbeat) x := by
  have hastray (b : Bool) : Resting .heartbeat .astray b := by cases b <;> simp [Resting]
  rcases or_assoc.mpr h with h | rfl
  · intro b
    cases b with
    | true => exact ⟨.finished, .ends h, .inl rfl⟩
    | false =>
      refine ⟨x, .goesOn h, fun (fd : Int) => ?_⟩
      by_cases hfd : fd < 0
      · refine ⟨.off, .offline h hfd, ?_⟩
        change ((if (!(!decide (fd < 0))) = true then self.connect host >>= fun _ => .ret true
          else ServerConnection.heartbeat host >>= fun _ => .ret true) : ClientIo Bool).Follows _ _ _
        rw [if_pos (by simpa using hfd)]
        exact follows_connect.bind fun _ _ hy => hy
      · rcases h with rfl | rfl
        · refine ⟨.outside, .online (not_lt.mp hfd), ?_⟩
          change ((if (!(!decide (fd < 0))) = true then self.connect host >>= fun _ => .ret true
            else ServerConnection.heartbeat host >>= fun _ => .ret true) : ClientIo Bool).Follows _ _ _
          rw [if_neg (by simpa using hfd)]
          exact follows_heartbeat.bind fun _ _ hy => .inl hy
        · exact ⟨.astray, .strays (not_lt.mp hfd), follows_astray _ hastray⟩
  · exact follows_astray _ hastray

private theorem follows_stop :
    ((ServerConnection.stop >>= fun _ => return false) : ClientIo Bool).Follows
      (Moving host self .destroy) (Resting .destroy) .outside := by
  intro _
  refine ⟨_, .lock, fun (fd : Int) => ?_⟩
  by_cases hfd : fd < 0
  · refine ⟨_, .unconnected hfd, ?_⟩
    change (((if (!decide (fd < 0)) = true then _ else _ : ClientIo AgerrT) >>= fun r =>
      ClientIo.sys .unlock >>= fun _ => .ret r) >>= fun _ => .ret false : ClientIo Bool).Follows _ _ _
    rw [if_neg (by simpa using hfd)]
    exact fun _ => ⟨_, .setClosed, fun _ => ⟨_, .leave, rfl⟩⟩
  · refine ⟨_, .connected (not_lt.mp hfd), ?_⟩
    change (((if (!decide (fd < 0)) = true then _ else _ : ClientIo AgerrT) >>= fun r =>
      ClientIo.sys .unlock >>= fun _ => .ret r) >>= fun _ => .ret false : ClientIo Bool).Follows _ _ _
    rw [if_pos (by simpa using hfd)]
    intro fd
    refine ⟨_, .fetch nofun, fun _ => ⟨_, .send, fun fd => ⟨_, .fetch nofun, fun r => ?_⟩⟩⟩
    refine ⟨_, .close, fun _ => ⟨_, .clear, ?_⟩⟩
    cases r <;> exact fun _ => ⟨_, .setClosed, fun _ => ⟨_, .leave, rfl⟩⟩

theorem follows_starts {i : Thread} {p : ClientIo Bool} {x : Phase}
    (hp : (self.threads host).Starts i p) (hx : Resting i x true) :
    p.Follows (Moving host self i) (Resting i) x := by
  cases i with
  | callback n =>
    obtain ⟨α, callback, q, hcallback, hseen, rfl⟩ := hp
    obtain rfl : x = .outside := hx
    exact (follows_seen host self hcallback hseen).bind fun _ _ hy => hy
  | heartbeat =>
    obtain rfl : p = heartbeatThread host self := hp
    exact follows_heartbeatThread hx
  | destroy =>
    obtain rfl : p = ServerConnection.stop >>= fun _ => .ret false := hp
    obtain rfl : x = .outside := hx
    exact follows_stop

/-- What every move preserves holds throughout a run, when no thread has started yet. -/
theorem ServerConnection.run_phased {C : Object → Thread → Event (Sock Kind ClientSys) → Prop}
    (I : Object → (Thread → Phase) → Prop) {s : Object} (hs : I s fun _ => .outside)
    (hmove : ∀ {i s x c r y}, I s x → Moving host self i (x i) c r y → s.Possible c r →
      C s i ⟨c, r⟩ → I (s.after i c r) (Function.update x i y))
    {t : Threads.State (Sock Kind ClientSys) Thread Object}
    (hrun : (self.threads host).Run C (.idle s) t) :
    ∃ x, Threads.Phased (Moving host self) Resting I t x := by
  refine hrun.phased follows_starts (fun h hm hdoes hmeets => ?_) ⟨hs, fun i => ?_⟩
  · obtain ⟨hpossible, rfl⟩ := hdoes
    exact hmove h hm hpossible hmeets
  · cases i with
    | heartbeat => exact .inl rfl
    | _ => rfl

end Threads
end AgFS
