import AgFS.Admission.Handshake
import AgFS.Session.Serial

/-! A connection from its beginning: the handshake, and the operations after it, wherever client and server have
stopped. -/
namespace AgFS
open Interaction ByteOrder Sock Tokens

/-- A connection object that nobody else uses, on a machine that reaches the server through the descriptor `n`. -/
def ClientSys.reaching (n : Nat) : Fd → (c : ClientCall) → Fd × ClientSys.Reply c
  | fd, .getaddrinfo _ _ => (fd, true)
  | fd, .socket => (fd, .ok n)
  | fd, .connect _ => (fd, .ok ())
  | fd, c => object fd c

abbrev Complete {L : Signature} : Event (Sock Kind L) → Prop :=
  Flows (fun m => m = Kind.data → True) fun m => m = Kind.data → True

abbrev metClient (n : Nat) : Env Kind ClientSys (List ClientEvent) Fd :=
  Env.replay (fun m => m = .data → True) (fun m => m = .data → True) (ClientSys.reaching n)

abbrev metServer {τ : Type} (sys : τ → (c : ServerCall) → τ × ServerSys.Reply c) :
    Env Kind ServerSys (List ServerEvent) τ :=
  Env.replay (fun m => m = .data → True) (fun m => m = .data → True) sys

private theorem metClient_keeps (n : Nat) : KeepsObject (metClient n) id :=
  ⟨fun _ => rfl, fun _ => rfl, fun _ => rfl, fun _ _ => rfl⟩

private theorem metClient_routed (n : Nat) : Routed (metClient n) n :=
  ⟨fun _ _ _ => rfl, fun _ => rfl, fun _ => rfl⟩

private theorem encCmd_ne_nil (c : CmdT) : encCmd c ≠ [] := by
  intro h
  have hlength := congrArg List.length h
  rw [encCmd, mark_length, htobe16_length] at hlength
  cases hlength

section Handshake
variable {τ : Type} {sys : τ → (c : ServerCall) → τ × ServerSys.Reply c} {site : Site} {client : ServerConnection}
  {connfd : Fd} {n : Nat}

/-- What the handshake leads the child to: a session for the record that opens the connection, or its end. -/
def Greets (sys : τ → (c : ServerCall) → τ × ServerSys.Reply c) (site : Site) (key : Str) (connfd : Fd) (s : τ)
    (q : ServerIo (Child ⊕ ClientConnection)) (t : τ) : Prop :=
  match site.grants key with
  | some r => q = .ret (.inl (.serving ⟨r.mount, connfd, 0⟩)) ∧
      ∃ pwd, site.accounts (cstr r.user) = some pwd ∧ t = ((metServer sys).run (takeOn r pwd) s).2
  | none => q = .ret (.inr ClientConnection.refused)

/-- Client and child over the handshake: wherever they have stopped they are paired, and at their ends they agree on
what has come of it. -/
theorem tied_handshake (hsite : ∀ s c, site.Answers c (sys s c).2) (hcomplete : 3 ∣ (words site.content).length)
    (hnobody : site.accounts [] = none) (hs : Short client.key_) (hn : NulFree client.key_) (hf : 0 ≤ connfd)
    (host host' : Endian) (v : List ClientEvent) (before : Fd) (v' : List ServerEvent) (s : τ) (i o : Marked Kind)
    (y : Env.Config Kind ServerSys (List ServerEvent) τ (Child ⊕ ClientConnection)) :
    ∃ w w' q t, Tied (A := (metClient n).party Unit) (B := (metServer sys).party (Child ⊕ ClientConnection)) i o y
      (client.connect host, v, before) (Child.body host' (.fresh connfd), v', s)
      (.ret (), w, if (site.grants client.key_).isSome then (n : Fd) else -1) (q, w', t) ∧
      Greets sys site client.key_ connfd s q t := by
  have he : Orderly (metClient n) True True := Env.replay_prompt _ _ _
  have he' : Orderly (metServer sys) True True := Env.replay_prompt _ _ _
  have tied {c : CmdT} {q : ServerIo (Child ⊕ ClientConnection)} {t : τ}
      (hd : (metServer sys).Does (Child.body host' (.fresh connfd)) s (encString client.key_) (encCmd c) q t)
      (hend : ∀ w inp, ((metServer sys).machine _).step (q, w, t) inp = none) :
      ∃ w w', Tied (A := (metClient n).party Unit) (B := (metServer sys).party (Child ⊕ ClientConnection)) i o y
        (client.connect host, v, before) (Child.body host' (.fresh connfd), v', s)
        (.ret (), w, if c = cmd.ACCEPT then (n : Fd) else -1) (q, w', t) := by
    obtain ⟨fd, hasks, hfd⟩ := asks_connect he (metClient_keeps n) (metClient_routed n) host client before c
    obtain ⟨a, w, hask, hhear⟩ := hasks v
    obtain ⟨w', hserve⟩ := hd v'
    obtain rfl : fd = if c = cmd.ACCEPT then (n : Fd) else -1 := hfd
    refine ⟨w, w', Tied.round (A := (metClient n).party Unit) (B := (metServer sys).party _) hask hserve hhear
      (encCmd_ne_nil c) (fun hx _ => ?_) fun _ _ _ _ _ => Tied.refl (fun _ => rfl) (hend w')⟩
    exact (hx.of_stuck fun _ => rfl).1
  have hfresh := does_fresh he' hf host' hsite hcomplete hnobody hs hn s
  unfold Greets
  rcases hgrants : site.grants client.key_ with _ | r
  · rw [hgrants] at hfresh
    obtain ⟨c, t, hc, hd⟩ := hfresh
    obtain ⟨w, w', htied⟩ := tied hd fun _ _ => rfl
    rw [if_neg hc] at htied
    exact ⟨w, w', _, t, htied, rfl⟩
  · rw [hgrants] at hfresh
    obtain ⟨pwd, ha, hd⟩ := hfresh
    obtain ⟨w, w', htied⟩ := tied hd fun _ _ => rfl
    rw [if_pos rfl] at htied
    exact ⟨w, w', _, _, htied, rfl, pwd, ha, rfl⟩

end Handshake

/-- What a client has done on a connection: in `connect`, and in its operations. -/
structure Caller (host : Endian) (client : ServerConnection) (n : Nat) (before : Fd) where
  greeting : List ClientEvent
  entering : ClientIo Unit
  fd : Fd
  errands : List Errand
  connects : Runs (client.connect host) greeting entering
  reached : Answered (ClientSys.reaching n) before greeting fd
  ready : errands ≠ [] → entering = .ret ()
  performed : Performed host fd errands

def Caller.said {host : Endian} {client : ServerConnection} {n : Nat} {before : Fd}
    (x : Caller host client n before) : Marked Kind := Sock.said x.greeting ++ askedBy x.errands

def Caller.heard {host : Endian} {client : ServerConnection} {n : Nat} {before : Fd}
    (x : Caller host client n before) : Marked Kind := Sock.heard x.greeting ++ takenBy x.errands

def Caller.Asks {host : Endian} {client : ServerConnection} {n : Nat} {before : Fd}
    (x : Caller host client n before) (r : Request) : Prop := ∃ o ∈ x.errands, o.request = r

/-- What a client and the child that serves it have done on a connection from its beginning: the child in the
constructor and in its passes. What a side has taken is a beginning of what the other has sent. -/
structure Meeting {τ : Type} (host host' : Endian) (client : ServerConnection) (n : Nat) (before connfd : Fd)
    (sys : τ → (c : ServerCall) → τ × ServerSys.Reply c) (s : τ) extends Caller host client n before where
  welcome : List ServerEvent
  entered : ServerIo (Child ⊕ ClientConnection)
  admitted : τ
  conn : ClientConnection
  passes : List Pass
  constructs : Runs (Child.body host' (.fresh connfd)) welcome entered
  answered : Answered sys s welcome admitted
  serves : passes ≠ [] → entered = .ret (.inl (.serving conn))
  served : Served host' sys conn admitted passes
  up : unmark (Sock.heard welcome ++ heardBy passes) <+: unmark toCaller.said
  down : unmark toCaller.heard <+: unmark (Sock.said welcome ++ answeredBy passes)

/-- The transfers of the handshake are complete, and those after it as unbroken as in an exchange. -/
structure Meeting.Unbroken {τ : Type} {host host' : Endian} {client : ServerConnection} {n : Nat} {before connfd : Fd}
    {sys : τ → (c : ServerCall) → τ × ServerSys.Reply c} {s : τ}
    (x : Meeting host host' client n before connfd sys s) : Prop where
  greeting : ∀ ev ∈ x.greeting, Complete ev
  welcome : ∀ ev ∈ x.welcome, Complete ev
  client : ∀ o ∈ x.errands, ∀ ev ∈ o.calls,
    Flows (fun m => m = Kind.data → True) (fun m => m = Kind.data → False) ev
  server : ∀ u ∈ x.passes, u.Missed ∨
    ∀ ev ∈ u.calls, Flows (fun m => m = Kind.data → False) (fun m => m = Kind.data → True) ev
  stores : ∀ u ∈ x.passes, StoresAll u.calls

section Meeting
variable {τ : Type} {host host' : Endian} {client : ServerConnection} {n : Nat} {before connfd : Fd}
  {sys : τ → (c : ServerCall) → τ × ServerSys.Reply c} {site : Site} {s : τ}
  {x : Meeting host host' client n before connfd sys s}

private theorem Meeting.joined (h : x.Unbroken) :
    Joined (A := (metClient n).party Unit) (B := (metServer sys).party (Child ⊕ ClientConnection))
      (client.connect host, script x.greeting, before) (Child.body host' (.fresh connfd), script x.welcome, s)
      (heard x.greeting) (said x.greeting) (x.entering, [], x.fd) (heard x.welcome) (said x.welcome)
      (x.entered, [], x.admitted) := by
  have up := x.up
  have down := x.down
  rw [Caller.said, unmark_append, unmark_append] at up
  rw [Caller.heard, unmark_append, unmark_append] at down
  refine ⟨Env.replays x.connects h.greeting x.reached, Env.replays x.constructs h.welcome x.answered,
    ⟨_, (List.prefix_append _ _).trans up, fun hne => ⟨(), x.ready ?_⟩⟩,
    ⟨_, (List.prefix_append _ _).trans down, fun hne => ⟨_, x.serves ?_⟩⟩⟩
  · intro hnil
    rw [hnil] at hne
    exact hne rfl
  · intro hnil
    rw [hnil] at hne
    exact hne rfl

/-- What a meeting comes to. If a record opens the connection, `connect` ends with a socket, the child serves as the
record's user, and the operations come to what their requests come to under the record's mount, one after the other.
If none does, `connect` ends without a socket, and no command is ever served. -/
def Meeting.Settled (x : Meeting host host' client n before connfd sys s) (site : Site) : Prop :=
  match site.grants client.key_ with
  | some r => (x.entering = .ret () → x.fd = n) ∧ ∃ pwd, site.accounts (cstr r.user) = some pwd ∧
      (remoteService sys ⟨r.mount, connfd, 0⟩).Serial ((metServer sys).run (takeOn r pwd) s).2
        (x.errands.map Errand.asked)
  | none => (x.entering = .ret () → x.fd = -1) ∧ x.passes = []

theorem Meeting.settled (h : x.Unbroken) (hsteady : ∀ r, site.grants client.key_ = some r → Steady sys r.mount x.Asks)
    (hsite : ∀ s c, site.Answers c (sys s c).2)
    (hcomplete : 3 ∣ (words site.content).length) (hnobody : site.accounts [] = none) (hs : Short client.key_)
    (hn : NulFree client.key_) (hf : 0 ≤ connfd) (hheld : ∀ o ∈ x.errands, o.request.Held) : x.Settled site := by
  obtain ⟨w, w', q, t, htied, hgreets⟩ := tied_handshake (n := n) hsite hcomplete hnobody hs hn hf host host'
    (script x.greeting) before (script x.welcome) s (heard x.welcome) (said x.welcome) (x.entered, [], x.admitted)
  have hpaired := htied (Meeting.joined h)
  have hfd (hret : x.entering = .ret ()) : x.fd = if (site.grants client.key_).isSome then (n : Fd) else -1 :=
    congrArg (fun c => c.2.2) (hpaired.performed ⟨(), hret⟩).2
  have hserving (hne : x.passes ≠ []) : heard x.welcome = said x.greeting ∧
      (.ret (.inl (.serving x.conn)) : ServerIo (Child ⊕ ClientConnection)) = q ∧ x.admitted = t := by
    have hend := hpaired.served ⟨_, x.serves hne⟩
    refine ⟨hend.1, ?_, congrArg (fun c => c.2.2) hend.2⟩
    rw [← x.serves hne]
    exact congrArg Prod.fst hend.2
  unfold Greets at hgreets
  unfold Meeting.Settled
  rcases hgrants : site.grants client.key_ with _ | r
  · rw [hgrants] at hgreets hfd
    refine ⟨hfd, by_contra fun hne => ?_⟩
    obtain ⟨-, hq, -⟩ := hserving hne
    rw [hgreets] at hq
    cases hq
  · rw [hgrants] at hgreets hfd
    obtain ⟨hq, pwd, ha, ht⟩ := hgreets
    refine ⟨hfd, pwd, ha, ?_⟩
    rw [← ht]
    by_cases hnil : x.errands = []
    · rw [hnil]
      exact .nil t
    have hret := x.ready hnil
    have up := x.up
    have down := x.down
    rw [Caller.said, unmark_append, unmark_append] at up
    rw [Caller.heard, unmark_append, unmark_append] at down
    rw [(hpaired.performed ⟨(), hret⟩).1, List.prefix_append_right_inj] at down
    have hsocket : 0 ≤ x.fd := (hfd hret).symm ▸ Int.natCast_nonneg n
    have hpasses : Served host' sys ⟨r.mount, connfd, 0⟩ t x.passes ∧
        unmark (heardBy x.passes) <+: unmark (askedBy x.errands) := by
      by_cases hnone : x.passes = []
      · rw [hnone]
        exact ⟨.nil _ t, List.nil_prefix⟩
      · obtain ⟨hheard, hconn, ht⟩ := hserving hnone
        rw [hheard, List.prefix_append_right_inj] at up
        have hsame : x.conn = ⟨r.mount, connfd, 0⟩ := by simpa using hconn.trans hq
        have hserved := x.served
        rw [hsame, ht] at hserved
        exact ⟨hserved, up⟩
    let y : Exchange host host' x.fd sys ⟨r.mount, connfd, 0⟩ t :=
      ⟨x.errands, x.passes, x.performed, hpasses.1, hpasses.2, down⟩
    have hinStep := Exchange.inStep (x := y) ⟨h.client, h.server, h.stores⟩ (hsteady r hgrants) hsocket hf hheld
    exact hinStep.serial (fun _ => rfl) fun _ _ _ => x.performed.done

/-- A client has the share of the record that its key opens, and no other. -/
theorem meeting_serial (hsteady : ∀ r, site.grants client.key_ = some r → Steady sys r.mount x.Asks)
    (hsite : ∀ s c, site.Answers c (sys s c).2)
    (hcomplete : 3 ∣ (words site.content).length) (hnobody : site.accounts [] = none) (hs : Short client.key_)
    (hn : NulFree client.key_) (hf : 0 ≤ connfd) (hheld : ∀ o ∈ x.errands, o.request.Held) (h : x.Unbroken) :
    match site.grants client.key_ with
    | some r => (x.entering = .ret () → x.fd = n) ∧ ∃ pwd, site.accounts (cstr r.user) = some pwd ∧
        (remoteService sys ⟨r.mount, connfd, 0⟩).Serial ((metServer sys).run (takeOn r pwd) s).2
          (x.errands.map Errand.asked)
    | none => (x.entering = .ret () → x.fd = -1) ∧ x.passes = [] :=
  Meeting.settled h hsteady hsite hcomplete hnobody hs hn hf hheld

end Meeting
/-! A client whose key opens the share `/`, and its first heartbeat. -/

/-- The site of the key file `/ a k`, where every file opens. -/
def smallDisk : Unit → (c : ServerCall) → Unit × ServerSys.Reply c
  | s, .readAuthkeys => (s, some smallSite.content)
  | s, .getpwnam name => (s, smallSite.accounts name)
  | s, .fileExists path => (s, .ok (smallSite.mounts path))
  | s, c => roomyDisk s c

theorem smallDisk_steady {mountPoint : Str} {P : Request → Prop} : Steady smallDisk mountPoint P where
  fileExists _ _ := ⟨_, rfl⟩
  isDirectory _ _ := ⟨false, rfl⟩
  entries _ _ t _ := ⟨_, t, rfl, rfl⟩
  write _ _ _ h _ _ hc := by
    cases hc
    exact List.length_pos_iff.mpr h

theorem smallDisk_answers (s : Unit) (c : ServerCall) : smallSite.Answers c (smallDisk s c).2 := by
  cases c with
  | readAuthkeys => rfl
  | getpwnam name => rfl
  | fileExists path => rfl
  | _ => trivial

abbrev keyHolder : ServerConnection := ⟨[], [], [107]⟩

def admittedMeeting : Meeting .little .little keyHolder 3 (-1) 4 smallDisk () where
  greeting := [⟨.sys (.getaddrinfo [] []), true⟩, ⟨.sys .socket, .ok 3⟩, ⟨.sys (.connect 3), .ok ()⟩,
    ⟨.sys (.setSocket 3), ()⟩, ⟨.sys .getSocket, (3 : Fd)⟩, ⟨.sys .getSocket, (3 : Fd)⟩,
    ⟨.send .field 3 (htobe64 1), .all _⟩, ⟨.send .text 3 [107], .all _⟩, ⟨.sys .getSocket, (3 : Fd)⟩,
    ⟨.recv .command 3 2, commandReply cmd.ACCEPT⟩]
  entering := .ret ()
  fd := 3
  errands := [⟨.heartbeat, [⟨.sys .lock, ()⟩, ⟨.sys .getSocket, (3 : Fd)⟩,
    ⟨.send .command 3 (htobe16 cmd.HEARTBEAT), .all _⟩, ⟨.sys .getSocket, (3 : Fd)⟩,
    ⟨.recv .command 3 2, commandReply cmd.HEARTBEAT⟩, ⟨.sys .unlock, ()⟩], .ret (0 : AgerrT)⟩]
  welcome := [⟨.recv .field 4 8, fieldReply 1⟩, ⟨.malloc 2, some (.zeros 2)⟩, ⟨.recv .text 4 1, wholeReply [107]⟩,
    ⟨.sys .readAuthkeys, some smallSite.content⟩, ⟨.sys (.getpwnam [97]), some ⟨1000, 1000⟩⟩,
    ⟨.sys (.setuid 1000), .error .EACCES⟩, ⟨.sys (.setgid 1000), .error .EACCES⟩,
    ⟨.sys (.fileExists [47]), .ok true⟩, ⟨.send .command 4 (htobe16 cmd.ACCEPT), .all _⟩]
  entered := .ret (.inl (.serving rootServer))
  admitted := ()
  conn := rootServer
  passes := [⟨[⟨.recv .command 4 2, commandReply cmd.HEARTBEAT⟩,
    ⟨.send .command 4 (htobe16 cmd.HEARTBEAT), .all _⟩], .ret (.inl (.serving rootServer))⟩]
  connects := by
    repeat apply Runs.step
    exact .refl _
  reached := by simp [Answered, ClientSys.reaching, ClientSys.object]
  ready _ := rfl
  performed := by
    refine .cons ?_ ?_ (fun h => absurd rfl h) (.nil 3)
    · repeat apply Runs.step
      exact .refl _
    · simp [Answered, ClientSys.object]
  constructs := by
    repeat apply Runs.step
    exact .refl _
  answered := by simp [Answered, smallDisk, roomyDisk, ServerSys.roomy, ServerSys.silent, smallSite]
  serves _ := rfl
  served := by
    refine .cons ?_ ?_ (fun h => absurd rfl h) (.nil rootServer ())
    · repeat apply Runs.step
      exact .refl _
    · simp [Answered]
  up := by decide
  down := by decide

private theorem admittedMeeting_unbroken : admittedMeeting.Unbroken where
  greeting := by
    simp [admittedMeeting]
    decide
  welcome := by
    simp [admittedMeeting]
    decide
  client := by
    simp [admittedMeeting]
    decide
  server u hu := by
    obtain rfl := List.mem_singleton.mp hu
    refine .inr ?_
    simp
    decide
  stores u hu := by
    obtain rfl := List.mem_singleton.mp hu
    exact .of_stored (by decide)

theorem keyHolder_short : Short keyHolder.key_ := by simp [Short]

theorem admittedMeeting_held : ∀ o ∈ admittedMeeting.errands, o.request.Held := by
  intro o ho
  obtain rfl := List.mem_singleton.mp ho
  trivial

theorem meeting_serial_admitted : admittedMeeting.fd = 3 ∧
    (remoteService smallDisk rootServer).Serial () (admittedMeeting.errands.map Errand.asked) := by
  have h := meeting_serial (fun _ _ => smallDisk_steady) smallDisk_answers (by decide) (by decide) keyHolder_short
    (by decide)
    (by decide) admittedMeeting_held admittedMeeting_unbroken
  have hgrants : smallSite.grants keyHolder.key_ = some ⟨[47], [97], [107]⟩ := by decide
  rw [hgrants] at h
  obtain ⟨hfd, pwd, -, hserial⟩ := h
  exact ⟨hfd rfl, hserial⟩

end AgFS
