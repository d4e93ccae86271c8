import AgFS.Resources.Clients
import AgFS.Session.Meeting

/-! The clients of the daemon: what a child has done is the server's side of a meeting, whatever the daemon and the
other children do meanwhile. -/
namespace AgFS
open Interaction ByteOrder Sock Tokens

section Child
variable {τ : Type} {sys : τ → (c : ServerCall) → τ × ServerSys.Reply c} {host : Endian} {s s' : τ}
  {t : List ServerEvent} {q : ServerIo (Child ⊕ ClientConnection)}

private theorem Child.serving_next {self : ClientConnection} {c : Child}
    (h : Runs (Child.body host (.serving self)) t (.ret (.inl c))) : ∃ next, c = .serving next := by
  obtain ⟨_, _, x, -, -, hret⟩ := Runs.bind_ret_iff.mp h
  obtain ⟨-, hx⟩ := Runs.ret_iff.mp hret
  cases x with
  | inl next =>
    cases hx
    exact ⟨next, rfl⟩
  | inr next => cases hx

private theorem Child.fresh_next {connfd : Fd} {c : Child}
    (h : Runs (Child.body host (.fresh connfd)) t (.ret (.inl c))) :
    ∃ self, c = .serving self := by
  obtain ⟨_, u, self, -, -, hrest⟩ := Runs.bind_ret_iff.mp h
  change Runs (if self.connected then _ else _) _ _ at hrest
  split at hrest
  · obtain ⟨_, _, x, -, -, hret⟩ := Runs.bind_ret_iff.mp hrest
    obtain ⟨-, hx⟩ := Runs.ret_iff.mp hret
    cases hx
    exact ⟨self, rfl⟩
  · obtain ⟨-, hx⟩ := Runs.ret_iff.mp hrest
    cases hx

/-- A session, cut into its passes. -/
theorem Child.passes_of_loops {self : ClientConnection}
    (h : Loops (Child.body host) (Child.body host (.serving self)) t q) (hs : Answered sys s t s') :
    ∃ passes, Served host sys self s passes ∧ passes.flatMap Pass.calls = t := by
  generalize hp : Child.body host (.serving self) = p at h
  induction h generalizing self s with
  | @within p q t h =>
    subst hp
    refine ⟨[⟨t, q⟩], .cons h hs (fun hne => absurd rfl hne) (.nil self s'), ?_⟩
    rw [List.flatMap_singleton]
  | @again p q c t u h _ ih =>
    subst hp
    obtain ⟨next, rfl⟩ := Child.serving_next h
    obtain ⟨m, ht, hu⟩ := hs.append
    obtain ⟨passes, hserved, rfl⟩ := ih hu rfl
    exact ⟨⟨t, _⟩ :: passes, .cons h ht (fun _ => rfl) hserved, rfl⟩

end Child

private theorem heard_passes (us : List Pass) : heard (us.flatMap Pass.calls) = heardBy us := by
  induction us with
  | nil => rfl
  | cons u us ih => rw [List.flatMap_cons, Sock.heard_append, ih, heardBy, heardBy, List.flatMap_cons]

private theorem said_passes (us : List Pass) : said (us.flatMap Pass.calls) = answeredBy us := by
  induction us with
  | nil => rfl
  | cons u us ih => rw [List.flatMap_cons, Sock.said_append, ih, answeredBy, answeredBy, List.flatMap_cons]

section Visits
variable {τ : Type} {host host' : Endian} {client : ServerConnection} {n : Nat} {before connfd : Fd}
  {sys : τ → (c : ServerCall) → τ × ServerSys.Reply c} {site : Site} {s s' : τ} {t : List ServerEvent}
  {q : ServerIo (Child ⊕ ClientConnection)}

def Meeting.log (y : Meeting host host' client n before connfd sys s) : List ServerEvent :=
  y.welcome ++ y.passes.flatMap Pass.calls

/-- A child and a client that have taken only what the other has sent have met. -/
theorem Child.meets (h : Loops (Child.body host') (Child.body host' (.fresh connfd)) t q) (hs : Answered sys s t s')
    (x : Caller host client n before) (up : unmark (heard t) <+: unmark x.said)
    (down : unmark x.heard <+: unmark (said t)) :
    ∃ y : Meeting host host' client n before connfd sys s, y.toCaller = x ∧ y.log = t := by
  have meeting (conn : ClientConnection) (passes : List Pass) {welcome : List ServerEvent}
      {entered : ServerIo (Child ⊕ ClientConnection)} {admitted : τ} (ht : welcome ++ passes.flatMap Pass.calls = t)
      (constructs : Runs (Child.body host' (.fresh connfd)) welcome entered)
      (answered : Answered sys s welcome admitted) (serves : passes ≠ [] → entered = .ret (.inl (.serving conn)))
      (served : Served host' sys conn admitted passes) :
      ∃ y : Meeting host host' client n before connfd sys s, y.toCaller = x ∧ y.log = t := by
    rw [← ht, Sock.heard_append, heard_passes] at up
    rw [← ht, Sock.said_append, said_passes] at down
    exact ⟨⟨x, welcome, entered, admitted, conn, passes, constructs, answered, serves, served, up, down⟩, rfl, ht⟩
  cases h with
  | within h =>
    exact meeting .refused [] (List.append_nil t) h hs (fun hne => absurd rfl hne) (.nil _ s')
  | again h rest =>
    obtain ⟨self, rfl⟩ := Child.fresh_next h
    obtain ⟨m, hwelcome, hsession⟩ := hs.append
    obtain ⟨passes, hserved, rfl⟩ := Child.passes_of_loops rest hsession
    exact meeting self passes rfl h hwelcome (fun _ => rfl) hserved

/-- Every client of the daemon has its meeting: whatever else the daemon, its children and other clients do, what the
child of a connection has called is the server's side of a meeting with the client that has talked with it, which
comes to what the client's key opens. -/
theorem daemon_serial {inherited : Finset Nat} {argv : List Str}
    {state : Forks.State DaemonSys Daemon Int32 Kernel Table}
    (hrun : (agfsd host').Run (agfsd.start inherited argv) state) {i : Nat} (hi : i ≠ 0)
    {p : Proc DaemonSys Daemon Int32 Table} (hp : state.procs i = some p) {lfd : Fd}
    (hcalls : p.calls = ⟨.close lfd, ()⟩ :: t.map Daemon.served) (hs : Answered sys s t s')
    (x : Caller host client n before) (up : unmark (heard t) <+: unmark x.said)
    (down : unmark x.heard <+: unmark (said t))
    (hsteady : ∀ r, site.grants client.key_ = some r → Steady sys r.mount x.Asks)
    (hsite : ∀ s c, site.Answers c (sys s c).2)
    (hcomplete : 3 ∣ (words site.content).length) (hnobody : site.accounts [] = none) (hshort : Short client.key_)
    (hn : NulFree client.key_) (hheld : ∀ o ∈ x.errands, o.request.Held) :
    ∃ (connfd : Nat) (y : Meeting host host' client n before connfd sys s), y.toCaller = x ∧ y.log = t ∧
      (y.Unbroken → y.Settled site) := by
  obtain ⟨lfd', connfd, hnone | ⟨u, q, hloops, hu⟩⟩ := child_calls hrun hi hp
  · rw [hcalls] at hnone
    cases hnone
  · have ht : t = u := by
      rw [hcalls] at hu
      refine List.map_injective_iff.mpr ?_ (List.cons.inj hu).2
      rintro ⟨c, r⟩ ⟨c', r'⟩ he
      cases he
      rfl
    subst ht
    obtain ⟨y, rfl, hlog⟩ := Child.meets hloops hs x up down
    exact ⟨connfd, y, rfl, hlog, fun h =>
      Meeting.settled h hsteady hsite hcomplete hnobody hshort hn (Int.natCast_nonneg connfd) hheld⟩

end Visits
/-- A child of the daemon on port 7 has had the small meeting. -/
theorem agfsd_admitted : ∃ state, (agfsd .little).Run (agfsd.start ∅ agfsd7) state ∧ ∃ p, state.procs 1 = some p ∧
    p.calls = ⟨.close 3, ()⟩ :: admittedMeeting.log.map Daemon.served := by
  refine ⟨?s, ?run, ?_⟩
  case run =>
    refine agfsd_call 0 (.setuid 0) (.ok ()) rfl rfl .setuid ?_
    refine agfsd_call 0 (.getaddrinfo [0x37]) true rfl rfl .getaddrinfo ?_
    refine agfsd_call 0 .socket (.ok 3) rfl rfl (.socket rfl) ?_
    refine agfsd_call 0 (.setsockopt 3) (.ok ()) rfl rfl .setsockopt ?_
    refine agfsd_call 0 (.bind 3) (.ok ()) rfl rfl .bind ?_
    refine agfsd_call 0 (.listen 3) (.ok ()) rfl rfl .listen ?_
    refine .head (.again (n := 0) rfl rfl) ?_
    refine agfsd_call 0 (.accept 3) (.ok 4) rfl rfl (.client rfl) ?_
    refine .head (.fork (n := 0) rfl rfl ⟨0, rfl⟩) ?_
    refine agfsd_call 1 (.close 3) () rfl rfl .close ?_
    refine .head (.again (n := 1) rfl rfl) ?_
    refine agfsd_call 1 (.serve (.recv .field 4 8)) (fieldReply 1) rfl rfl .recv ?_
    refine agfsd_call 1 (.serve (.malloc 2)) (some (.zeros 2)) rfl rfl .malloc ?_
    refine agfsd_call 1 (.serve (.recv .text 4 1)) (wholeReply [107]) rfl rfl .recv ?_
    refine agfsd_call 1 (.serve (.sys .readAuthkeys)) (some smallSite.content) rfl rfl (.keeping trivial) ?_
    refine agfsd_call 1 (.serve (.sys (.getpwnam [97]))) (some ⟨1000, 1000⟩) rfl rfl (.keeping trivial) ?_
    refine agfsd_call 1 (.serve (.sys (.setuid 1000))) (.error .EACCES) rfl rfl (.keeping trivial) ?_
    refine agfsd_call 1 (.serve (.sys (.setgid 1000))) (.error .EACCES) rfl rfl (.keeping trivial) ?_
    refine agfsd_call 1 (.serve (.sys (.fileExists [47]))) (.ok true) rfl rfl (.keeping trivial) ?_
    refine agfsd_call 1 (.serve (.send .command 4 (htobe16 cmd.ACCEPT))) (.all _) rfl rfl .send ?_
    refine .head (.again (n := 1) rfl rfl) ?_
    refine agfsd_call 1 (.serve (.recv .command 4 2)) (commandReply cmd.HEARTBEAT) rfl rfl .recv ?_
    refine agfsd_call 1 (.serve (.send .command 4 (htobe16 cmd.HEARTBEAT))) (.all _) rfl rfl .send ?_
    exact .refl
  · exact ⟨_, rfl, rfl⟩

theorem daemon_serial_admitted : ∃ (connfd : Nat) (y : Meeting .little .little keyHolder 3 (-1) connfd smallDisk ()),
    y.toCaller = admittedMeeting.toCaller ∧ y.log = admittedMeeting.log ∧ (y.Unbroken → y.Settled smallSite) := by
  obtain ⟨state, hrun, p, hp, hcalls⟩ := agfsd_admitted
  have hanswered : Answered smallDisk () admittedMeeting.log () := by
    simp [Meeting.log, admittedMeeting, Answered, smallDisk, roomyDisk, ServerSys.roomy, ServerSys.silent, smallSite]
  exact daemon_serial hrun Nat.one_ne_zero hp hcalls hanswered admittedMeeting.toCaller (by decide) (by decide)
    (fun _ _ => smallDisk_steady) smallDisk_answers (by decide) (by decide) keyHolder_short
    (by decide) admittedMeeting_held

end AgFS
