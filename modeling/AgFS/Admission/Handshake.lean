import AgFS.Admission.KeySoundness
import AgFS.Session.Sequence

/-! How a connection begins: `ServerConnection::connect` meets the constructor of
`ClientConnection`. -/
namespace AgFS
open Interaction ByteOrder Tokens
open ClientConnection (AuthScan)

/-- The record that opens a connection: the first with that key, if its user and its mount
exist. -/
def Site.grants (site : Site) (key : Str) : Option KeyRecord :=
  ((records (words site.content)).find? fun r => r.key = key).filter fun r =>
    (site.accounts (cstr r.user)).isSome && site.mounts (cstr r.mount)

/-- The system calls of a constructor that takes on the user of a record. -/
def takeOn (r : KeyRecord) (pwd : Passwd) : Prog ServerSys Unit := do
  let _ ← ask .readAuthkeys
  let _ ← ask (.getpwnam (cstr r.user))
  let _ ← ask (.setuid pwd.pwUid)
  let _ ← ask (.setgid pwd.pwGid)
  let _ ← ask (.fileExists (cstr r.mount))

section Server
variable {ν τ : Type} {e : Env Kind ServerSys ν τ} {site : Site} {connfd : Fd} {key : Str}
  (he : Orderly e True True) (hf : 0 ≤ connfd) (host : Endian)
  (hsite : ∀ s c, site.Answers c (e.sys s c).2)

private theorem does_refuse (he : Orderly e True True) (hf : 0 ≤ connfd) (c : CmdT) (s : τ) :
    e.Does (do
      let _ ← agfsWriteCmd connfd c
      ServerIo.sys (.close connfd)
      return ClientConnection.refused : ServerIo ClientConnection) s [] (encCmd c)
      (.ret ClientConnection.refused) (e.sys s (.close connfd)).1 :=
  (does_writeCmd he hf c s).andThen (Env.does_sys_then rfl (.refl _ _))

include he hf hsite

private theorem does_create (hs : Short key) (hn : NulFree key) {s : τ} {o : Marked Kind}
    {q : ServerIo ClientConnection} {t : τ}
    (h : e.Does (ClientConnection.afterScan connfd
        (AuthScan.run key (site.content.length + 2) (AuthScan.start (some site.content))))
      (e.sys s .readAuthkeys).1 [] o q t) :
    e.Does (ClientConnection.create host connfd) s (encString key) o q t := by
  have hkeys : e.sys s .readAuthkeys = ((e.sys s .readAuthkeys).1, some site.content) :=
    Prod.ext rfl (hsite s .readAuthkeys)
  exact (does_readString he hf host _ hs.addressable hn s).takes (Env.does_sys_then hkeys h)

private theorem does_matched {mount user : Str} (hs : Short key) (hn : NulFree key)
    (hm : matched (words site.content) key = some (mount, user)) (s : τ) :
    match site.accounts (cstr user), site.mounts (cstr mount) with
    | some pwd, true => e.Does (ClientConnection.create host connfd) s (encString key) []
        (.ret ⟨mount, connfd, 0⟩) (e.run (takeOn ⟨mount, user, key⟩ pwd) s).2
    | some _, false => ∃ t, e.Does (ClientConnection.create host connfd) s (encString key)
        (encCmd cmd.MOUNT_NOT_FOUND) (.ret ClientConnection.refused) t
    | none, _ => ∃ t, e.Does (ClientConnection.create host connfd) s (encString key)
        (encCmd cmd.USER_NOT_FOUND) (.ret ClientConnection.refused) t := by
  have hscan := AuthScan.run_start site.content key
  rw [hm] at hscan
  obtain ⟨stream, k, hrun⟩ := hscan
  have hstart {o : Marked Kind} {q : ServerIo ClientConnection} {t : τ}
      (h : e.Does (ClientConnection.afterScan connfd (some (true, ⟨stream, mount, user, k⟩)))
        (e.sys s .readAuthkeys).1 [] o q t) :
      e.Does (ClientConnection.create host connfd) s (encString key) o q t :=
    does_create he hf host hsite hs hn (by rwa [hrun])
  have h₁ : e.sys (e.sys s .readAuthkeys).1 (.getpwnam (cstr user)) =
      (_, site.accounts (cstr user)) := Prod.ext rfl (hsite _ (.getpwnam (cstr user)))
  rcases ha : site.accounts (cstr user) with _ | pwd
  · rw [ha] at h₁
    apply Exists.intro
    apply hstart
    apply Env.does_sys_then h₁
    exact does_refuse he hf _ _
  · rw [ha] at h₁
    rcases hx : site.mounts (cstr mount) with _ | _
    · have h₂ {s : τ} : e.sys s (.fileExists (cstr mount)) = (_, .ok false) :=
        Prod.ext rfl ((hsite s (.fileExists (cstr mount))).trans (congrArg Except.ok hx))
      apply Exists.intro
      apply hstart
      apply Env.does_sys_then h₁
      apply Env.does_sys_then rfl
      apply Env.does_sys_then rfl
      apply Env.does_sys_then h₂
      exact does_refuse he hf _ _
    · refine hstart (Env.does_sys_then h₁ (Env.does_sys_then rfl (Env.does_sys_then rfl ?_)))
      have h₂ {s : τ} : e.sys s (.fileExists (cstr mount)) = (_, .ok true) :=
        Prod.ext rfl ((hsite s (.fileExists (cstr mount))).trans (congrArg Except.ok hx))
      refine Env.does_sys_then h₂ ?_
      exact .refl _ _

/-- What the child process answers to a key, and where it goes from there. -/
theorem does_fresh (hcomplete : 3 ∣ (words site.content).length) (hnobody : site.accounts [] = none)
    (hs : Short key) (hn : NulFree key) (s : τ) :
    match site.grants key with
    | some r => ∃ pwd, site.accounts (cstr r.user) = some pwd ∧
        e.Does (Child.body host (.fresh connfd)) s (encString key) (encCmd cmd.ACCEPT)
          (.ret (.inl (.serving ⟨r.mount, connfd, 0⟩))) (e.run (takeOn r pwd) s).2
    | none => ∃ c t, c ≠ cmd.ACCEPT ∧
        e.Does (Child.body host (.fresh connfd)) s (encString key) (encCmd c)
          (.ret (.inr ClientConnection.refused)) t := by
  have hrefused {c : CmdT} (hc : c ≠ cmd.ACCEPT)
      (h : ∃ t, e.Does (ClientConnection.create host connfd) s (encString key) (encCmd c)
        (.ret ClientConnection.refused) t) :
      ∃ c t, c ≠ cmd.ACCEPT ∧ e.Does (Child.body host (.fresh connfd)) s (encString key) (encCmd c)
        (.ret (.inr ClientConnection.refused)) t := by
    obtain ⟨t, ht⟩ := h
    exact ⟨c, t, hc, ht.returns rfl⟩
  rcases hfind : (records (words site.content)).find? fun r => r.key = key with _ | r
  · have hgrants : site.grants key = none := by rw [Site.grants, hfind]; rfl
    rw [hgrants]
    by_cases hk : key = [] ∧ (words site.content).length < 3
    · have hempty : words site.content = [] :=
        List.length_eq_zero_iff.mp (Nat.eq_zero_of_dvd_of_lt hcomplete hk.2)
      have hm : matched (words site.content) key = some ([], []) := by
        rw [matched, hfind, hempty]
        simp [hk.1]
      have hmatched := does_matched he hf host hsite hs hn hm s
      rw [show site.accounts (cstr []) = none from hnobody] at hmatched
      exact hrefused (by decide) hmatched
    · have hm : matched (words site.content) key = none := by
        rw [matched, hfind]
        exact if_neg hk
      have hscan := AuthScan.run_start site.content key
      rw [hm] at hscan
      obtain ⟨scan, hrun⟩ := hscan
      refine hrefused (c := cmd.INVALID_KEY) (by decide) ?_
      apply Exists.intro
      apply does_create he hf host hsite hs hn
      rw [hrun]
      exact does_refuse he hf _ _
  · have hm : matched (words site.content) key = some (r.mount, r.user) := by rw [matched, hfind]
    have hmatched := does_matched he hf host hsite hs hn hm s
    have hgrants : site.grants key =
        if (site.accounts (cstr r.user)).isSome && site.mounts (cstr r.mount) then some r else none := by
      rw [Site.grants, hfind, Option.filter_some]
    rw [hgrants]
    rcases ha : site.accounts (cstr r.user) with _ | pwd
    · rw [ha] at hmatched
      exact hrefused (by decide) hmatched
    · rcases hx : site.mounts (cstr r.mount) with _ | _
      · rw [ha, hx] at hmatched
        exact hrefused (by decide) hmatched
      · rw [ha, hx] at hmatched
        have hconnected : (⟨r.mount, connfd, 0⟩ : ClientConnection).connected :=
          decide_eq_true (lt_of_lt_of_le (by decide) hf)
        refine ⟨pwd, ha, hmatched.takes ?_⟩
        rw [if_pos hconnected]
        exact (does_writeCmd he hf cmd.ACCEPT _).returns rfl

end Server

/-- The way to the server is found, and leads through the descriptor `fd`. -/
structure Routed {ν τ : Type} (e : Env Kind ClientSys ν τ) (fd : Nat) : Prop where
  getaddrinfo (s : τ) (hostname port : Str) : (e.sys s (.getaddrinfo hostname port)).2 = true
  socket (s : τ) : (e.sys s .socket).2 = .ok fd
  connect (s : τ) : (e.sys s (.connect fd)).2 = .ok ()

section Client
variable {ν τ : Type} {e : Env Kind ClientSys ν τ} {sock : τ → Fd} {fd : Nat}
  (he : Orderly e True True) (ho : KeepsObject e sock) (hroute : Routed e fd) (host : Endian)
include ho

omit ho in
include hroute in
private theorem does_dnsLookup (self : ServerConnection) (port : Str) (s : τ) :
    ∃ t, e.Does (self.dnsLookup port) s [] [] (.ret fd) t := by
  have h₁ {s : τ} : e.sys s (.getaddrinfo (cstr self.hostname_) port) = (_, true) :=
    Prod.ext rfl (hroute.getaddrinfo s _ port)
  have h₂ {s : τ} : e.sys s .socket = (_, .ok fd) := Prod.ext rfl (hroute.socket s)
  have h₃ {s : τ} : e.sys s (.connect fd) = (_, .ok ()) := Prod.ext rfl (hroute.connect s)
  apply Exists.intro
  apply Env.does_sys_then h₁
  apply Env.does_sys_then h₂
  apply Env.does_sys_then h₃
  exact .refl _ _

include he

/-- The client sends its key and keeps the connection only if it is accepted. -/
theorem asks_handshake (self : ServerConnection) {s : τ} (hf : 0 ≤ sock s)
    (c : CmdT) :
    ∃ t, e.Asks (self.handshake host) s (encString self.key_) (encCmd c) (.ret ()) t ∧
      sock t = if c = cmd.ACCEPT then sock s else -1 := by
  have hread {t : τ} (h : e.Does (if c = cmd.ACCEPT then return () else do
        let _ ← ClientIo.sys (.close (← ServerConnection.socket_))
        ClientIo.sys (.setSocket (-1))) s [] [] (.ret ()) t) :
      e.Asks (self.handshake host) s (encString self.key_) (encCmd c) (.ret ()) t := by
    refine tell_last ho (does_writeString he hf self.key_ s) ?_
    rw [← List.append_nil (encCmd c)]
    exact hear ho (does_readCmd he hf host cmd.NONE c s) h
  by_cases hc : c = cmd.ACCEPT
  · rw [if_pos hc] at hread ⊢
    exact ⟨s, hread (.refl _ s), rfl⟩
  · rw [if_neg hc] at hread ⊢
    have hclose : e.Does (do
        let _ ← ClientIo.sys (.close (← ServerConnection.socket_))
        ClientIo.sys (.setSocket (-1))) s [] [] (.ret ())
        (e.sys (e.sys s (.close (sock s))).1 (.setSocket (-1))).1 :=
      (does_socket ho).andThen (Env.does_sys_then rfl (Env.does_sys _ _))
    exact ⟨_, hread hclose, ho.setSocket _ _⟩

include hroute

theorem asks_connect (self : ServerConnection) (s : τ) (c : CmdT) :
    ∃ t, e.Asks (self.connect host) s (encString self.key_) (encCmd c) (.ret ()) t ∧
      sock t = if c = cmd.ACCEPT then (fd : Fd) else -1 := by
  obtain ⟨s₁, hdns⟩ := does_dnsLookup hroute self (cstr self.port_) s
  have hsock : sock (e.sys s₁ (.setSocket fd)).1 = fd := ho.setSocket s₁ fd
  have hf : 0 ≤ sock (e.sys s₁ (.setSocket fd)).1 := by rw [hsock]; exact Int.natCast_nonneg fd
  obtain ⟨t, hasks, ht⟩ := asks_handshake he ho host self hf c
  have hstart : e.Does (self.connect host) s [] [] (self.handshake host)
      (e.sys s₁ (.setSocket fd)).1 := by
    refine hdns.takes (Env.does_sys_then rfl ((does_socket ho).takes ?_))
    rw [hsock, if_neg (by simp [ServerConnection.DNS_ERROR, ServerConnection.SOCKET_FAILURE,
      ServerConnection.CONNECTION_FAILURE])]
    exact .refl _ _
  exact ⟨t, Env.Asks.tell (o := []) hstart hasks, by rw [ht, hsock]⟩

end Client

section Meeting
variable {ν τ ν' τ' : Type} {e : Env Kind ClientSys ν τ} {e' : Env Kind ServerSys ν' τ'}

/-- A client that is about to connect and the child process that will serve it. -/
def firstMeeting (e : Env Kind ClientSys ν τ) (e' : Env Kind ServerSys ν' τ') (host host' : Endian)
    (client : ServerConnection) (connfd : Fd) (w : ν × τ) (w' : ν' × τ') :
    Interaction.Net (e.machine Unit) (e'.loop (Child.body host')) :=
  ⟨(client.connect host, w), (Child.body host' (.fresh connfd), w'), [], []⟩

/-- Both sides agree on what has come of a handshake. With a record that opens the
connection, the client is connected and the server, as the record's user, is in its command
loop for the record's mount; without one both sockets are -1. -/
def Agreed (sock : τ → Fd) (e' : Env Kind ServerSys ν' τ') (host' : Endian) (connfd : Fd)
    (site : Site) (key : Str) (s' : τ') (n : Interaction.Net (e.machine Unit) (e'.loop (Child.body host'))) :
    Prop :=
  match site.grants key with
  | some r => 0 ≤ sock n.left.2.2 ∧
      n.right.1 = Child.body host' (.serving ⟨r.mount, connfd, 0⟩) ∧
      ∃ pwd, site.accounts (cstr r.user) = some pwd ∧ n.right.2.2 = (e'.run (takeOn r pwd) s').2
  | none => sock n.left.2.2 = -1 ∧
      ∃ self : ClientConnection, n.right.1 = .ret (.inr self) ∧ self.socket_ = -1

/-- Every handshake comes to an end, always the same, and there the two sides agree. -/
theorem handshake_agreement (he : Orderly e True True) (he' : Orderly e' True True)
    {sock : τ → Fd} (ho : KeepsObject e sock) {fd : Nat} (hroute : Routed e fd) {site : Site}
    (hsite : ∀ s c, site.Answers c (e'.sys s c).2) (hcomplete : 3 ∣ (words site.content).length)
    (hnobody : site.accounts [] = none) {client : ServerConnection} (hs : Short client.key_)
    (hn : NulFree client.key_) {connfd : Fd} (hf' : 0 ≤ connfd) (host host' : Endian) (w : ν × τ)
    (w' : ν' × τ') :
    ∃ k last, last.AtRest ∧ last.up = [] ∧ last.down = [] ∧
      (∀ j n, Net.LeadsIn j (firstMeeting e e' host host' client connfd w w') n →
        j ≤ k ∧ Net.LeadsIn (k - j) n last) ∧
      Agreed sock e' host' connfd site client.key_ w'.2 last := by
  have hend {c : CmdT} {q : ServerIo (Child ⊕ ClientConnection)} {t' : τ'}
      (hd : e'.Does (Child.body host' (.fresh connfd)) w'.2 (encString client.key_) (encCmd c) q t')
      (hrest : ∀ v, (e'.loop (Child.body host')).step (Env.resume (Child.body host') q, v, t') [] = none) :
      ∃ k last, last.AtRest ∧ last.up = [] ∧ last.down = [] ∧
        (∀ j n, Net.LeadsIn j (firstMeeting e e' host host' client connfd w w') n →
          j ≤ k ∧ Net.LeadsIn (k - j) n last) ∧
        sock last.left.2.2 = (if c = cmd.ACCEPT then (fd : Fd) else -1) ∧
        last.right.1 = Env.resume (Child.body host') q ∧ last.right.2.2 = t' := by
    obtain ⟨t, hasks, ht⟩ := asks_connect he ho hroute host client w.2 c
    obtain ⟨v, v', htalk⟩ := Env.Talks.round hasks hd w.1 w'.1
    have hlead := (htalk.map (C := e.machine Unit) (D := e'.loop (Child.body host')) id
      (fun hr => e'.reaches_loop hr)).leads
    rw [Child.body_productive host' (.fresh connfd)] at hlead
    obtain ⟨k, hk⟩ := Net.Leads.exact hlead
    have hrested : Net.AtRest (A := e.machine Unit) (B := e'.loop (Child.body host'))
        ⟨(.ret (), v, t), (Env.resume (Child.body host') q, v', t'), [], []⟩ := ⟨rfl, hrest v'⟩
    exact ⟨k, _, hrested, rfl, rfl, fun j n hj => hk.confluent hrested hj, ht, rfl, rfl⟩
  have hfresh := does_fresh he' hf' host' hsite hcomplete hnobody hs hn w'.2
  unfold Agreed
  rcases hgrants : site.grants client.key_ with _ | r
  · rw [hgrants] at hfresh
    obtain ⟨c, t', hc, hd⟩ := hfresh
    obtain ⟨k, last, h₁, h₂, h₃, h₄, hsock, hright, -⟩ := hend hd fun v => rfl
    rw [if_neg hc] at hsock
    exact ⟨k, last, h₁, h₂, h₃, h₄, hsock, _, hright, rfl⟩
  · rw [hgrants] at hfresh
    obtain ⟨pwd, ha, hd⟩ := hfresh
    obtain ⟨k, last, h₁, h₂, h₃, h₄, hsock, hright, hstate⟩ :=
      hend hd fun v => serving_waits he' hf' host' (v, _)
    rw [if_pos rfl] at hsock
    exact ⟨k, last, h₁, h₂, h₃, h₄, by rw [hsock]; exact Int.natCast_nonneg fd, hright, pwd, ha, hstate⟩

end Meeting

def ClientSys.online (fd : Fd) : (c : ClientCall) → Fd × ClientSys.Reply c
  | .getaddrinfo _ _ => (fd, true)
  | .socket => (fd, .ok 3)
  | .connect _ => (fd, .ok ())
  | c => object fd c

private theorem ClientSys.online_keeps : KeepsObject (Env.whole ClientSys.online) id :=
  ⟨fun _ => rfl, fun _ => rfl, fun _ => rfl, fun _ _ => rfl⟩

private theorem ClientSys.online_routed : Routed (Env.whole ClientSys.online) 3 :=
  ⟨fun _ _ _ => rfl, fun _ => rfl, fun _ => rfl⟩

/-- The answers of a machine on which a server finds nothing but what admissions need. -/
def Site.sys (site : Site) (s : Unit) : (c : ServerCall) → Unit × ServerSys.Reply c
  | .readAuthkeys => (s, some site.content)
  | .getpwnam name => (s, site.accounts name)
  | .fileExists path => (s, .ok (site.mounts path))
  | c => (s, ServerSys.silent c)

/-- The key file `/ a k`. -/
def smallSite : Site where
  content := [47, 32, 97, 32, 107]
  accounts name := if name = [97] then some ⟨1000, 1000⟩ else none
  mounts path := path = [47]

theorem handshake_agreement_small :
    ∃ k last, last.AtRest ∧ last.up = [] ∧ last.down = [] ∧
      (∀ j n, Net.LeadsIn j (firstMeeting (.whole ClientSys.online) (.whole smallSite.sys) .little
        .big ⟨[], [], [107]⟩ 4 ((), -1) ((), ())) n → j ≤ k ∧ Net.LeadsIn (k - j) n last) ∧
      Agreed id (.whole smallSite.sys) .big 4 smallSite [107] () last := by
  have hshort : Short (⟨[], [], [107]⟩ : ServerConnection).key_ := by simp [Short]
  refine handshake_agreement (Env.whole_prompt _) (Env.whole_prompt _) ClientSys.online_keeps
    ClientSys.online_routed ?_ (by decide) (by decide) hshort (by decide) (by decide) .little .big _ _
  intro s c
  cases c <;> first | rfl | trivial

end AgFS
