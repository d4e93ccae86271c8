import AgFS.Admission.Admission

/-! Which admissions are vouched for by a complete record of the key file. -/
namespace AgFS
open Interaction ByteOrder Tokens
open ClientConnection (AuthScan)

/-- The server's machine, as far as an admission depends on it. -/
structure Site where
  content : Bytes
  accounts : Str → Option Passwd
  mounts : Str → Bool

/-- The answers such a machine gives. -/
def Site.Answers (site : Site) : (c : ServerCall) → ServerSys.Reply c → Prop
  | .readAuthkeys, r => r = some site.content
  | .getpwnam name, r => r = site.accounts name
  | .fileExists path, r => r = .ok (site.mounts path)
  | _, _ => True

/-- A complete record vouches for what an admission has granted. -/
def Vouched (site : Site) (key : Str) (t : List (Event (Sock Kind ServerSys)))
    (self : ClientConnection) : Prop :=
  ∃ r ∈ records (words site.content), r.key = key ∧ self.mountPoint_ = r.mount ∧
    ∃ pwd, sysEvent (.getpwnam (cstr r.user)) (some pwd) ∈ t

/-- Whenever the constructor accepts after such an arrival, a record vouches for it. -/
def AdmitsSoundly {host : Endian} {key : Option Buffer} (connfd : Fd) (site : Site)
    (a : Arrival host key) : Prop :=
  ∀ t self, Runs (ClientConnection.create host connfd) (a.events connfd ++ t) (.ret self) →
    (∀ c r, sysEvent c r ∈ t → site.Answers c r) → self.socket_ = connfd →
    Vouched site (keyOf key) t self

/-- No key, in a file without a record: what the file has of a first record is accepted. -/
def EmptyKeySlip (site : Site) (arrived : Str) : Prop :=
  let ws := words site.content
  arrived = [] ∧ ws.length < 3 ∧ (site.accounts (cstr (ws[1]?.getD []))).isSome ∧
    site.mounts (cstr (ws[0]?.getD []))

/-- Another string arrives than was sent, and opens what only that string is recorded for. -/
def StrayKeySlip (site : Site) (sent arrived : Str) : Prop :=
  arrived ≠ sent ∧ ∃ r, ((records (words site.content)).find? fun r => r.key = arrived) = some r ∧
    (site.accounts (cstr r.user)).isSome ∧ site.mounts (cstr r.mount) ∧
    ∀ r' ∈ records (words site.content), r'.key = sent → r'.mount = r.mount →
      cstr r'.user ≠ cstr r.user

section
variable {host : Endian} {connfd : Fd} {key : Option Buffer}

/-- The constructor accepts what the scan has matched, if the account and the mount exist. -/
theorem Arrival.admits (a : Arrival host key) (connfd : Fd) {content : Bytes} {mount user : Str}
    (hm : matched (words content) a.arrived = some (mount, user)) (pwd : Passwd)
    (r₁ r₂ : Except Errno Unit) :
    Runs (ClientConnection.create host connfd)
      (a.events connfd ++ admission (some content) mount user pwd r₁ r₂)
      (.ret ⟨mount, connfd, 0⟩) := by
  obtain ⟨err, hread⟩ := a.runs connfd
  refine Runs.bind_ret_iff.mpr ⟨_, _, _, rfl, hread, ?_⟩
  have hscan := AuthScan.run_start content a.arrived
  rw [hm] at hscan
  obtain ⟨stream, k, hrun⟩ := hscan
  refine Sock.runs_sys.mpr ⟨some content, _, rfl, ?_⟩
  simp only [Option.getD_some, hrun]
  refine Sock.runs_sys.mpr ⟨some pwd, _, rfl, Sock.runs_sys.mpr ⟨r₁, _, rfl, ?_⟩⟩
  refine Sock.runs_sys.mpr ⟨r₂, _, rfl, Sock.runs_sys.mpr ⟨.ok true, _, rfl, ?_⟩⟩
  exact .refl _

theorem create_admits (host : Endian) (connfd : Fd) {content : Bytes} {key : Option Buffer}
    {mount user : Str} (hm : matched (words content) (cstr (keyOf key)) = some (mount, user))
    (pwd : Passwd) (r₁ r₂ : Except Errno Unit) :
    ∃ t₀, (∀ c r, sysEvent c r ∉ t₀) ∧ Sock.heard t₀ = sentKey key ∧
      Runs (ClientConnection.create host connfd)
        (t₀ ++ admission (some content) mount user pwd r₁ r₂)
        (.ret ⟨mount, connfd, 0⟩) := by
  rw [← Arrival.arrived_whole host key] at hm
  exact ⟨_, Arrival.sysEvent_notMem _ connfd, Arrival.heard_whole host key connfd,
    Arrival.admits _ connfd hm pwd r₁ r₂⟩

theorem heard_admission (content : Option Bytes) (mount user : Str) (pwd : Passwd)
    (r₁ r₂ : Except Errno Unit) : Sock.heard (admission content mount user pwd r₁ r₂) = [] := rfl

theorem mem_admission {content : Option Bytes} {mount user name : Str} {pwd : Passwd}
    {r₁ r₂ : Except Errno Unit} {account : Option Passwd}
    (h : sysEvent (.getpwnam name) account ∈ admission content mount user pwd r₁ r₂) :
    name = cstr user := by
  simp only [admission, sysEvent, List.mem_cons, List.not_mem_nil, or_false] at h
  rcases h with h | h | h | h | h
  all_goals cases h
  rfl

/-- What the constructor has done when it accepts after such an arrival. -/
theorem Arrival.accepts (a : Arrival host key) (hf : 0 ≤ connfd)
    {t : List (Event (Sock Kind ServerSys))} {self : ClientConnection}
    (h : Runs (ClientConnection.create host connfd) (a.events connfd ++ t) (.ret self))
    (hs : self.socket_ = connfd) :
    ∃ content mount user pwd r₁ r₂, t = admission content mount user pwd r₁ r₂ ∧
      self = ⟨mount, connfd, 0⟩ ∧
      ∀ bytes, content = some bytes → matched (words bytes) a.arrived = some (mount, user) := by
  have hopen : self.socket_ ≠ -1 := by
    rw [hs]
    intro h
    rw [h] at hf
    exact absurd hf (by decide)
  obtain ⟨err, hread⟩ := a.runs connfd
  obtain ⟨t₀, err', clientKey, content, scan, pwd, r₁, r₂, hread', hscan, htrace, hself⟩ :=
    create_accepts h hopen
  obtain ⟨rfl, hkey, rfl⟩ := hread.ret_prefix hread' htrace
  obtain rfl : a.arrived = clientKey := congrArg Prod.snd hkey
  refine ⟨content, scan.mountPath, scan.user, pwd, r₁, r₂, rfl, hself, ?_⟩
  rintro bytes rfl
  exact AuthScan.matched_of_run hscan

private theorem AdmitsSoundly.vouched {site : Site} {a : Arrival host key} (h : AdmitsSoundly connfd site a)
    {mount user : Str} (hm : matched (words site.content) a.arrived = some (mount, user))
    (ha : (site.accounts (cstr user)).isSome) (hx : site.mounts (cstr mount)) :
    ∃ r ∈ records (words site.content), r.key = keyOf key ∧ r.mount = mount ∧
      cstr r.user = cstr user := by
  obtain ⟨pwd, hpwd⟩ := Option.isSome_iff_exists.mp ha
  obtain ⟨r, hr, hk, hmount, account, hmem⟩ := h _ _ (a.admits connfd hm pwd (.ok ()) (.ok ())) (by
    intro c reply hmem
    simp only [admission, sysEvent, List.mem_cons, List.not_mem_nil, or_false] at hmem
    rcases hmem with hmem | hmem | hmem | hmem | hmem
    all_goals cases hmem
    · rfl
    · exact hpwd.symm
    · trivial
    · trivial
    · exact congrArg Except.ok hx.symm) rfl
  exact ⟨r, hr, hk, hmount.symm, mem_admission hmem⟩

end

/-- The constructor accepts only what a complete record vouches for, unless nothing arrives
where the file has no record, or something else arrives than was sent. -/
theorem admitsSoundly_iff {host : Endian} {connfd : Fd} (hf : 0 ≤ connfd) (site : Site)
    {key : Option Buffer} (a : Arrival host key) :
    AdmitsSoundly connfd site a ↔
      ¬ EmptyKeySlip site a.arrived ∧ ¬ StrayKeySlip site (keyOf key) a.arrived := by
  constructor
  · intro h
    constructor
    · rintro ⟨hk, hshort, ha, hx⟩
      have hm := matched_of_short hshort a.arrived
      rw [if_pos hk] at hm
      obtain ⟨r, hr, -⟩ := h.vouched hm ha hx
      rw [records_of_short hshort] at hr
      cases hr
    · rintro ⟨-, r, hfind, ha, hx, hno⟩
      have hm : matched (words site.content) a.arrived = some (r.mount, r.user) := by
        rw [matched, hfind]
      obtain ⟨r', hr', hk, hmount, huser⟩ := h.vouched hm ha hx
      exact hno r' hr' hk hmount huser
  · rintro ⟨hempty, hstray⟩ t self hrun hsite hs
    obtain ⟨content, mount, user, pwd, r₁, r₂, rfl, rfl, hscan⟩ := a.accepts hf hrun hs
    obtain rfl : content = some site.content :=
      hsite .readAuthkeys content (by simp [admission])
    have hm := hscan _ rfl
    have ha : some pwd = site.accounts (cstr user) :=
      hsite (.getpwnam (cstr user)) (some pwd) (by simp [admission])
    have hx : Except.ok true = Except.ok (site.mounts (cstr mount)) :=
      hsite (.fileExists (cstr mount)) (.ok true) (by simp [admission])
    have huser : sysEvent (.getpwnam (cstr user)) (some pwd) ∈
        admission (some site.content) mount user pwd r₁ r₂ := by simp [admission]
    have hsome : (site.accounts (cstr user)).isSome := by
      rw [← ha]
      rfl
    have hmount : site.mounts (cstr mount) := (Except.ok.inj hx).symm
    rcases hfind : (records (words site.content)).find? fun r => r.key = a.arrived with _ | r
    · rw [matched, hfind] at hm
      simp only [Option.ite_none_right_eq_some, Option.some.injEq, Prod.mk.injEq] at hm
      obtain ⟨⟨hk, hshort⟩, rfl, rfl⟩ := hm
      exact (hempty ⟨hk, hshort, hsome, hmount⟩).elim
    · rw [matched, hfind] at hm
      cases hm
      have hr := List.mem_of_find?_eq_some hfind
      have hk : r.key = a.arrived := by simpa using List.find?_some hfind
      by_cases hsent : a.arrived = keyOf key
      · exact ⟨r, hr, hk.trans hsent, rfl, pwd, huser⟩
      · by_contra hno
        refine hstray ⟨hsent, r, hfind, hsome, hmount, fun r' hr' hk' hm' hu => hno ?_⟩
        exact ⟨r', hr', hk', hm'.symm, pwd, by rwa [hu]⟩

/-- The key file `/srv alice k`, where both alice and `/srv` exist. -/
def finishedSite : Site where
  content := [47, 115, 114, 118, 32, 97, 108, 105, 99, 101, 32, 107]
  accounts name := if name = [97, 108, 105, 99, 101] then some ⟨1000, 1000⟩ else none
  mounts path := path = [47, 115, 114, 118]

/-- Of the key `kx` only `k` arrives, over memory of zeros. -/
def cutShort : Arrival .little (some ⟨[107, 120], by decide⟩) :=
  .read (.got (htobe64 2) (by simp)) (by decide) (Block.zeros _) (.got [107] (by decide)) (by decide)

theorem admitsSoundly_iff_cutShort :
    AdmitsSoundly 4 finishedSite cutShort ↔
      ¬ EmptyKeySlip finishedSite cutShort.arrived ∧
        ¬ StrayKeySlip finishedSite [107, 120] cutShort.arrived :=
  admitsSoundly_iff (by decide) finishedSite cutShort

/-- The key file `/srv alice`, with the key missing, where both alice and `/srv` exist. -/
def unfinishedSite : Site where
  content := [47, 115, 114, 118, 32, 97, 108, 105, 99, 101]
  accounts name := if name = [97, 108, 105, 99, 101] then some ⟨1000, 1000⟩ else none
  mounts path := path = [47, 115, 114, 118]

/-- Whoever sends nothing is taken for alice. -/
theorem not_admitsSoundly_unfinished :
    ¬ AdmitsSoundly 4 unfinishedSite (.unread .EAGAIN : Arrival .little none) := by
  intro h
  have hm : matched (words unfinishedSite.content) (.unread .EAGAIN : Arrival .little none).arrived =
      some ([47, 115, 114, 118], [97, 108, 105, 99, 101]) := by decide
  obtain ⟨r, hr, -⟩ := h.vouched hm (by decide) (by decide)
  exact List.not_mem_nil (a := r) hr

end AgFS
