import AgFS.Admission.KeySoundness
import AgFS.Codec.Calls

/-! The credentials of the server process, from the constructor on. -/
namespace AgFS
open Interaction ByteOrder Tokens
open ClientConnection (AuthScan)

/-- The real, effective and saved user or group of a process. -/
structure Ids where
  real : UInt32
  effective : UInt32
  saved : UInt32

structure Cred where
  uid : Ids
  gid : Ids

namespace Cred

def root : Cred := ⟨⟨0, 0, 0⟩, ⟨0, 0, 0⟩⟩

def setuid (c : Cred) (u : UInt32) : Option Cred :=
  if c.uid.effective = 0 then some { c with uid := ⟨u, u, u⟩ }
  else if u = c.uid.real ∨ u = c.uid.saved then some { c with uid := { c.uid with effective := u } }
  else none

def setgid (c : Cred) (g : UInt32) : Option Cred :=
  if c.uid.effective = 0 then some { c with gid := ⟨g, g, g⟩ }
  else if g = c.gid.real ∨ g = c.gid.saved then some { c with gid := { c.gid with effective := g } }
  else none

/-- A change of credentials answers what its outcome is. -/
def Changes (c : Cred) (r : Except Errno Unit) (d : Cred) : Option Cred → Prop
  | some c' => r = .ok () ∧ d = c'
  | none => (∃ err, r = .error err) ∧ d = c

def Next (c : Cred) : Event (Sock Kind ServerSys) → Cred → Prop
  | ⟨.sys (.setuid u), r⟩, d => c.Changes r d (c.setuid u)
  | ⟨.sys (.setgid g), r⟩, d => c.Changes r d (c.setgid g)
  | _, d => d = c

/-- The credentials after the calls of a trace. -/
inductive After : Cred → List (Event (Sock Kind ServerSys)) → Cred → Prop
  | refl (c : Cred) : After c [] c
  | step {c d e : Cred} {ev : Event (Sock Kind ServerSys)} {t : List (Event (Sock Kind ServerSys))}
      (h : c.Next ev d) (rest : After d t e) : After c (ev :: t) e

private theorem After.append {c e : Cred} {t u : List (Event (Sock Kind ServerSys))}
    (h : c.After (t ++ u) e) : ∃ d, c.After t d ∧ d.After u e := by
  induction t generalizing c with
  | nil => exact ⟨c, .refl c, h⟩
  | cons ev t ih =>
    cases h with
    | step hn rest =>
      obtain ⟨d, hd, he⟩ := ih rest
      exact ⟨d, .step hn hd, he⟩

private theorem After.trans {c d e : Cred} {t u : List (Event (Sock Kind ServerSys))} (h : c.After t d)
    (h' : d.After u e) : c.After (t ++ u) e := by
  induction h with
  | refl => exact h'
  | step hn _ ih => exact .step hn (ih h')

/-- Step lemma: a call that is neither `setuid` nor `setgid` changes nothing. -/
theorem next_harmless {c : Cred} {ev : Event (Sock Kind ServerSys)}
    (h : Sock.Within Harmless ev.call) (d : Cred) : c.Next ev d ↔ d = c := by
  obtain ⟨call, r⟩ := ev
  cases call with
  | sys call =>
    cases call with
    | setuid u => exact absurd h id
    | setgid g => exact absurd h id
    | _ => rfl
  | _ => rfl

theorem after_harmless {c : Cred} {t : List (Event (Sock Kind ServerSys))}
    (h : ∀ ev ∈ t, Sock.Within Harmless ev.call) (d : Cred) : c.After t d ↔ d = c := by
  induction t generalizing c with
  | nil =>
    constructor
    · rintro ⟨⟩
      rfl
    · rintro rfl
      exact .refl d
  | cons ev t ih =>
    have hev := next_harmless (c := c) (h ev List.mem_cons_self)
    have ht (c : Cred) := ih (c := c) fun ev hev => h ev (List.mem_cons_of_mem _ hev)
    constructor
    · rintro (_ | ⟨hn, rest⟩)
      obtain rfl := (hev _).mp hn
      exact (ht _).mp rest
    · rintro rfl
      exact .step ((hev d).mpr rfl) ((ht d).mpr rfl)

end Cred

/-- In every state that a session for this account reaches, the process has the effective
user and group of the account. -/
def DropsPrivileges (host : Endian) (connfd : Fd) (pwd : Passwd) : Prop :=
  ∀ t self u q c, Runs (ClientConnection.create host connfd) t (.ret self) →
    self.socket_ = connfd → (∃ name, sysEvent (.getpwnam name) (some pwd) ∈ t) →
    Loops (Child.body host) (Child.accepted self) u q → Cred.root.After (t ++ u) c →
    c.uid.effective = pwd.pwUid ∧ c.gid.effective = pwd.pwGid

private theorem only_accepted (self : ClientConnection) :
    (Child.accepted self).Only (Sock.Within Harmless) :=
  .bind (only_writeCmd ..) fun _ => trivial

private theorem only_serving (host : Endian) (self : ClientConnection) :
    (Child.body host (.serving self)).Only (Sock.Within Harmless) :=
  .bind (only_commandLoop host self) fun _ => trivial

/-- Once it has accepted, the child process stays in its command loop. -/
theorem harmless_session {host : Endian} {self : ClientConnection}
    {u : List (Event (Sock Kind ServerSys))} {q : ServerIo (Child ⊕ ClientConnection)}
    (h : Loops (Child.body host) (Child.accepted self) u q) :
    ∀ ev ∈ u, Sock.Within Harmless ev.call := by
  refine Prog.Only.loops (I := fun child => ∃ self, child = .serving self) ?_ ?_
    (only_accepted self) ?_ h
  · rintro child ⟨self, rfl⟩
    exact only_serving host self
  · rintro child t j ⟨self, rfl⟩ hrun
    obtain ⟨_, _, x, -, -, hret⟩ := Runs.bind_ret_iff.mp hrun
    obtain ⟨-, hx⟩ := Runs.ret_iff.mp hret
    cases x with
    | inl self =>
      cases hx
      exact ⟨self, rfl⟩
    | inr self => cases hx
  · intro t j hrun
    obtain ⟨_, _, x, -, -, hret⟩ := Runs.bind_ret_iff.mp hrun
    obtain ⟨-, hx⟩ := Runs.ret_iff.mp hret
    cases hx
    exact ⟨self, rfl⟩

theorem after_admission {content : Option Bytes} {mount user : Str} {pwd : Passwd}
    {r₁ r₂ : Except Errno Unit} {c : Cred}
    (h : Cred.root.After (admission content mount user pwd r₁ r₂) c) :
    ∃ d, Cred.root.setuid pwd.pwUid = some d ∧ d.Changes r₂ c (d.setgid pwd.pwGid) := by
  obtain _ | ⟨h₁, _ | ⟨h₂, _ | ⟨h₃, _ | ⟨h₄, _ | ⟨h₅, _ | _⟩⟩⟩⟩⟩ := h
  obtain rfl := h₁
  obtain rfl := h₂
  obtain rfl := h₅
  obtain ⟨-, rfl⟩ := h₃
  exact ⟨_, rfl, h₄⟩

private theorem setgid_as_user {u g : UInt32} (hu : u ≠ 0) :
    (⟨⟨u, u, u⟩, Cred.root.gid⟩ : Cred).setgid g =
      if g = 0 then some ⟨⟨u, u, u⟩, ⟨0, g, 0⟩⟩ else none := by
  simp [Cred.setgid, Cred.root, hu]

/-- An account of another user and another group never gets its group. -/
theorem not_dropsPrivileges (host : Endian) (connfd : Fd) {pwd : Passwd} (hu : pwd.pwUid ≠ 0)
    (hg : pwd.pwGid ≠ 0) : ¬ DropsPrivileges host connfd pwd := by
  intro h
  have hm : matched (words [47, 32, 97, 32, 107]) (cstr (keyOf (some ⟨[107], by decide⟩))) =
      some ([47], [97]) := by decide
  obtain ⟨t₀, hquiet, -, hrun⟩ := create_admits host connfd hm pwd (.ok ()) (.error .EACCES)
  have hstart : Cred.root.After t₀ Cred.root := by
    refine (Cred.after_harmless ?_ _).mpr rfl
    rintro ⟨call, r⟩ hev
    cases call with
    | sys c => exact absurd hev (hquiet c r)
    | _ => trivial
  have hgroup := setgid_as_user (g := pwd.pwGid) hu
  rw [if_neg hg] at hgroup
  have hafter : Cred.root.After (admission (some [47, 32, 97, 32, 107]) [47] [97] pwd (.ok ())
      (.error .EACCES)) ⟨⟨pwd.pwUid, pwd.pwUid, pwd.pwUid⟩, Cred.root.gid⟩ := by
    refine .step rfl (.step rfl (.step (d := ⟨⟨pwd.pwUid, pwd.pwUid, pwd.pwUid⟩, Cred.root.gid⟩) ?_ ?_))
    · exact ⟨rfl, rfl⟩
    · refine .step (d := ⟨⟨pwd.pwUid, pwd.pwUid, pwd.pwUid⟩, Cred.root.gid⟩) ?_ (.step rfl (.refl _))
      change Cred.Changes _ _ _ (Cred.setgid _ _)
      rw [hgroup]
      exact ⟨⟨.EACCES, rfl⟩, rfl⟩
  have haccount : sysEvent (.getpwnam (cstr [97])) (some pwd) ∈
      t₀ ++ admission (some [47, 32, 97, 32, 107]) [47] [97] pwd (.ok ()) (.error .EACCES) :=
    List.mem_append_right t₀ (by simp [admission])
  have hend := h _ _ [] _ _ hrun rfl ⟨_, haccount⟩ (.within (.refl _))
    (by rw [List.append_nil]; exact hstart.trans hafter)
  exact hg hend.2.symm

/-- The credentials are those of the account exactly if it is an account of root or of
root's group: any other user may no longer change the group. -/
theorem dropsPrivileges_iff (host : Endian) {connfd : Fd} (hf : 0 ≤ connfd) (pwd : Passwd) :
    DropsPrivileges host connfd pwd ↔ pwd.pwUid = 0 ∨ pwd.pwGid = 0 := by
  constructor
  · intro h
    by_contra hno
    obtain ⟨hu, hg⟩ := not_or.mp hno
    exact not_dropsPrivileges host connfd hu hg h
  · intro hroot t self u q c hrun hs ⟨name, hname⟩ hloop hafter
    have hopen : self.socket_ ≠ -1 := by
      rw [hs]
      intro h
      rw [h] at hf
      exact absurd hf (by decide)
    obtain ⟨t₀, err, clientKey, content, scan, account, r₁, r₂, hread, -, rfl, rfl⟩ :=
      create_accepts hrun hopen
    have hquiet := (only_readString (P := Sock.Within fun _ : ServerCall => False) host connfd []).runs hread
    obtain rfl : account = pwd := by
      rcases List.mem_append.mp hname with hmem | hmem
      · exact (hquiet _ hmem).elim
      · simp only [admission, sysEvent, List.mem_cons, List.not_mem_nil, or_false] at hmem
        rcases hmem with hmem | hmem | hmem | hmem | hmem
        all_goals cases hmem
        rfl
    obtain ⟨d, hd, hsession⟩ := hafter.append
    obtain rfl := (Cred.after_harmless (harmless_session hloop) c).mp hsession
    obtain ⟨d, hd, hadmitted⟩ := hd.append
    obtain rfl := (Cred.after_harmless (c := .root) (fun ev hev => by
      have := hquiet ev hev
      obtain ⟨call, r⟩ := ev
      cases call with
      | sys call => exact this.elim
      | _ => trivial) d).mp hd
    obtain ⟨d, hu, hg⟩ := after_admission hadmitted
    obtain rfl := Option.some.inj hu
    by_cases hu : account.pwUid = 0
    · rw [Cred.setgid, if_pos hu] at hg
      obtain ⟨-, rfl⟩ := hg
      exact ⟨rfl, rfl⟩
    · have hg' : account.pwGid = 0 := hroot.resolve_left hu
      have hgroup := setgid_as_user (g := account.pwGid) hu
      rw [if_pos hg'] at hgroup
      rw [hgroup] at hg
      obtain ⟨-, rfl⟩ := hg
      exact ⟨rfl, rfl⟩

/-- The account of root keeps its credentials. -/
theorem dropsPrivileges_iff_root :
    DropsPrivileges .little 4 ⟨0, 0⟩ ↔ (0 : UInt32) = 0 ∨ (0 : UInt32) = 0 :=
  dropsPrivileges_iff .little (by decide) ⟨0, 0⟩

theorem not_dropsPrivileges_user : ¬ DropsPrivileges .little 4 ⟨1000, 1000⟩ :=
  not_dropsPrivileges .little 4 (by decide) (by decide)

end AgFS
