import AgFS.Session.Passes
import Mathlib.Data.Finset.Basic

/-! The descriptors of the server process from one command to the next. -/
namespace AgFS
open Interaction ByteOrder Sock

/-- The open descriptors after a call. -/
def descriptorsAfter (inUse : Finset Nat) : ServerEvent → Finset Nat
  | ⟨.sys (.open _ _), r⟩ =>
    match (r : Except Errno Nat) with
    | .error _ => inUse
    | .ok fd => insert fd inUse
  | ⟨.sys (.close fd), _⟩ => inUse.filter fun n => (n : Fd) ≠ fd
  | _ => inUse

/-- The open descriptors after the calls of a trace. -/
def descriptors (inUse : Finset Nat) : List ServerEvent → Finset Nat
  | [] => inUse
  | ev :: t => descriptors (descriptorsAfter inUse ev) t

/-- A call of `open` gives a descriptor that is not in use. -/
def Fresh (inUse : Finset Nat) : List ServerEvent → Prop
  | [] => True
  | ev :: t => (∀ path flags fd, ev = ⟨.sys (.open path flags), Except.ok fd⟩ → fd ∉ inUse) ∧
    Fresh (descriptorsAfter inUse ev) t

def Opens (t : List ServerEvent) : Prop :=
  ∃ path flags fd, (⟨.sys (.open path flags), Except.ok fd⟩ : ServerEvent) ∈ t

/-- A write to a file has failed or stored nothing. -/
def Refuses (t : List ServerEvent) : Prop :=
  ∃ fd bs r, (⟨.sys (.write fd bs), r⟩ : ServerEvent) ∈ t ∧
    ∀ count fits, (r : WriteReply bs.length) = .wrote count fits → count = 0

/-- The commands whose handlers keep a file open: a read of a file that opens, and a write
to one that opens and then refuses a part of the data. -/
def Leaks (command : CmdT) (t : List ServerEvent) : Prop :=
  command = cmd.READ ∧ Opens t ∨ command = cmd.WRITE ∧ Opens t ∧ Refuses t

/-- Traces between which neither the descriptors nor the files can tell. -/
structure SameUse (t u : List ServerEvent) : Prop where
  descriptors (inUse : Finset Nat) : descriptors inUse t = descriptors inUse u
  fresh (inUse : Finset Nat) : Fresh inUse t → Fresh inUse u
  opens : Opens t ↔ Opens u
  refuses : Refuses t ↔ Refuses u

private theorem SameUse.trans {t u v : List ServerEvent} (h : SameUse t u) (h' : SameUse u v) :
    SameUse t v :=
  ⟨fun inUse => (h.descriptors inUse).trans (h'.descriptors inUse),
    fun inUse hf => h'.fresh inUse (h.fresh inUse hf), h.opens.trans h'.opens,
    h.refuses.trans h'.refuses⟩

/-- Calls that open and close no file. -/
def Neutral : ServerCall → Prop
  | .open _ _ => False
  | .close _ => False
  | _ => True

/-- Calls that open, close and write no file. -/
def Aside : ServerCall → Prop
  | .write _ _ => False
  | c => Neutral c

private theorem neutral_of_aside {call : SockCall Kind ServerSys} (h : Within Aside call) :
    Within Neutral call := by
  cases call with
  | sys c =>
    cases c with
    | write fd bs => trivial
    | _ => exact h
  | _ => trivial

private theorem descriptorsAfter_neutral {ev : ServerEvent} (h : Within Neutral ev.call)
    (inUse : Finset Nat) : descriptorsAfter inUse ev = inUse := by
  obtain ⟨call, r⟩ := ev
  cases call with
  | sys c =>
    cases c with
    | «open» path flags => exact h.elim
    | close fd => exact h.elim
    | _ => rfl
  | _ => rfl

theorem SameUse.cons (ev : ServerEvent) (h : Within Aside ev.call) (t : List ServerEvent) :
    SameUse (ev :: t) t := by
  have hafter := descriptorsAfter_neutral (neutral_of_aside h)
  refine ⟨fun inUse => ?_, fun inUse hf => ?_, ?_, ?_⟩
  · rw [AgFS.descriptors, hafter]
  · exact hafter inUse ▸ hf.2
  · constructor
    · rintro ⟨path, flags, fd, hmem⟩
      rcases List.mem_cons.mp hmem with rfl | hmem
      · exact h.elim
      · exact ⟨path, flags, fd, hmem⟩
    · rintro ⟨path, flags, fd, hmem⟩
      exact ⟨path, flags, fd, List.mem_cons_of_mem _ hmem⟩
  · constructor
    · rintro ⟨fd, bs, r, hmem, hr⟩
      rcases List.mem_cons.mp hmem with rfl | hmem
      · exact h.elim
      · exact ⟨fd, bs, r, hmem, hr⟩
    · rintro ⟨fd, bs, r, hmem, hr⟩
      exact ⟨fd, bs, r, List.mem_cons_of_mem _ hmem, hr⟩

private theorem SameUse.append {t : List ServerEvent} (h : ∀ ev ∈ t, Within Aside ev.call)
    (u : List ServerEvent) : SameUse (t ++ u) u := by
  induction t with
  | nil => exact ⟨fun _ => rfl, fun _ => id, Iff.rfl, Iff.rfl⟩
  | cons ev t ih =>
    have hrest := ih fun ev hev => h ev (List.mem_cons_of_mem _ hev)
    exact (SameUse.cons ev (h ev List.mem_cons_self) _).trans hrest

theorem SameUse.skip {α β : Type} {t : List ServerEvent} {p : ServerIo α} {f : α → ServerIo β} {b : β}
    (h : Runs (p >>= f) t (.ret b)) (hp : p.Only (Within Aside)) :
    ∃ a u, SameUse t u ∧ Runs (f a) u (.ret b) := by
  obtain ⟨t₁, u, a, rfl, h₁, h₂⟩ := Runs.bind_ret_iff.mp h
  exact ⟨a, u, .append (hp.runs h₁) u, h₂⟩

theorem SameUse.last {α : Type} {t : List ServerEvent} {p : ServerIo α} {a : α}
    (h : Runs p t (.ret a)) (hp : p.Only (Within Aside)) : SameUse t [] := by
  have hsame := SameUse.append (hp.runs h) []
  rwa [List.append_nil] at hsame

private theorem not_opens_nil : ¬ Opens [] := by
  rintro ⟨_, _, _, ⟨⟩⟩

private theorem not_refuses_nil : ¬ Refuses [] := by
  rintro ⟨_, _, _, ⟨⟩, _⟩

private theorem descriptors_neutral {inUse : Finset Nat} {t : List ServerEvent}
    (h : ∀ ev ∈ t, Within Neutral ev.call) : descriptors inUse t = inUse := by
  induction t with
  | nil => rfl
  | cons ev t ih =>
    rw [descriptors, descriptorsAfter_neutral (h ev List.mem_cons_self)]
    exact ih fun ev hev => h ev (List.mem_cons_of_mem _ hev)

private theorem descriptors_append (inUse : Finset Nat) (t u : List ServerEvent) :
    descriptors inUse (t ++ u) = descriptors (descriptors inUse t) u := by
  induction t generalizing inUse with
  | nil => rfl
  | cons ev t ih => exact ih _

private theorem fresh_append {inUse : Finset Nat} {t u : List ServerEvent} :
    Fresh inUse (t ++ u) ↔ Fresh inUse t ∧ Fresh (descriptors inUse t) u := by
  induction t generalizing inUse with
  | nil => exact (and_iff_right trivial).symm
  | cons ev t ih => exact (and_congr_right fun _ => ih).trans and_assoc.symm

theorem refuses_append {t u : List ServerEvent} : Refuses (t ++ u) ↔ Refuses t ∨ Refuses u := by
  constructor
  · rintro ⟨fd, bs, r, hmem, hr⟩
    rcases List.mem_append.mp hmem with hmem | hmem
    · exact .inl ⟨fd, bs, r, hmem, hr⟩
    · exact .inr ⟨fd, bs, r, hmem, hr⟩
  · rintro (⟨fd, bs, r, hmem, hr⟩ | ⟨fd, bs, r, hmem, hr⟩)
    · exact ⟨fd, bs, r, List.mem_append_left _ hmem, hr⟩
    · exact ⟨fd, bs, r, List.mem_append_right _ hmem, hr⟩

section Opening
variable {inUse : Finset Nat} {t u : List ServerEvent} {path : Str} {flags : UInt32} {fd : Nat}

private theorem opens_error {err : Errno} :
    Opens (⟨.sys (.open path flags), Except.error err⟩ :: t) ↔ Opens t := by
  constructor
  · rintro ⟨path', flags', fd, hmem⟩
    rcases List.mem_cons.mp hmem with he | hmem
    · cases he
    · exact ⟨path', flags', fd, hmem⟩
  · rintro ⟨path', flags', fd, hmem⟩
    exact ⟨path', flags', fd, List.mem_cons_of_mem _ hmem⟩

private theorem opens_ok : Opens (⟨.sys (.open path flags), Except.ok fd⟩ :: t) :=
  ⟨path, flags, fd, List.mem_cons_self⟩

private theorem insert_ne_self (h : fd ∉ inUse) : insert fd inUse ≠ inUse := fun he =>
  h (he ▸ Finset.mem_insert_self fd inUse)

/-- A descriptor that was not in use is in use no more when it has been closed. -/
theorem filter_insert_fresh (h : fd ∉ inUse) :
    (insert fd inUse).filter (fun n : Nat => (n : Fd) ≠ (fd : Fd)) = inUse := by
  ext n
  simp only [Finset.mem_filter, Finset.mem_insert, ne_eq, Nat.cast_inj]
  constructor
  · rintro ⟨rfl | hmem, hne⟩
    · exact absurd rfl hne
    · exact hmem
  · intro hmem
    refine ⟨.inr hmem, ?_⟩
    rintro rfl
    exact h hmem

private theorem filter_negative (inUse : Finset Nat) :
    inUse.filter (fun n : Nat => (n : Fd) ≠ -1) = inUse := by
  refine Finset.filter_true_of_mem fun n _ he => ?_
  have hn : (0 : Int) ≤ n := Int.natCast_nonneg n
  rw [he] at hn
  exact absurd hn (by decide)

end Opening

section Handlers
variable {host : Endian} {self : ClientConnection} {inUse : Finset Nat} {t : List ServerEvent}

theorem processRead_descriptors (h : Runs (self.processRead host) t (.ret ()))
    (hf : Fresh inUse t) : descriptors inUse t = inUse ↔ ¬ Opens t := by
  obtain ⟨read, u₁, hu₁, h₁⟩ := SameUse.skip h (only_readString ..)
  obtain ⟨size, u₂, hu₂, h₂⟩ := SameUse.skip h₁ (only_readSize ..)
  obtain ⟨offset, u₃, hu₃, h₃⟩ := SameUse.skip h₂ (only_readSize ..)
  have hu := hu₁.trans (hu₂.trans hu₃)
  obtain ⟨r, u, rfl, h₄⟩ := Sock.runs_sys.mp h₃
  rw [hu.descriptors, hu.opens]
  cases r with
  | error err =>
    have hlast := SameUse.last h₄ (.bind (only_writeError ..) fun _ => trivial)
    rw [opens_error, hlast.opens]
    exact iff_of_true (hlast.descriptors inUse) not_opens_nil
  | ok fd =>
    have hfresh := (hu.fresh inUse hf).1 _ _ fd rfl
    have hlast := SameUse.last h₄ <| .bind (only_sys trivial) fun _ =>
      .bind (only_vectorResize _) fun _ => .bind (only_readLoop (fun _ => trivial) ..) fun _ =>
        .bind (only_writeError ..) fun _ =>
          .ite (.bind (only_writeSize ..) fun _ => .bind (only_send ..) fun _ => trivial) trivial
    refine iff_of_false ?_ (not_not_intro opens_ok)
    exact (hlast.descriptors (insert fd inUse)).trans_ne (insert_ne_self hfresh)

theorem processOpen_descriptors (h : Runs (self.processOpen host) t (.ret ()))
    (hf : Fresh inUse t) : descriptors inUse t = inUse := by
  obtain ⟨read, u₁, hu₁, h₁⟩ := SameUse.skip h (only_readString ..)
  obtain ⟨mask, u₂, hu₂, h₂⟩ := SameUse.skip h₁ (only_readMask ..)
  have hu := hu₁.trans hu₂
  obtain ⟨r, u, rfl, h₃⟩ := Sock.runs_sys.mp h₂
  rw [hu.descriptors]
  cases r with
  | error err =>
    obtain ⟨_, v, rfl, h₄⟩ := Sock.runs_sys.mp h₃
    have hlast := SameUse.last h₄ (.bind (only_writeError ..) fun _ => trivial)
    exact (hlast.descriptors _).trans (filter_negative inUse)
  | ok fd =>
    have hfresh := (hu.fresh inUse hf).1 _ _ fd rfl
    obtain ⟨_, v, rfl, h₄⟩ := Sock.runs_sys.mp h₃
    have hlast := SameUse.last h₄ (.bind (only_writeError ..) fun _ => trivial)
    exact (hlast.descriptors _).trans (filter_insert_fresh hfresh)

/-- The loop of `processWrite` ends early exactly when the file has refused a part. -/
private theorem ended_not_refused {error : AgerrT} {total : AgsizeT} :
    ¬ ∃ err, ClientConnection.Stored.ended error total = .refused err := by
  rintro ⟨err, h⟩
  cases h

theorem storeLoop_refuses {socket fd : Fd} {fuel left : Nat} {err : AgerrT} {total : AgsizeT}
    {stored : ClientConnection.Stored}
    (h : Runs (ClientConnection.storeLoop socket fd fuel left err total) t (.ret stored)) :
    Refuses t ↔ ∃ err, stored = .refused err := by
  induction fuel generalizing left err total t with
  | zero =>
    obtain ⟨rfl, hret⟩ := Runs.ret_iff.mp h
    cases hret
    exact iff_of_false not_refuses_nil ended_not_refused
  | succ fuel ih =>
    have ended {u : List ServerEvent} {err : AgerrT} {total : AgsizeT}
        (h : Runs (.ret (.ended err total)) u (.ret stored)) :
        Refuses u ↔ ∃ err, stored = .refused err := by
      obtain ⟨rfl, hret⟩ := Runs.ret_iff.mp h
      cases hret
      exact iff_of_false not_refuses_nil ended_not_refused
    rw [ClientConnection.storeLoop] at h
    split at h
    · exact ended h
    obtain ⟨r, u, rfl, h₁⟩ := Sock.runs_recv.mp h
    have hrecv := SameUse.cons ⟨.recv .data socket left, r⟩ trivial u
    rw [hrecv.refuses]
    cases r with
    | fail err => exact ended h₁
    | got chunk hchunk =>
      dsimp only at h₁
      split at h₁
      · exact ended h₁
      obtain ⟨r, v, rfl, h₂⟩ := Sock.runs_sys.mp h₁
      cases r with
      | fail err =>
        obtain ⟨rfl, hret⟩ := Runs.ret_iff.mp h₂
        cases hret
        exact iff_of_true ⟨fd, chunk, _, List.mem_cons_self, fun _ _ h => by cases h⟩ ⟨_, rfl⟩
      | wrote count hcount =>
        dsimp only at h₂
        by_cases hzero : count = 0
        · rw [if_pos hzero] at h₂
          obtain ⟨t₁, t₂, err, rfl, -, h₃⟩ := Runs.bind_ret_iff.mp h₂
          obtain ⟨-, hret⟩ := Runs.ret_iff.mp h₃
          cases hret
          refine iff_of_true ⟨fd, chunk, _, List.mem_cons_self, ?_⟩ ⟨_, rfl⟩
          rintro _ _ ⟨⟩
          exact hzero
        · rw [if_neg hzero] at h₂
          rw [← ih h₂]
          constructor
          · rintro ⟨fd', bs, r, hmem, hr⟩
            rcases List.mem_cons.mp hmem with he | hmem
            · cases he
              exact absurd (hr count hcount rfl) hzero
            · exact ⟨fd', bs, r, hmem, hr⟩
          · rintro ⟨fd', bs, r, hmem, hr⟩
            exact ⟨fd', bs, r, List.mem_cons_of_mem _ hmem, hr⟩

theorem storeLoop_descriptors {socket fd : Fd} {fuel left : Nat} {err : AgerrT} {total : AgsizeT}
    {stored : ClientConnection.Stored}
    (h : Runs (ClientConnection.storeLoop socket fd fuel left err total) t (.ret stored)) :
    descriptors inUse t = inUse := by
  refine descriptors_neutral ?_
  exact (only_storeLoop (fun _ => trivial) (fun _ => trivial) trivial fuel left err total).runs h

theorem processWrite_descriptors (h : Runs (self.processWrite host) t (.ret ()))
    (hf : Fresh inUse t) : descriptors inUse t = inUse ↔ ¬ (Opens t ∧ Refuses t) := by
  obtain ⟨read, u₁, hu₁, h₁⟩ := SameUse.skip h (only_readString ..)
  obtain ⟨r, u, rfl, h₂⟩ := Sock.runs_sys.mp h₁
  rw [hu₁.descriptors, hu₁.opens, hu₁.refuses]
  cases r with
  | error err =>
    have hlast := SameUse.last h₂ (.bind (only_writeError ..) fun _ => trivial)
    rw [opens_error, hlast.opens]
    exact iff_of_true (hlast.descriptors inUse) fun hopens => not_opens_nil hopens.1
  | ok fd =>
    have hfresh := (hu₁.fresh inUse hf).1 _ _ fd rfl
    obtain ⟨_, v₁, hv₁, h₃⟩ := SameUse.skip h₂ (only_writeError ..)
    obtain ⟨size, v₂, hv₂, h₄⟩ := SameUse.skip h₃ (only_readSize ..)
    obtain ⟨offset, v₃, hv₃, h₅⟩ := SameUse.skip h₄ (only_readSize ..)
    obtain ⟨_, v₄, hv₄, h₆⟩ := SameUse.skip h₅ (only_sys trivial)
    obtain ⟨_, v, hv₅, h₇⟩ := SameUse.skip h₆ (only_vectorResize _)
    have hv := hv₁.trans (hv₂.trans (hv₃.trans (hv₄.trans hv₅)))
    obtain ⟨t₁, t₂, stored, rfl, hloop, hfinish⟩ := Runs.bind_ret_iff.mp h₇
    have hopened : Refuses (⟨.sys (.open (cstr (self.file read.2)) O_WRONLY), Except.ok fd⟩ :: u) ↔
        Refuses u := by
      refine (refuses_append (t := [_])).trans (or_iff_right ?_)
      rintro ⟨fd', bs, r, hmem, -⟩
      cases List.mem_singleton.mp hmem
    have hafter : descriptors inUse
        (⟨.sys (.open (cstr (self.file read.2)) O_WRONLY), Except.ok fd⟩ :: u) =
        descriptors (insert fd inUse) t₂ := by
      refine (hv.descriptors (insert fd inUse)).trans ?_
      rw [descriptors_append, storeLoop_descriptors hloop]
    rw [hafter, hopened, hv.refuses, refuses_append, storeLoop_refuses hloop]
    cases stored with
    | refused err =>
      have hlast := SameUse.last hfinish (.bind (only_writeError ..) fun _ => trivial)
      refine iff_of_false ?_ (not_not_intro ⟨opens_ok, .inl ⟨err, rfl⟩⟩)
      exact (hlast.descriptors _).trans_ne (insert_ne_self hfresh)
    | ended err total =>
      obtain ⟨_, w, rfl, h₈⟩ := Sock.runs_sys.mp hfinish
      have hlast := SameUse.last h₈ <| .bind (only_writeError ..) fun _ =>
        .ite (.bind (only_writeSize ..) fun _ => trivial) trivial
      refine iff_of_true ((hlast.descriptors _).trans (filter_insert_fresh hfresh)) ?_
      rintro ⟨-, ⟨_, ⟨⟩⟩ | hrefuses⟩
      obtain ⟨fd', bs, r, hmem, hr⟩ := hrefuses
      rcases List.mem_cons.mp hmem with he | hmem
      · cases he
      · exact not_refuses_nil (hlast.refuses.mp ⟨fd', bs, r, hmem, hr⟩)

private theorem not_leaks {command : CmdT} (hread : command ≠ cmd.READ) (hwrite : command ≠ cmd.WRITE) :
    ¬ Leaks command t := by
  rintro (⟨he, -⟩ | ⟨he, -⟩)
  · exact hread he
  · exact hwrite he

/-- A handler that returns to the command loop leaves the descriptors as they were, unless it
is one that leaks. -/
theorem dispatch_descriptors {command : CmdT} {next : ClientConnection}
    (h : Runs (self.dispatch host command) t (.ret (.inl next))) (hf : Fresh inUse t) :
    descriptors inUse t = inUse ↔ ¬ Leaks command t := by
  have handled {p : ServerIo Unit} (h : Runs (p >>= fun _ =>
      (return .inl self : ServerIo (ClientConnection ⊕ ClientConnection))) t (.ret (.inl next))) :
      Runs p t (.ret ()) := by
    obtain ⟨t₁, t₂, a, rfl, h₁, h₂⟩ := Runs.bind_ret_iff.mp h
    obtain ⟨rfl, -⟩ := Runs.ret_iff.mp h₂
    rwa [List.append_nil]
  have keeps {p : ServerIo Unit} (h : Runs p t (.ret ())) (hp : p.Only (Within Neutral))
      (hread : command ≠ cmd.READ) (hwrite : command ≠ cmd.WRITE) :
      descriptors inUse t = inUse ↔ ¬ Leaks command t :=
    iff_of_true (descriptors_neutral (hp.runs h)) (not_leaks hread hwrite)
  unfold ClientConnection.dispatch at h
  split at h
  · obtain ⟨_, u, -, h₁⟩ := Sock.runs_sys.mp h
    obtain ⟨-, hret⟩ := Runs.ret_iff.mp h₁
    cases hret
  split at h
  · subst command
    exact keeps (handled h) only_processHeartbeat (by decide) (by decide)
  split at h
  · subst command
    exact keeps (handled h) (processGetAttr_calls fun _ => trivial).only (by decide) (by decide)
  split at h
  · subst command
    exact keeps (handled h) (processReaddir_calls (fun _ => trivial) (fun _ => trivial)
      (fun _ => trivial) fun _ _ => trivial).only (by decide) (by decide)
  split at h
  · subst command
    exact keeps (handled h) (processAccess_calls fun _ _ => trivial).only (by decide) (by decide)
  split at h
  · subst command
    rw [processRead_descriptors (handled h) hf]
    simp [Leaks, cmd.READ, cmd.WRITE]
  split at h
  · subst command
    rw [processWrite_descriptors (handled h) hf]
    simp [Leaks, cmd.READ, cmd.WRITE]
  split at h
  · subst command
    exact iff_of_true (processOpen_descriptors (handled h) hf) (not_leaks (by decide) (by decide))
  · obtain ⟨rfl, -⟩ := Runs.ret_iff.mp h
    refine iff_of_true rfl (not_leaks ?_ ?_)
    · assumption
    · assumption

private theorem commandLoop_descriptors {next : ClientConnection}
    (h : Runs (self.commandLoop host) t (.ret (.inl next))) (hf : Fresh inUse t) :
    descriptors inUse t = inUse ↔ ¬ Leaks (decoded host t) t := by
  obtain ⟨t₁, t₂, ⟨n, command⟩, rfl, h₁, h₂⟩ := Runs.bind_ret_iff.mp h
  obtain ⟨r, u, rfl, h₃⟩ := Sock.runs_recv.mp h₁
  obtain ⟨rfl, hret⟩ := Runs.ret_iff.mp h₃
  cases hret
  have hrecv := SameUse.cons ⟨.recv .command self.socket_ 2, r⟩ trivial t₂
  have hleaks (command : CmdT) : Leaks command (⟨.recv .command self.socket_ 2, r⟩ :: t₂) ↔
      Leaks command t₂ := by
    rw [Leaks, Leaks, hrecv.opens, hrecv.refuses]
  change descriptors inUse (⟨.recv .command self.socket_ 2, r⟩ :: t₂) = inUse ↔
    ¬ Leaks (be16toh _) (⟨.recv .command self.socket_ 2, r⟩ :: t₂)
  rw [hrecv.descriptors, hleaks]
  dsimp only at h₂
  split at h₂
  · split at h₂
    · obtain ⟨_, u, -, h₄⟩ := Sock.runs_sys.mp h₂
      obtain ⟨-, hret⟩ := Runs.ret_iff.mp h₄
      cases hret
    · obtain ⟨rfl, -⟩ := Runs.ret_iff.mp h₂
      refine iff_of_true rfl ?_
      rintro (⟨-, hopens⟩ | ⟨-, hopens, -⟩)
      · exact not_opens_nil hopens
      · exact not_opens_nil hopens
  · exact dispatch_descriptors h₂ (hrecv.fresh inUse hf)

end Handlers

/-- After every pass the same descriptors are open as before it. -/
def KeepsDescriptors (inUse : Finset Nat) : List (List ServerEvent) → Prop
  | [] => True
  | t :: rest => descriptors inUse t = inUse ∧ KeepsDescriptors (descriptors inUse t) rest

/-- A session keeps its descriptors from command to command exactly when none of its commands
leaks. -/
theorem keepsDescriptors_iff {host : Endian} {self last : ClientConnection}
    {passes : List (List ServerEvent)} (h : Passes host self passes last) {inUse : Finset Nat}
    (hf : Fresh inUse passes.flatten) :
    KeepsDescriptors inUse passes ↔ ∀ t ∈ passes, ¬ Leaks (decoded host t) t := by
  induction h generalizing inUse with
  | nil => exact iff_of_true trivial nofun
  | @cons self next last t rest h passes ih =>
    obtain ⟨hfirst, hrest⟩ := fresh_append.mp hf
    rw [KeepsDescriptors, commandLoop_descriptors h hfirst, ih hrest, List.forall_mem_cons]

/-- The server of the root directory, on descriptor 4. -/
def rootServer : ClientConnection := ⟨[0x2F], 4, 0⟩

/-- A pass for a client that reads nothing from the file `/a`. -/
def emptyRead : List ServerEvent :=
  [⟨.recv .command 4 2, .got [0, 9] le_rfl⟩,
    ⟨.recv .field 4 8, .got [0, 0, 0, 0, 0, 0, 0, 1] le_rfl⟩, ⟨.malloc 2, some ⟨[0, 0], rfl⟩⟩,
    ⟨.recv .text 4 1, .got [0x61] le_rfl⟩,
    ⟨.recv .field 4 8, .got [0, 0, 0, 0, 0, 0, 0, 0] le_rfl⟩,
    ⟨.recv .field 4 8, .got [0, 0, 0, 0, 0, 0, 0, 0] le_rfl⟩,
    ⟨.sys (.open [0x2F, 0x61] O_RDONLY), Except.ok 5⟩, ⟨.sys (.lseek 5 0), Except.ok ()⟩,
    ⟨.send .field 4 (htobe64 0), .all _⟩, ⟨.send .field 4 (htobe64 0), .all _⟩,
    ⟨.send .data 4 [], .all _⟩]

private theorem runs_emptyRead :
    Runs (rootServer.commandLoop .little) emptyRead (.ret (.inl rootServer)) := by
  repeat apply Runs.step
  exact .refl _

private theorem passes_emptyRead : Passes .little rootServer [emptyRead] rootServer :=
  .cons runs_emptyRead (.nil _)

private theorem fresh_emptyRead : Fresh {4} [emptyRead].flatten := by
  simp [emptyRead, Fresh, descriptorsAfter]

theorem keepsDescriptors_iff_emptyRead :
    KeepsDescriptors {4} [emptyRead] ↔ ∀ t ∈ [emptyRead], ¬ Leaks (decoded .little t) t :=
  keepsDescriptors_iff passes_emptyRead fresh_emptyRead

/-- After this pass descriptor 5 is open next to the socket. -/
theorem not_keepsDescriptors_emptyRead :
    Passes .little rootServer [emptyRead] rootServer ∧ Fresh {4} [emptyRead].flatten ∧
      ¬ KeepsDescriptors {4} [emptyRead] := by
  refine ⟨passes_emptyRead, fresh_emptyRead, fun hkeeps => ?_⟩
  have hafter : descriptors {4} emptyRead = {4} := hkeeps.1
  exact absurd hafter (by decide)

end AgFS
