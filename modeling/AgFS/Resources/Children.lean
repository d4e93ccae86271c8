import AgFS.Resources.Daemon

/-! Every connection is served by one child of the daemon, and held by no other process but for the daemon while
that passes it on. -/
namespace AgFS
open Interaction ByteOrder Sock Function

variable {host : Endian} {inherited : Finset Nat} {argv : List Str}

/-- What a process at a stage holds. `served` tells which connection a child serves. -/
inductive Stands (inherited : Finset Nat) (accepted : Nat) (served : Nat → Option Nat) : Nat → Table → Station → Prop
  | starting : Stands inherited accepted served 0 (.holding inherited ∅) .starting
  | listening {lfd} (free : lfd ∉ inherited) :
      Stands inherited accepted served 0 (.waiting inherited lfd) (.listening lfd)
  | holding {lfd fd c} (free : lfd ∉ inherited) (closed : fd ∉ inherited) (other : fd ≠ lfd) (known : c < accepted)
      (fresh : ∀ n, served n ≠ some c) :
      Stands inherited accepted served 0 (.passing inherited lfd fd c) (.holding lfd fd)
  | dropping {lfd fd c} (free : lfd ∉ inherited) (closed : fd ∉ inherited) (other : fd ≠ lfd) :
      Stands inherited accepted served 0 (.passing inherited lfd fd c) (.dropping lfd fd)
  | born {n lfd fd c} (serves : served n = some c) (free : lfd ∉ inherited) (closed : fd ∉ inherited)
      (other : fd ≠ lfd) : Stands inherited accepted served n (.passing inherited lfd fd c) (.born lfd fd)
  | serving {n fd files c} (serves : served n = some c) (closed : fd ∉ inherited) (other : fd ∉ files)
      (apart : ∀ fd ∈ files, fd ∉ inherited) :
      Stands inherited accepted served n (.serving inherited files fd c) (.serving fd files)
  | gone {n files} (child : n ≠ 0) : Stands inherited accepted served n (.holding inherited files) .gone

/-- Connections, transfers and tables agree with the stages of the processes. -/
structure Agreement (inherited : Finset Nat) (served : Nat → Option Nat) (s : Kernel) (next : Nat)
    (own : Nat → Option Table) (x : Nat → Station) : Prop where
  known {n c : Nat} (h : served n = some c) : n ≠ 0 ∧ n < next ∧ c < s.accepted
  once {m n c : Nat} (hm : served m = some c) (hn : served n = some c) : m = n
  transfers {e : Nat × Nat} (h : e ∈ s.transfers) : served e.1 = some e.2
  begun : 0 < next
  bounded {n : Nat} {d : Table} (h : own n = some d) : n < next
  stands {n : Nat} {d : Table} (h : own n = some d) : Stands inherited s.accepted served n d (x n)

section Steps
variable {accepted : Nat} {served : Nat → Option Nat} {s t : Kernel} {n : Nat} {d d' : Table} {x y : Station}

private theorem Stands.mono {accepted' : Nat} (h : Stands inherited accepted served n d x) (ha : accepted ≤ accepted') :
    Stands inherited accepted' served n d x := by
  cases h with
  | starting => exact .starting
  | listening free => exact .listening free
  | holding free closed other known fresh => exact .holding free closed other (known.trans_le ha) fresh
  | dropping free closed other => exact .dropping free closed other
  | born serves free closed other => exact .born serves free closed other
  | serving serves closed other apart => exact .serving serves closed other apart
  | gone child => exact .gone child

/-- What a call of a process changes. -/
structure Progress (inherited : Finset Nat) (served : Nat → Option Nat) (n : Nat) (s t : Kernel) (d : Table)
    (y : Station) : Prop where
  stands : Stands inherited t.accepted served n d y
  grows : s.accepted ≤ t.accepted
  transfers {e : Nat × Nat} (h : e ∈ t.transfers) : e ∈ s.transfers ∨ e.1 = n ∧ served n = some e.2

private theorem Stands.stays (h : Stands inherited s.accepted served n d y) : Progress inherited served n s s d y :=
  ⟨h, le_rfl, .inl⟩

private theorem transfer_serving {files : Finset Nat} {fd c : Nat} :
    s.transfer n (.serving inherited files fd c) fd = { s with transfers := s.transfers ++ [(n, c)] } := by
  have hconnection : Table.serving inherited files fd c fd = some (.connection c) := update_self ..
  change s.transfer n _ (.ofNat fd) = _
  simp only [Kernel.transfer, hconnection]

theorem Stands.serve {fd : Nat} {files : Finset Nat} {c : SockCall Kind ServerSys} {r : (Sock Kind ServerSys).Reply c}
    {y : Option (Finset Nat)} (h : Stands inherited s.accepted served n d (.serving fd files)) (hn : n ≠ 0)
    (hy : Child.Acts fd (some files) c r y) (hdoes : Kernel.Does n s d (.serve c) r t d') :
    Progress inherited served n s t d' (.child fd y) := by
  have hstays := h
  cases h with
  | @serving _ _ _ number serves closed other apart =>
    have htransfer : Progress inherited served n s { s with transfers := s.transfers ++ [(n, number)] }
        (.serving inherited files fd number) (.serving fd files) := by
      refine ⟨hstays, le_rfl, fun {e} he => ?_⟩
      rcases List.mem_append.mp he with he | he
      · exact .inl he
      · obtain rfl := List.mem_singleton.mp he
        exact .inr ⟨rfl, serves⟩
    cases hy with
    | recv =>
      cases hdoes
      rw [transfer_serving]
      exact htransfer
    | send =>
      cases hdoes
      rw [transfer_serving]
      exact htransfer
    | malloc =>
      cases hdoes
      exact hstays.stays
    | scratch =>
      cases hdoes
      exact hstays.stays
    | abort => cases hdoes
    | keeping hc =>
      cases hdoes with
      | keeping => exact hstays.stays
      | noFile => exact hc.elim
      | file => exact hc.elim
      | closeFile => exact hc.elim
    | missed =>
      cases hdoes with
      | keeping hc => exact hc.elim
      | noFile => exact hstays.stays
    | opened =>
      cases hdoes with
      | keeping hc => exact hc.elim
      | @file _ _ new free =>
        obtain ⟨hfiles, hinherited, hnew⟩ := Table.serving_none free
        rw [Table.serving_insert hnew]
        refine (Stands.serving serves closed ?_ ?_).stays
        · exact fun hmem => (Finset.mem_insert.mp hmem).elim hnew.symm other
        · exact Finset.forall_mem_insert .. |>.mpr ⟨hinherited, apart⟩
    | nothing =>
      cases hdoes with
      | keeping hc => exact hc.elim
      | closeFile => exact hstays.stays
    | @closed _ file _ hfile =>
      cases hdoes with
      | keeping hc => exact hc.elim
      | closeFile =>
        have hne : file ≠ fd := fun he => other (he ▸ hfile)
        rw [Table.close_file (apart file hfile) hne]
        refine (Stands.serving serves closed ?_ ?_).stays
        · exact fun hmem => other (Finset.mem_of_mem_erase hmem)
        · exact fun fd hfd => apart fd (Finset.mem_of_mem_erase hfd)
    | dropped =>
      cases hdoes with
      | keeping hc => exact hc.elim
      | closeFile =>
        rw [Table.close_connection closed other]
        exact (Stands.gone hn).stays

theorem Stands.call {c : DaemonCall} {r : DaemonSys.Reply c} (h : Stands inherited s.accepted served n d x)
    (hknown : ∀ m c, served m = some c → m ≠ 0 ∧ c < s.accepted) (hy : Daemon.Acts x c r y)
    (hdoes : Kernel.Does n s d c r t d') : Progress inherited served n s t d' y := by
  have hstays := h
  cases hy with
  | setuid =>
    cases hdoes
    exact hstays.stays
  | getaddrinfo =>
    cases hdoes
    exact hstays.stays
  | noSocket =>
    cases hdoes
    exact hstays.stays
  | socket =>
    cases h
    cases hdoes with
    | socket free => exact (Stands.listening (Table.holding_none.mp free).2).stays
  | setsockopt =>
    cases hdoes
    exact hstays.stays
  | bind =>
    cases hdoes
    exact hstays.stays
  | listen =>
    cases hdoes
    exact hstays.stays
  | noClient =>
    cases hdoes
    exact hstays.stays
  | client =>
    cases h with
    | listening hfree =>
      cases hdoes with
      | client free =>
        obtain ⟨hinherited, hne⟩ := Table.waiting_none free
        refine ⟨.holding hfree hinherited hne (Nat.lt_succ_self _) fun m hm => ?_, Nat.le_succ _, .inl⟩
        exact Nat.lt_irrefl _ (hknown m _ hm).2
  | noFork =>
    cases h with
    | holding free closed other =>
      cases hdoes
      exact (Stands.dropping free closed other).stays
  | forked => cases hdoes
  | born => cases hdoes
  | passed =>
    cases h with
    | dropping free closed other =>
      cases hdoes
      rw [Table.close_passing closed other]
      exact (Stands.listening free).stays
  | alone =>
    cases h with
    | born serves free closed other =>
      cases hdoes
      rw [Table.close_listener free other]
      exact (Stands.serving serves closed (Finset.notMem_empty _) fun _ => nofun).stays
  | serves hy =>
    cases h with
    | serving serves => exact hstays.serve (hknown n _ serves).1 hy hdoes

end Steps

section Agreement
variable {served : Nat → Option Nat} {s t : Kernel} {next n : Nat} {own : Nat → Option Table} {x : Nat → Station}
  {d d' : Table} {y z : Station}

private theorem Agreement.call {c : DaemonCall} {r : DaemonSys.Reply c} (h : Agreement inherited served s next own x)
    (hd : own n = some d) (hy : Daemon.Acts (x n) c r y) (hdoes : Kernel.Does n s d c r t d') :
    Agreement inherited served t next (update own n (some d')) (update x n y) := by
  have hprogress := (h.stands hd).call (fun m c hm => ⟨(h.known hm).1, (h.known hm).2.2⟩) hy hdoes
  refine ⟨fun hm => ?_, h.once, fun {e} he => ?_, h.begun, fun {m e} hm => ?_, fun {m e} hm => ?_⟩
  · obtain ⟨hchild, hlt, hknown⟩ := h.known hm
    exact ⟨hchild, hlt, hknown.trans_le hprogress.grows⟩
  · rcases hprogress.transfers he with he | ⟨rfl, hserved⟩
    · exact h.transfers he
    · exact hserved
  · rcases Forks.update_some hm with ⟨rfl, -⟩ | ⟨-, hm⟩
    · exact h.bounded hd
    · exact h.bounded hm
  · rcases Forks.update_some hm with ⟨rfl, he⟩ | ⟨hne, hm⟩
    · cases he
      rw [update_self]
      exact hprogress.stands
    · rw [update_of_ne hne]
      exact (h.stands hm).mono hprogress.grows

/-- Another child does not change what a process has to do with its own connection, unless it is the daemon with a
new one. -/
theorem Stands.other {accepted number child : Nat} (h : Stands inherited accepted served n d y) (hn : n ≠ child)
    (hstage : ∀ lfd fd, y ≠ .holding lfd fd) :
    Stands inherited accepted (update served child (some number)) n d y := by
  cases h with
  | starting => exact .starting
  | listening free => exact .listening free
  | holding => exact absurd rfl (hstage _ _)
  | dropping free closed other => exact .dropping free closed other
  | born serves free closed other => exact .born (by rwa [update_of_ne hn]) free closed other
  | serving serves closed other apart => exact .serving (by rwa [update_of_ne hn]) closed other apart
  | gone child => exact .gone child

private theorem Agreement.fork {pid : Nat} (h : Agreement inherited served s next own x) (hd : own n = some d)
    (hy : Daemon.Acts (x n) .fork (.ok (pid + 1)) y) (hz : Daemon.Acts (x n) .fork (.ok 0) z) :
    ∃ served', Agreement inherited served' s (next + 1) (update own next (some d))
      (update (update x n y) next z) := by
  have hstands := h.stands hd
  have hlt := h.bounded hd
  generalize hx : x n = stage at hstands hy hz
  cases hy with
  | @forked lfd fd =>
    cases hz
    cases hstands with
    | @holding _ _ number free closed other known fresh =>
      refine ⟨update served next (some number), fun {m c} hm => ?_, fun {m m' c} hm hm' => ?_, fun {e} he => ?_,
        Nat.succ_pos _, fun {m e} hm => ?_, fun {m e} hm => ?_⟩
      · rcases Forks.update_some hm with ⟨rfl, hc⟩ | ⟨-, hm⟩
        · cases hc
          exact ⟨(Nat.pos_iff_ne_zero.mp h.begun), Nat.lt_succ_self _, known⟩
        · obtain ⟨hchild, hlt, hknown⟩ := h.known hm
          exact ⟨hchild, hlt.trans (Nat.lt_succ_self _), hknown⟩
      · rcases Forks.update_some hm with ⟨hnew, hc⟩ | ⟨-, hold⟩
        · cases hc
          rcases Forks.update_some hm' with ⟨hnew', -⟩ | ⟨-, hold'⟩
          · exact hnew.trans hnew'.symm
          · exact absurd hold' (fresh m')
        · rcases Forks.update_some hm' with ⟨-, hc⟩ | ⟨-, hold'⟩
          · cases hc
            exact absurd hold (fresh m)
          · exact h.once hold hold'
      · have hserved := h.transfers he
        rwa [update_of_ne (h.known hserved).2.1.ne]
      · rcases Forks.update_some hm with ⟨rfl, -⟩ | ⟨-, hm⟩
        · exact Nat.lt_succ_self _
        · exact (h.bounded hm).trans (Nat.lt_succ_self _)
      · rcases Forks.update_some hm with ⟨rfl, he⟩ | ⟨hnext, hm⟩
        · cases he
          rw [update_self]
          exact .born (update_self ..) free closed other
        · rw [update_of_ne hnext]
          by_cases hm0 : m = 0
          · subst hm0
            cases hd.symm.trans hm
            rw [update_self]
            exact .dropping free closed other
          · rw [update_of_ne hm0]
            refine (h.stands hm).other hnext fun lfd fd hholding => hm0 ?_
            have hstands := h.stands hm
            rw [hholding] at hstands
            cases hstands
            rfl

private theorem Agreement.ends (h : Agreement inherited served s next own x) (n : Nat) :
    Agreement inherited served s next (update own n none) x := by
  refine ⟨h.known, h.once, h.transfers, h.begun, fun {m e} hm => ?_, fun {m e} hm => ?_⟩
  · rcases Forks.update_some hm with ⟨-, hm⟩ | ⟨-, hm⟩
    · cases hm
    · exact h.bounded hm
  · rcases Forks.update_some hm with ⟨-, hm⟩ | ⟨-, hm⟩
    · cases hm
    · exact h.stands hm

end Agreement

/-- Connections, transfers and tables agree with the stages of the processes, whichever child serves which
connection. -/
def Agrees (inherited : Finset Nat) (s : Kernel) (next : Nat) (own : Nat → Option Table) (x : Nat → Station) : Prop :=
  ∃ served, Agreement inherited served s next own x

theorem agrees_start :
    Forks.Phased Daemon.Acts Station.Rests (Agrees inherited) (agfsd.start inherited argv) fun _ => .starting := by
  refine ⟨⟨fun _ => none, nofun, nofun, nofun, Nat.one_pos, fun {m e} hm => ?_, fun {m e} hm => ?_⟩,
    Forks.update_forall (fun _ _ => nofun) (main_acts argv)⟩
  · obtain ⟨p, hp, rfl⟩ := Option.map_eq_some_iff.mp hm
    rcases Forks.update_some (f := fun _ => none) (m := 0) hp with ⟨rfl, -⟩ | ⟨-, hp⟩
    · exact Nat.one_pos
    · cases hp
  · obtain ⟨p, hp, rfl⟩ := Option.map_eq_some_iff.mp hm
    rcases Forks.update_some (f := fun _ => none) (m := 0) hp with ⟨rfl, hp⟩ | ⟨-, hp⟩
    · cases hp
      exact .starting
    · cases hp

/-- Run lemma: however the processes take turns, they agree with the stages they are at. -/
theorem agfsd_phased {s : Forks.State DaemonSys Daemon Int32 Kernel Table}
    (h : (agfsd host).Run (agfsd.start inherited argv) s) :
    ∃ x, Forks.Phased Daemon.Acts Station.Rests (Agrees inherited) s x := by
  refine Forks.Run.phased (fun hy => body_acts hy) ?_ ?_ ?_ agrees_start h
  · rintro s next own x n d c r t d' y ⟨served, hagree⟩ hd hy hdoes
    exact ⟨served, hagree.call hd hy hdoes⟩
  · rintro s next own x n d r y z ⟨served, hagree⟩ hd hy ⟨pid, rfl⟩ hz
    exact hagree.fork hd hy hz
  · rintro s next own x n ⟨served, hagree⟩
    exact ⟨served, hagree.ends n⟩

end AgFS
