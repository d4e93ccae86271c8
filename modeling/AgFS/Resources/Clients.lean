import AgFS.Resources.Children

/-! What the daemon promises its clients: each has a child of its own, which runs the code of the server and holds
nothing of the other clients. -/
namespace AgFS
open Interaction ByteOrder Sock Function

variable {host : Endian} {inherited : Finset Nat} {argv : List Str}
  {s : Forks.State DaemonSys Daemon Int32 Kernel Table}

/-! Where the connections are. -/

private theorem Table.holding_connection {files : Finset Nat} {fd number : Nat} :
    holding inherited files fd ≠ some (.connection number) := by
  rw [holding]
  split
  · simp
  · split <;> simp

private theorem Table.serving_connection {files : Finset Nat} {fd fd' number number' : Nat}
    (h : serving inherited files fd number fd' = some (.connection number')) : fd' = fd ∧ number' = number := by
  rcases Forks.update_some (f := holding inherited files) h with ⟨rfl, hc⟩ | ⟨-, hc⟩
  · cases hc
    exact ⟨rfl, rfl⟩
  · exact absurd hc holding_connection

private theorem Table.waiting_connection {lfd fd number : Nat} :
    waiting inherited lfd fd ≠ some (.connection number) := by
  intro h
  rcases Forks.update_some (f := holding inherited ∅) h with ⟨-, hc⟩ | ⟨-, hc⟩
  · cases hc
  · exact holding_connection hc

private theorem Table.passing_connection {lfd fd fd' number number' : Nat}
    (h : passing inherited lfd fd number fd' = some (.connection number')) : fd' = fd ∧ number' = number := by
  rcases Forks.update_some (f := waiting inherited lfd) h with ⟨rfl, hc⟩ | ⟨-, hc⟩
  · cases hc
    exact ⟨rfl, rfl⟩
  · exact absurd hc waiting_connection

/-- Only the daemon has a connection that it does not serve. -/
theorem Stands.held {accepted n fd c : Nat} {served : Nat → Option Nat} {d : Table} {x : Station}
    (h : Stands inherited accepted served n d x) (hc : d fd = some (.connection c)) :
    (∃ lfd, x = .holding lfd fd ∨ x = .dropping lfd fd) ∨
      served n = some c ∧ ((∃ lfd, x = .born lfd fd) ∨ ∃ files, x = .serving fd files) := by
  cases h with
  | starting => exact absurd hc Table.holding_connection
  | listening => exact absurd hc Table.waiting_connection
  | holding =>
    obtain ⟨rfl, -⟩ := Table.passing_connection hc
    exact .inl ⟨_, .inl rfl⟩
  | dropping =>
    obtain ⟨rfl, -⟩ := Table.passing_connection hc
    exact .inl ⟨_, .inr rfl⟩
  | born serves =>
    obtain ⟨rfl, rfl⟩ := Table.passing_connection hc
    exact .inr ⟨serves, .inl ⟨_, rfl⟩⟩
  | serving serves =>
    obtain ⟨rfl, rfl⟩ := Table.serving_connection hc
    exact .inr ⟨serves, .inr ⟨_, rfl⟩⟩
  | gone => exact absurd hc Table.holding_connection

/-- All that is read from a connection or written to it is read and written by one process, a child of the daemon,
and this child reads from no other connection and writes to no other. -/
theorem served_by_one_child (h : (agfsd host).Run (agfsd.start inherited argv) s) {e e' : Nat × Nat}
    (he : e ∈ s.shared.transfers) (he' : e' ∈ s.shared.transfers) : e.1 ≠ 0 ∧ (e.1 = e'.1 ↔ e.2 = e'.2) := by
  obtain ⟨x, ⟨served, hagree⟩, -⟩ := agfsd_phased h
  have hserved := hagree.transfers he
  have hserved' := hagree.transfers he'
  refine ⟨(hagree.known hserved).1, fun heq => ?_, fun heq => ?_⟩
  · rw [heq, hserved'] at hserved
    exact (Option.some.inj hserved).symm
  · rw [← heq] at hserved'
    exact hagree.once hserved hserved'

/-- Whenever the daemon waits for a client, it has open what it began with and the descriptor it listens on, and
nothing else: none of the clients' connections, whatever `accept` and `fork` have returned. Each of these is open in
one process at most, and there on one descriptor. -/
theorem accepts_without_leak (h : (agfsd host).Run (agfsd.start inherited argv) s) {n : Nat}
    {p : Proc DaemonSys Daemon Int32 Table} (hp : s.procs n = some p) {lfd : Fd}
    {k : Except Errno Nat → DaemonIo (Daemon ⊕ Int32)} (hleft : p.left = .call (.accept lfd) k) :
    n = 0 ∧ (∃ fd : Nat, lfd = fd ∧ p.own = .waiting inherited fd) ∧
      ∀ m m' q q' fd fd' c, s.procs m = some q → s.procs m' = some q' → q.own fd = some (.connection c) →
        q'.own fd' = some (.connection c) → m = m' ∧ fd = fd' := by
  obtain ⟨x, ⟨served, hagree⟩, hfollows⟩ := agfsd_phased h
  have hstands := hagree.stands (congrArg (Option.map Proc.own) hp)
  have hstep := hfollows n p hp
  rw [hleft] at hstep
  obtain ⟨y, hy, -⟩ := hstep (.error .EBADF)
  generalize hx : x n = station at hstands hy
  cases hy with
  | @noClient fd =>
    generalize hown : p.own = d at hstands
    cases hstands with
    | listening =>
      -- The daemon listens, so that all connections are held by children.
      have held {m c fd} {q : Proc DaemonSys Daemon Int32 Table} (hq : s.procs m = some q)
          (hc : q.own fd = some (.connection c)) :
          served m = some c ∧ ((∃ lfd, x m = .born lfd fd) ∨ ∃ files, x m = .serving fd files) := by
        have hm := hagree.stands (congrArg (Option.map Proc.own) hq)
        rcases hm.held hc with ⟨lfd, hheld⟩ | hserves
        · have hzero : m = 0 := by
            rcases hheld with hheld | hheld
            all_goals
              rw [hheld] at hm
              generalize q.own = e at hm
              cases hm
              rfl
          rw [hzero, hx] at hheld
          rcases hheld with hheld | hheld
          all_goals cases hheld
        · exact hserves
      refine ⟨rfl, ⟨fd, rfl, rfl⟩, fun m m' q q' fd fd' c hq hq' hc hc' => ?_⟩
      obtain ⟨hserved, hx⟩ := held hq hc
      obtain ⟨hserved', hx'⟩ := held hq' hc'
      obtain rfl := hagree.once hserved hserved'
      refine ⟨rfl, ?_⟩
      rcases hx with ⟨_, hx⟩ | ⟨_, hx⟩
      all_goals
        rw [hx] at hx'
        rcases hx' with ⟨_, hx'⟩ | ⟨_, hx'⟩
        all_goals cases hx'
        all_goals rfl

/-! What a child calls. -/

/-- An event of the code that serves a client, as one of the daemon. -/
def Daemon.served (ev : Event (Sock Kind ServerSys)) : Event DaemonSys := ⟨.serve ev.call, ev.reply⟩

private theorem Daemon.runs_serve {α : Type} {p : ServerIo α} {u : List (Event DaemonSys)} {q : DaemonIo α}
    (h : Runs (serve p) u q) : ∃ t p', Runs p t p' ∧ u = t.map served ∧ q = serve p' := by
  induction p generalizing u with
  | ret a =>
    cases h
    exact ⟨[], _, .refl _, rfl, rfl⟩
  | call c k ih =>
    rcases Runs.call_cases h with ⟨rfl, rfl⟩ | ⟨r, u, rfl, hrest⟩
    · exact ⟨[], _, .refl _, rfl, rfl⟩
    · obtain ⟨t, p', ht, rfl, rfl⟩ := ih r hrest
      exact ⟨⟨c, r⟩ :: t, p', .step (S := Sock Kind ServerSys) r ht, rfl, rfl⟩

private theorem Daemon.serve_ret {α : Type} {p : ServerIo α} {a : α} (h : .ret a = serve p) : p = .ret a := by
  cases p with
  | ret b =>
    cases h
    rfl
  | call c k => cases h

theorem Daemon.loops_serve {c : Child} {u : List (Event DaemonSys)} {q : DaemonIo (Daemon ⊕ Int32)}
    (h : Loops (body host) (body host (.child c)) u q) :
    ∃ t q', Loops (Child.body host) (Child.body host c) t q' ∧ u = t.map served := by
  generalize hp : body host (.child c) = p at h
  induction h generalizing c with
  | within h =>
    subst hp
    rcases Runs.bind_cases h with ⟨r, hr, -⟩ | ⟨t₁, t₂, x, rfl, h₁, h₂⟩
    · obtain ⟨t, p', ht, rfl, -⟩ := runs_serve hr
      exact ⟨t, p', .within ht, rfl⟩
    · obtain ⟨t, p', ht, rfl, -⟩ := runs_serve h₁
      cases h₂
      exact ⟨t, p', .within ht, List.append_nil _⟩
  | again h _ ih =>
    subst hp
    obtain ⟨t₁, t₂, x, rfl, h₁, h₂⟩ := Runs.bind_ret_iff.mp h
    obtain ⟨t, p', ht, rfl, hret⟩ := runs_serve h₁
    obtain rfl := serve_ret hret
    obtain ⟨rfl, hx⟩ := Runs.ret_iff.mp h₂
    cases x with
    | inr self => cases hx
    | inl c =>
      cases hx
      obtain ⟨t', q', hloops, rfl⟩ := ih rfl
      refine ⟨t ++ t', q', .again ht hloops, ?_⟩
      rw [List.append_nil, List.map_append]

/-- What a child begins with: it closes the descriptor on which the daemon listens, and goes on to serve. -/
def Daemon.Begins (p : DaemonIo (Daemon ⊕ Int32)) : Prop :=
  ∃ (lfd : Fd) (connfd : Nat), p = Prog.call (S := DaemonSys) (.close lfd) fun _ => .ret (.inl (.child (.fresh connfd)))

section Spawns
variable {α : Type}

/-- Calls other than `fork`. -/
def DaemonCall.Alone (c : DaemonCall) : Prop := DaemonCall.fork ≠ c

private theorem openPort_alone (port : Str) : (openPort port).Only DaemonCall.Alone := by
  refine ⟨nofun, fun found => ?_⟩
  cases found with
  | false => trivial
  | true =>
    refine ⟨nofun, fun r => ?_⟩
    cases r with
    | error err => trivial
    | ok lfd =>
      refine ⟨nofun, fun r => ?_⟩
      cases r with
      | error err => trivial
      | ok r =>
        refine ⟨nofun, fun r => ?_⟩
        cases r with
        | error err => trivial
        | ok r =>
          refine ⟨nofun, fun r => ?_⟩
          cases r <;> trivial

private theorem main_alone (argv : List Str) : (Daemon.main argv).Only DaemonCall.Alone := by
  match argv with
  | [_, port] =>
    refine ⟨nofun, fun r => ?_⟩
    cases r with
    | error err => trivial
    | ok r => exact .bind (openPort_alone port) fun lfd => .ite trivial trivial
  | [] => trivial
  | [_] => trivial
  | _ :: _ :: _ :: _ => trivial

private theorem serve_alone (p : ServerIo α) : (Daemon.serve p).Only DaemonCall.Alone := by
  induction p with
  | ret a => trivial
  | call c k ih => exact ⟨nofun, ih⟩

private theorem body_spawns (d : Daemon) : (agfsd host).Spawns Daemon.Begins (Daemon.body host d) := by
  cases d with
  | child c => exact .of_only (.bind (serve_alone _) fun _ => trivial)
  | listening lfd =>
    refine ⟨nofun, fun r => ?_⟩
    cases r with
    | error err => trivial
    | ok connfd =>
      refine ⟨fun _ => ⟨lfd, connfd, rfl⟩, fun r => ?_⟩
      match r with
      | .error err => exact ⟨nofun, fun _ => trivial⟩
      | .ok 0 => exact ⟨nofun, fun _ => trivial⟩
      | .ok (_ + 1) => exact ⟨nofun, fun _ => trivial⟩

end Spawns

/-- A transfer on a descriptor, or no transfer. -/
def TransfersOn (fd : Fd) : SockCall Kind ServerSys → Prop
  | .recv _ fd' _ => fd' = fd
  | .send _ fd' _ => fd' = fd
  | _ => True

private theorem Child.Acts.transfersOn {conn : Fd} {x y : Option (Finset Nat)} {c : SockCall Kind ServerSys}
    {r : (Sock Kind ServerSys).Reply c} (h : Child.Acts conn x c r y) : TransfersOn conn c := by
  cases h with
  | recv => rfl
  | send => rfl
  | _ => trivial

theorem child_calls (h : (agfsd host).Run (agfsd.start inherited argv) s) {n : Nat} (hn : n ≠ 0)
    {p : Proc DaemonSys Daemon Int32 Table} (hp : s.procs n = some p) :
    ∃ (lfd : Fd) (connfd : Nat), p.calls = [] ∨ ∃ t q, Loops (Child.body host) (Child.body host (.fresh connfd)) t q ∧
      p.calls = ⟨.close lfd, ()⟩ :: t.map Daemon.served := by
  have hspawns : ∀ p, Daemon.Begins p → (agfsd host).Spawns Daemon.Begins p := by
    rintro _ ⟨lfd, connfd, rfl⟩
    exact ⟨nofun, fun _ => trivial⟩
  rcases Forks.Run.began (.of_only (main_alone argv)) body_spawns hspawns h hp with ⟨hzero, -⟩ | ⟨-, hbegan⟩
  · exact absurd hzero hn
  · obtain ⟨lfd, connfd, hbegan⟩ := hbegan
    have hloops := Forks.Run.loops h hp
    rw [hbegan] at hloops
    refine ⟨lfd, connfd, ?_⟩
    generalize p.calls = calls at hloops
    generalize p.left = left at hloops
    cases hloops with
    | within hruns =>
      rcases Runs.call_cases hruns with ⟨rfl, -⟩ | ⟨r, u, rfl, hrest⟩
      · exact .inl rfl
      · cases hrest
        exact .inr ⟨[], _, .within (.refl _), rfl⟩
    | again hruns hrest =>
      obtain ⟨r, u, rfl, hret⟩ := Runs.call_ret_iff.mp hruns
      obtain ⟨rfl, hchild⟩ := Runs.ret_iff.mp hret
      cases hchild
      obtain ⟨t, q, ht, rfl⟩ := Daemon.loops_serve hrest
      exact .inr ⟨t, q, ht, rfl⟩

/-- Every process but the first closes the descriptor on which the daemon listens and from then on runs the code of
the server for the connection it was forked for. Whenever it makes a call of this code it has open what the daemon
began with, this connection, and files it has opened, and it transfers on this connection only. -/
theorem child_serves_client (h : (agfsd host).Run (agfsd.start inherited argv) s) {n : Nat} (hn : n ≠ 0)
    {p : Proc DaemonSys Daemon Int32 Table} (hp : s.procs n = some p) :
    (∃ (lfd : Fd) (connfd : Nat), p.calls = [] ∨ ∃ t q, Loops (Child.body host) (Child.body host (.fresh connfd)) t q ∧
      p.calls = ⟨.close lfd, ()⟩ :: t.map Daemon.served) ∧
    ∀ (c : SockCall Kind ServerSys) (k : (Sock Kind ServerSys).Reply c → DaemonIo (Daemon ⊕ Int32)),
      Nonempty ((Sock Kind ServerSys).Reply c) → p.left = Prog.call (S := DaemonSys) (.serve c) k →
      ∃ fd files number, p.own = .serving inherited files fd number ∧ fd ∉ files ∧ fd ∉ inherited ∧
        TransfersOn fd c ∧ ∀ e ∈ s.shared.transfers, e.1 = n → e.2 = number := by
  refine ⟨child_calls h hn hp, fun c k ⟨r⟩ hleft => ?_⟩
  obtain ⟨x, ⟨served, hagree⟩, hfollows⟩ := agfsd_phased h
  have hstands := hagree.stands (congrArg (Option.map Proc.own) hp)
  have hstep := hfollows n p hp
  rw [hleft] at hstep
  obtain ⟨y, hy, -⟩ := hstep r
  generalize x n = station at hstands hy
  generalize p.own = d at hstands
  cases hy with
  | @serves fd files _ _ _ hacts =>
    cases hstands with
    | @serving _ _ _ number serves closed other =>
      refine ⟨fd, files, number, rfl, other, closed, hacts.transfersOn, fun e he hmine => ?_⟩
      have hserved := hagree.transfers he
      rw [hmine, serves] at hserved
      exact (Option.some.inj hserved).symm

/-! Two clients of a daemon that listens on port 7: two children, each of which reads from its connection. -/

def agfsd7 : List Str := [[0x61], [0x37]]

theorem agfsd_call {u : Forks.State DaemonSys Daemon Int32 Kernel Table} (n : Nat) (c : DaemonCall)
    (r : DaemonSys.Reply c) {p : Proc DaemonSys Daemon Int32 Table} {k : DaemonSys.Reply c → DaemonIo (Daemon ⊕ Int32)}
    {t : Kernel} {d : Table} (runs : s.procs n = some p) (next : p.left = Prog.call (S := DaemonSys) c k)
    (does : Kernel.Does n s.shared p.own c r t d)
    (rest : (agfsd host).Run
      ⟨t, s.next, update s.procs n (some ⟨d, p.began, p.calls ++ [⟨c, r⟩], k r⟩)⟩ u) : (agfsd host).Run s u :=
  .head (.call runs next does) rest

private theorem twoClients : ∃ s, (agfsd .little).Run (agfsd.start ∅ agfsd7) s ∧ s.shared.transfers = [(1, 0), (2, 1)] ∧
    (∃ p k, s.procs 0 = some p ∧ p.left = Prog.call (S := DaemonSys) (.accept 3) k) ∧
    ∃ p k, s.procs 1 = some p ∧ p.left = Prog.call (S := DaemonSys) (.serve (.sys .readAuthkeys)) k := by
  refine ⟨?s, ?run, ?_, ?_, ?_⟩
  case run =>
    refine agfsd_call 0 (.setuid 0) (.ok ()) rfl rfl .setuid ?_
    refine agfsd_call 0 (.getaddrinfo [0x37]) true rfl rfl .getaddrinfo ?_
    refine agfsd_call 0 .socket (.ok 3) rfl rfl (.socket rfl) ?_
    refine agfsd_call 0 (.setsockopt 3) (.ok ()) rfl rfl .setsockopt ?_
    refine agfsd_call 0 (.bind 3) (.ok ()) rfl rfl .bind ?_
    refine agfsd_call 0 (.listen 3) (.ok ()) rfl rfl .listen ?_
    refine .head (.again (n := 0) rfl rfl) ?_
    refine agfsd_call 0 (.accept 3) (.ok 4) rfl rfl (.client rfl) ?_
    refine .head (.fork (n := 0) rfl rfl ⟨0, rfl⟩) ?_
    refine agfsd_call 0 (.close 4) () rfl rfl .close ?_
    refine .head (.again (n := 0) rfl rfl) ?_
    refine agfsd_call 0 (.accept 3) (.ok 4) rfl rfl (.client rfl) ?_
    refine .head (.fork (n := 0) rfl rfl ⟨0, rfl⟩) ?_
    refine agfsd_call 1 (.close 3) () rfl rfl .close ?_
    refine .head (.again (n := 1) rfl rfl) ?_
    refine agfsd_call 1 (.serve (.recv .field 4 8)) (.fail .EBADF) rfl rfl .recv ?_
    refine agfsd_call 2 (.close 3) () rfl rfl .close ?_
    refine .head (.again (n := 2) rfl rfl) ?_
    refine agfsd_call 2 (.serve (.recv .field 4 8)) (.fail .EBADF) rfl rfl .recv ?_
    refine agfsd_call 0 (.close 4) () rfl rfl .close ?_
    refine .head (.again (n := 0) rfl rfl) ?_
    exact .refl
  · rfl
  · exact ⟨_, _, rfl, rfl⟩
  · exact ⟨_, _, rfl, rfl⟩

theorem served_by_one_child_twoClients : ∃ s, (agfsd .little).Run (agfsd.start ∅ agfsd7) s ∧
    (1, 0) ∈ s.shared.transfers ∧ (1 ≠ 0 ∧ (1 = 2 ↔ 0 = 1)) := by
  obtain ⟨s, hrun, htransfers, -⟩ := twoClients
  have hfirst : (1, 0) ∈ s.shared.transfers := by simp [htransfers]
  have hsecond : (2, 1) ∈ s.shared.transfers := by simp [htransfers]
  exact ⟨s, hrun, hfirst, served_by_one_child hrun hfirst hsecond⟩

theorem accepts_without_leak_twoClients : ∃ s p, (agfsd .little).Run (agfsd.start ∅ agfsd7) s ∧
    s.procs 0 = some p ∧ ∃ fd : Nat, (3 : Fd) = fd ∧ p.own = .waiting ∅ fd := by
  obtain ⟨s, hrun, -, ⟨p, k, hp, hleft⟩, -⟩ := twoClients
  exact ⟨s, p, hrun, hp, (accepts_without_leak hrun hp hleft).2.1⟩

theorem child_serves_client_twoClients : ∃ s p, (agfsd .little).Run (agfsd.start ∅ agfsd7) s ∧
    s.procs 1 = some p ∧ ∃ fd files number, p.own = .serving ∅ files fd number := by
  obtain ⟨s, hrun, -, -, p, k, hp, hleft⟩ := twoClients
  obtain ⟨fd, files, number, hown, -⟩ := (child_serves_client hrun Nat.one_ne_zero hp).2 (.sys .readAuthkeys) k
    ⟨none⟩ hleft
  exact ⟨s, p, hrun, hp, fd, files, number, hown⟩

end AgFS
