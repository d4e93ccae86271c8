import AgFS.Session.Lockstep

/-! Any number of operations over one connection. -/
namespace AgFS
open Interaction ByteOrder

section Sequence
variable {ν τ ν' τ' : Type} {e : Env Kind ClientSys ν τ} {e' : Env Kind ServerSys ν' τ'}
  {sock : τ → Fd} {self : ClientConnection} {s : τ}

/-- A client with a list of operations to perform, a server at the head of its command
loop, and nothing in flight between them. -/
def meeting (e : Env Kind ClientSys ν τ) (e' : Env Kind ServerSys ν' τ') (host host' : Endian)
    (self : ClientConnection) (session : Session) (w : ν × τ) (w' : ν' × τ') :
    Interaction.Net (e.loop (Session.body host)) (e'.loop (Child.body host')) :=
  ⟨(Session.body host session, w), (Child.body host' (.serving self), w'), [], []⟩

/-- Step of the sequence: one operation, from one meeting to the next. -/
theorem meeting_step {host host' : Endian} {r : Request} {s' t' : τ'} {res : r.Result}
    (h : TalksAbout e e' host host' self r s s' res t') (todo : List Request)
    (done : List Outcome) (v : ν) (v' : ν') :
    ∃ w w', Interaction.Net.Leads (meeting e e' host host' self ⟨r :: todo, done⟩ (v, s) (v', s'))
      (meeting e e' host host' self ⟨todo, done ++ [⟨r, res⟩]⟩ (w, s) (w', t')) := by
  obtain ⟨u, d, htalk⟩ := h todo done
  obtain ⟨w, w', hw⟩ := htalk.loop (Session.body_productive host) (Child.body_productive host') v v'
  exact ⟨w, w', hw.leads⟩

/-- Run of the sequence: the operations are performed in order, and the client comes to
what the server's machine answers to each. -/
theorem meeting_run {host host' : Endian} {ops : List Request}
    (h : ∀ r ∈ ops, ∀ s', TalksAbout e e' host host' self r s s'
      (e'.run (r.remote self) s').1 (e'.run (r.remote self) s').2)
    (todo : List Request) (done : List Outcome) (v : ν) (v' : ν') (s' : τ') :
    ∃ w w', Interaction.Net.Leads (meeting e e' host host' self ⟨ops ++ todo, done⟩ (v, s) (v', s'))
      (meeting e e' host host' self
        ⟨todo, done ++ (e'.run (Request.remoteAll self ops) s').1⟩ (w, s)
        (w', (e'.run (Request.remoteAll self ops) s').2)) := by
  induction ops generalizing done v v' s' with
  | nil =>
    refine ⟨v, v', ?_⟩
    simpa [Request.remoteAll] using Relation.ReflTransGen.refl
  | cons r ops ih =>
    have hrun : e'.run (Request.remoteAll self (r :: ops)) s' =
        (⟨r, (e'.run (r.remote self) s').1⟩ ::
            (e'.run (Request.remoteAll self ops) (e'.run (r.remote self) s').2).1,
          (e'.run (Request.remoteAll self ops) (e'.run (r.remote self) s').2).2) := by
      rw [Request.remoteAll, Env.run_bind, Env.run_bind]
      rfl
    obtain ⟨w, w', hfirst⟩ := meeting_step (h r List.mem_cons_self s') (ops ++ todo) done v v'
    obtain ⟨x, x', hrest⟩ := ih (fun r hr => h r (List.mem_cons_of_mem _ hr))
      (done ++ [⟨r, (e'.run (r.remote self) s').1⟩]) w w' (e'.run (r.remote self) s').2
    refine ⟨x, x', hfirst.trans ?_⟩
    rw [List.append_assoc, List.singleton_append] at hrest
    rw [hrun]
    exact hrest

/-- At the head of its loop the server waits for a command. -/
theorem serving_waits {recvAll : Prop} (he' : Orderly e' recvAll True) (hf' : 0 ≤ self.socket_)
    (host' : Endian) (w' : ν' × τ') :
    (e'.loop (Child.body host')).step (Child.body host' (.serving self), w') [] = none := by
  obtain ⟨j, hj, hle⟩ := he'.recv_whole (v := w'.1) (m := .command) (n := 2) (fun h => by cases h)
  have hwait : ¬ min j 2 ≤ ([] : Bytes).length := by
    rw [List.length_nil]
    omega
  change (e'.turn (self.commandLoop host' >>= _, w') []).map _ = none
  have hturn : e'.turn (self.commandLoop host' >>= fun x => pure (x.map Child.serving id), w') [] =
      none := by
    obtain ⟨v', s'⟩ := w'
    simp only [ClientConnection.commandLoop, agfsReadCmd, Sock.recv, Prog.call_bind, Env.turn,
      if_neg (Int.not_lt.mpr hf'), hj, Env.hear, if_neg hwait]
  exact congrArg (Option.map _) hturn

theorem meeting_atRest {recvAll : Prop} (he' : Orderly e' recvAll True) (hf' : 0 ≤ self.socket_)
    (host host' : Endian) (done : List Outcome) (w : ν × τ) (w' : ν' × τ') :
    (meeting e e' host host' self ⟨[], done⟩ w w').AtRest :=
  ⟨rfl, serving_waits he' hf' host' w'⟩

/-- Client and server stay in lockstep over a list of operations: after the first of them,
however many, nothing is in flight, the server is at the head of its loop and the client has
the outcomes of `remoteAll`; and no interleaving ends elsewhere or goes on for ever. -/
def InLockstep (e : Env Kind ClientSys ν τ) (e' : Env Kind ServerSys ν' τ') (host host' : Endian)
    (self : ClientConnection) (ops : List Request) (w : ν × τ) (w' : ν' × τ') : Prop :=
  let after (ops₁ ops₂ : List Request) (v : ν) (v' : ν') :=
    let remote := e'.run (Request.remoteAll self ops₁) w'.2
    meeting e e' host host' self ⟨ops₂, remote.1⟩ (v, w.2) (v', remote.2)
  (∀ ops₁ ops₂, ops = ops₁ ++ ops₂ → ∃ v v', Interaction.Net.Leads (after [] ops w.1 w'.1) (after ops₁ ops₂ v v')) ∧
  ∃ k v v', ∀ j n, Interaction.Net.LeadsIn j (after [] ops w.1 w'.1) n →
    j ≤ k ∧ Interaction.Net.LeadsIn (k - j) n (after ops [] v v')

end Sequence

/-- Over streams that deliver everything, any sequence of operations is performed in
lockstep, and every operation returns what its request comes to on the server's machine. -/
theorem lockstep {ν τ ν' τ' : Type} {e : Env Kind ClientSys ν τ} {e' : Env Kind ServerSys ν' τ'}
    (he : Orderly e True True) (he' : Orderly e' True True) {sock : τ → Fd}
    (ho : KeepsObject e sock) {self : ClientConnection} (hf' : 0 ≤ self.socket_) {w : ν × τ} (hf : 0 ≤ sock w.2)
    (w' : ν' × τ') (host host' : Endian) {ops : List Request}
    (hsteady : Steady e'.sys self.mountPoint_ (· ∈ ops)) (hv : ∀ r ∈ ops, r.Valid) (hr : ∀ r ∈ ops, r.Fits) :
    InLockstep e e' host host' self ops w w' := by
  have htalks {ops₁ : List Request} (hsub : ops₁ ⊆ ops) : ∀ r ∈ ops₁, ∀ s',
      TalksAbout e e' host host' self r w.2 s' (e'.run (r.remote self) s').1
        (e'.run (r.remote self) s').2 :=
    fun r hmem s' => talks_whole he ho hf he' hf' host host' hsteady (hsub hmem) (hv r (hsub hmem)).held
      (hr r (hsub hmem)) s'
  constructor
  · rintro ops₁ ops₂ rfl
    obtain ⟨x, x', hlead⟩ := meeting_run (htalks (List.subset_append_left ops₁ ops₂)) ops₂ [] w.1
      w'.1 w'.2
    exact ⟨_, _, hlead⟩
  · obtain ⟨x, x', hlead⟩ := meeting_run (htalks (List.Subset.refl ops)) [] [] w.1 w'.1 w'.2
    rw [List.append_nil, List.nil_append] at hlead
    obtain ⟨k, hk⟩ := hlead.exact
    exact ⟨k, _, _, fun j n hj => hk.confluent (meeting_atRest he' hf' host host' _ _ _) hj⟩

theorem lockstep_instance :
    InLockstep (.whole ClientSys.object) (.whole fun (s : Unit) c => (s, ServerSys.roomy c)) .little
      .big ⟨[0x2F], 4, 0⟩
      [.getattr ⟨[0x61], by decide⟩, .readdir ⟨[], by decide⟩,
        .writeFile ⟨[0x61], by decide⟩ 7 ⟨[1, 2, 3], by decide⟩, .readFile ⟨[0x61], by decide⟩ 4 0]
        ((), 3) ((), ()) := by
  refine lockstep (Env.whole_prompt _) (Env.whole_prompt _) ClientSys.object_keeps (by decide)
    (by decide) _ _ _ ?_ ?_ ?_
  · refine ⟨fun _ _ => ⟨_, rfl⟩, fun _ _ => ⟨_, rfl⟩, fun _ _ _ _ => ⟨_, _, rfl, rfl⟩, ?_⟩
    intro s fd bs hb count hcount hw
    obtain rfl : bs.length = count := by simpa [Env.whole, ServerSys.roomy] using hw
    exact List.length_pos_iff.mpr hb
  · simp [Request.Valid, Short]
  · simp [Request.Fits]

/-! A vector has no room for `2 ^ 63` bytes. The request for so many ends the server. -/

section Large
variable {ν τ : Type} {e : Env Kind ServerSys ν τ} {recvAll : Prop} {self : ClientConnection}

theorem does_large_read (he : Orderly e recvAll True) (hf : 0 ≤ self.socket_) (host : Endian)
    {path : CString} (hp : Addressable path.1) {size : AgsizeT} (hsize : 2 ^ 63 ≤ size.toNat)
    (offset : AgsizeT) {s s' : τ} {fd : Nat}
    (hopen : e.sys s (.open (cstr (self.file path.1)) O_RDONLY) = (s', .ok fd)) :
    e.Does (Child.body host (.serving self)) s
      (encCmd cmd.READ ++ (Request.readFile path size offset).args) []
      (Sock.abort .exception) (e.sys s' (.lseek fd offset)).1 := by
  have hresize : (vectorResize size.toNat : ServerIo Bytes) = Sock.abort .exception := by
    rw [vectorResize, if_neg (by omega), if_pos hsize, Sock.abort_bind]
  have hread : e.Does (self.processRead host) s (Request.readFile path size offset).args []
      (Sock.abort .exception) (e.sys s' (.lseek fd offset)).1 := by
    rw [Request.args, List.append_assoc]
    refine (does_readString he hf host _ hp path.2 s).andThen ?_
    refine (does_readSize he hf host _ size s).andThen ?_
    refine (does_readSize he hf host _ offset s).takes ?_
    refine Env.does_sys_then hopen (Env.does_sys_then rfl ?_)
    rw [hresize, Sock.abort_bind]
    exact .refl _ _
  have h := (does_pass he hf host (.readFile path size offset) s).trans (hread.bind (again self))
  rwa [Sock.abort_bind] at h

private theorem not_inLockstep_of_large {ν' τ' : Type} {e' : Env Kind ClientSys ν' τ'}
    (he' : Orderly e' True True) {sock : τ' → Fd} (ho : KeepsObject e' sock)
    (he : Orderly e True True) (hf : 0 ≤ self.socket_) {w' : ν' × τ'} (hf' : 0 ≤ sock w'.2)
    {w : ν × τ} (host host' : Endian) {path : CString} (hp : Short path.1) {size : AgsizeT}
    (hsize : 2 ^ 63 ≤ size.toNat) (offset : AgsizeT) {s' : τ} {fd : Nat}
    (hopen : e.sys w.2 (.open (cstr (self.file path.1)) O_RDONLY) = (s', .ok fd))
    (todo : List Request) :
    ¬ InLockstep e' e host' host self (.readFile path size offset :: todo) w' w := by
  rintro ⟨-, k, v, v', hend⟩
  have hplain : (Request.readFile path size offset).Plain ([], -1) := rfl
  have hasks := (asks he' ho hf' host' (.readFile path size offset) hplain).bind
    (Session.record todo [] (.readFile path size offset))
  obtain ⟨c, -, hc, -⟩ := hasks w'.1
  obtain ⟨x, hx⟩ := does_large_read he hf host hp.addressable hsize offset hopen w.1
  have hclient : (e'.loop (Session.body host')).Reaches _ _ _ _ := e'.reaches_loop hc
  have hserver : (e.loop (Child.body host)).Reaches _ _ _ _ := e.reaches_loop hx
  have hsent := Interaction.Net.leads_left (B := e.loop (Child.body host)) hclient
    (Child.body host (.serving self), w) [] []
  have htaken := Interaction.Net.leads_right (A := e'.loop (Session.body host')) hserver
    (Env.resume (Session.body host') c.1, c.2) [] []
  rw [List.append_nil] at htaken
  obtain ⟨j, hj⟩ := Interaction.Net.Leads.exact (hsent.trans htaken)
  obtain ⟨-, hrest⟩ := hend j _ hj
  have hsame := hrest.leads.right_stuck fun _ => rfl
  have hpass := congrArg Prod.fst hsame
  cases hpass

end Large

/-- A request for `2 ^ 63` bytes of a file that can be opened is never answered. -/
theorem lockstep_large_read :
    ¬ InLockstep (.whole ClientSys.object) (.whole fun (s : Unit) c => (s, ServerSys.roomy c)) .little
      .little ⟨[0x2F], 4, 0⟩ [.readFile ⟨[0x61], by decide⟩ 0x8000000000000000 0] ((), 3) ((), ()) := by
  refine not_inLockstep_of_large (Env.whole_prompt _) ClientSys.object_keeps (Env.whole_prompt _)
    (by decide) (by decide) _ _ ?_ (by decide +kernel) 0 rfl []
  simp [Short]

end AgFS
