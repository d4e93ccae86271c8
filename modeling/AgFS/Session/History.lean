import AgFS.Failure.Reports
import AgFS.Session.Ending
import AgFS.Session.Payload

/-! What a client and a server have done on one connection, operation by operation and pass by pass,
and the invariant that keeps the two in step. -/
namespace AgFS
open Interaction ByteOrder Sock

/-- An operation of the client, as far as it has come. -/
structure Errand where
  request : Request
  calls : List ClientEvent
  left : ClientIo request.Result

/-- A pass of the server's command loop, as far as it has come. -/
structure Pass where
  calls : List ServerEvent
  left : ServerIo (Child ⊕ ClientConnection)

def Errand.Done (o : Errand) : Prop := ∃ res, o.left = .ret res

def Pass.Done (u : Pass) : Prop := ∃ next, u.left = .ret next

/-- The pass has waited for a command in vain. -/
def Pass.Missed (u : Pass) : Prop := u.calls ≠ [] ∧ commandRead u.calls = .missed

def heardBy (us : List Pass) : Marked Kind := us.flatMap fun u => heard u.calls

def answeredBy (us : List Pass) : Marked Kind := us.flatMap fun u => said u.calls

def askedBy (ops : List Errand) : Marked Kind := ops.flatMap fun o => said o.calls

def takenBy (ops : List Errand) : Marked Kind := ops.flatMap fun o => heard o.calls

/-- The operations are performed one after the other, when the field `socket_` is `fd` at first; only
the last may still be under way. -/
inductive Performed (host : Endian) : Fd → List Errand → Prop
  | nil (fd : Fd) : Performed host fd []
  | cons {fd fd' : Fd} {o : Errand} {ops : List Errand} (runs : Runs (o.request.perform host) o.calls o.left)
      (answered : Answered ClientSys.object fd o.calls fd') (done : ops ≠ [] → o.Done)
      (rest : Performed host fd' ops) : Performed host fd (o :: ops)

/-- The passes are made one after the other; only the last may still be under way. -/
inductive Served {τ : Type} (host : Endian) (sys : τ → (c : ServerCall) → τ × ServerSys.Reply c) :
    ClientConnection → τ → List Pass → Prop
  | nil (self : ClientConnection) (s : τ) : Served host sys self s []
  | cons {self next : ClientConnection} {s s' : τ} {u : Pass} {us : List Pass}
      (runs : Runs (Child.body host (.serving self)) u.calls u.left) (answered : Answered sys s u.calls s')
      (done : us ≠ [] → u.left = .ret (.inl (.serving next))) (rest : Served host sys next s' us) :
      Served host sys self s (u :: us)

/-- What is in order between an operation and the pass that answers it. -/
structure InPair (host : Endian) (o : Errand) (u : Pass) : Prop where
  command : u.calls ≠ [] → decoded host u.calls = o.request.command
  up : heard u.calls <+: said o.calls
  down : heard o.calls <+: said u.calls
  served : u.Done → heard u.calls = said o.calls
  performed : o.Done → heard o.calls = said u.calls

/-- Client and server are in step: the passes that have not waited in vain answer the operations in
their order, and whoever is behind has not taken anything of what is to come. -/
inductive InStep {τ : Type} (host : Endian) (sys : τ → (c : ServerCall) → τ × ServerSys.Reply c) :
    ClientConnection → τ → List Errand → List Pass → Prop
  | ahead {self : ClientConnection} {s : τ} {ops : List Errand} (h : takenBy ops = [])
      (waiting : ∀ o ∈ ops, ¬ o.Done) : InStep host sys self s ops []
  | waits {self : ClientConnection} {s : τ} {u : Pass} (h : u.calls = []) (waiting : ¬ u.Done) :
      InStep host sys self s [] [u]
  | missed {self next : ClientConnection} {s : τ} {ops : List Errand} {u : Pass} {us : List Pass}
      (same : us ≠ [] → next.mountPoint_ = self.mountPoint_) (h : u.Missed) (took : heard u.calls = [])
      (gave : said u.calls = []) (rest : InStep host sys next s ops us) :
      InStep host sys self s ops (u :: us)
  | pair {self next : ClientConnection} {s : τ} {o : Errand} {ops : List Errand} {u : Pass} {us : List Pass}
      (same : us ≠ [] → next.mountPoint_ = self.mountPoint_) (came : ¬ u.Missed) (pair : InPair host o u)
      (reads : u.Done → heard u.calls = o.request.sent sys self s)
      (result : o.Done → o.request.Delivered sys self (pieces u.calls) s ∧
        o.left = .ret (o.request.comesTo sys self (pieces u.calls) s).1)
      (rest : InStep host sys next (o.request.comesTo sys self (pieces u.calls) s).2 ops us) :
      InStep host sys self s (o :: ops) (u :: us)

section Order
variable {τ : Type} {host : Endian} {fd : Fd} {sys : τ → (c : ServerCall) → τ × ServerSys.Reply c}
  {self : ClientConnection} {s : τ} {ops : List Errand} {us : List Pass}

theorem Performed.done (h : Performed host fd ops) {ops₁ ops₂ : List Errand} {o : Errand}
    (hops : ops = ops₁ ++ o :: ops₂) (hne : ops₂ ≠ []) : o.Done := by
  induction h generalizing ops₁ with
  | nil => cases ops₁ <;> cases hops
  | cons _ _ done _ ih =>
    cases ops₁ with
    | nil =>
      obtain ⟨rfl, rfl⟩ := List.cons.inj hops
      exact done hne
    | cons o' ops₁ =>
      obtain ⟨rfl, htail⟩ := List.cons.inj hops
      exact ih htail

theorem Served.done (h : Served host sys self s us) {us₁ us₂ : List Pass} {u : Pass} (hus : us = us₁ ++ u :: us₂)
    (hne : us₂ ≠ []) : u.Done := by
  induction h generalizing us₁ with
  | nil => cases us₁ <;> cases hus
  | cons _ _ done _ ih =>
    cases us₁ with
    | nil =>
      obtain ⟨rfl, rfl⟩ := List.cons.inj hus
      exact ⟨_, done hne⟩
    | cons w us₁ =>
      obtain ⟨rfl, htail⟩ := List.cons.inj hus
      exact ih htail

end Order

section Pass
variable {host : Endian} {self : ClientConnection} {u : Pass}

/-- A pass that waits in vain takes nothing and says nothing. -/
theorem Pass.Missed.silent {τ : Type} {sys : τ → (c : ServerCall) → τ × ServerSys.Reply c} {s s' : τ}
    (h : u.Missed) (hu : Runs (Child.body host (.serving self)) u.calls u.left) (hs : Answered sys s u.calls s') :
    heard u.calls = [] ∧ said u.calls = [] ∧
      ∀ next, u.left = .ret (.inl (.serving next)) →
        next.socket_ = self.socket_ ∧ next.mountPoint_ = self.mountPoint_ ∧ s' = s := by
  obtain ⟨hne, hmissed⟩ := h
  obtain ⟨p, hp, hleft⟩ := Runs.bind_ret hu
  rw [hleft]
  rcases runs_commandLoop hp with ⟨hnil, -⟩ | ⟨r, v, hcalls, ⟨-, hv⟩ | ⟨hheard, -⟩⟩
  · exact absurd hnil hne
  · rw [hcalls] at hmissed hs ⊢
    have hint : ReadReply.int r ≤ 0 := by
      by_contra hint
      rw [commandRead, if_neg hint] at hmissed
      cases hmissed
    rw [heard, bytes_of_missed hint]
    unfold ClientConnection.miss at hv
    dsimp only at hv
    split at hv
    · rcases Sock.sys_cases hv with ⟨rfl, rfl⟩ | ⟨_, w, rfl, hw⟩
      · exact ⟨rfl, rfl, fun next hnext => by cases hnext⟩
      · obtain ⟨rfl, rfl⟩ := Runs.ret_iff.mp hw
        exact ⟨rfl, rfl, fun next hnext => by cases hnext⟩
    · obtain ⟨rfl, rfl⟩ := Runs.ret_iff.mp hv
      refine ⟨rfl, rfl, fun next hnext => ?_⟩
      cases hnext
      exact ⟨rfl, rfl, Eq.symm hs⟩
  · rw [hmissed] at hheard
    cases hheard

/-- A pass that has taken nothing, over transfers that move something, has not begun. -/
theorem Pass.idle (hu : Runs (Child.body host (.serving self)) u.calls u.left)
    (hflows : ∀ ev ∈ u.calls, Flows (fun m => m = Kind.data → False) (fun m => m = Kind.data → True) ev)
    (hheard : heard u.calls = []) : u.calls = [] ∧ ¬ u.Done := by
  obtain ⟨p, hp, hleft⟩ := Runs.bind_ret hu
  rcases runs_commandLoop hp with ⟨hnil, rfl⟩ | ⟨r, v, hcalls, -⟩
  · refine ⟨hnil, ?_⟩
    rintro ⟨a, ha⟩
    rw [hleft] at ha
    cases ha
  · rw [hcalls] at hflows hheard
    obtain ⟨-, bs, hbs, rfl, hwhole, -⟩ := hflows _ List.mem_cons_self
    have htwo : bs.length = 2 := hwhole (by rintro ⟨⟩)
    have hzero := congrArg List.length hheard
    rw [heard, List.length_append, mark_length, ReadReply.bytes, htwo] at hzero
    simp at hzero

end Pass

section Step
variable {τ : Type} {sys : τ → (c : ServerCall) → τ × ServerSys.Reply c} {P : Request → Prop} {host host' : Endian}
  {fd fd' : Fd}
  {self next : ClientConnection} {s s' : τ} {o : Errand} {ops : List Errand} {u : Pass} {us : List Pass}

theorem joined_of (ho : Runs (o.request.perform host) o.calls o.left)
    (hanswered : Answered ClientSys.object fd o.calls fd')
    (hclient : ∀ ev ∈ o.calls, Flows (fun m => m = Kind.data → True) (fun m => m = Kind.data → False) ev)
    (hu : Runs (Child.body host' (.serving self)) u.calls u.left) (hserved : Answered sys s u.calls s')
    (hserver : ∀ ev ∈ u.calls, Flows (fun m => m = Kind.data → False) (fun m => m = Kind.data → True) ev)
    (hmore : ops ≠ [] → o.Done) (hmore' : us ≠ [] → u.Done)
    (up : unmark (heardBy (u :: us)) <+: unmark (askedBy (o :: ops)))
    (down : unmark (takenBy (o :: ops)) <+: unmark (answeredBy (u :: us))) :
    Joined (A := dealtClient.party o.request.Result) (B := (dealtServer sys).party (Child ⊕ ClientConnection))
      (o.request.perform host, script o.calls, fd) (Child.body host' (.serving self), script u.calls, s)
      (heard o.calls) (said o.calls) (o.left, [], fd') (heard u.calls) (said u.calls) (u.left, [], s') := by
  rw [heardBy, askedBy, List.flatMap_cons, List.flatMap_cons, unmark_append, unmark_append] at up
  rw [takenBy, answeredBy, List.flatMap_cons, List.flatMap_cons, unmark_append, unmark_append] at down
  refine ⟨Env.replays ho hclient hanswered, Env.replays hu hserver hserved,
    ⟨_, (List.prefix_append _ _).trans up, fun hne => hmore ?_⟩,
    ⟨_, (List.prefix_append _ _).trans down, fun hne => hmore' ?_⟩⟩
  all_goals
    rintro rfl
    exact hne rfl

theorem perform_command (host : Endian) (r : Request) :
    ∃ rest : (fd : Fd) → WriteReply (htobe16 r.command).length → ClientIo r.Result,
      r.perform host = ClientIo.sys .lock >>= fun _ => ClientIo.sys .getSocket >>= fun fd : Fd =>
        Sock.send .command fd (htobe16 r.command) >>= rest fd := by
  cases r <;> exact ⟨_, rfl⟩

private theorem said_command (ho : Runs (o.request.perform host) o.calls o.left)
    (hclient : ∀ ev ∈ o.calls, Flows (fun m => m = Kind.data → True) (fun m => m = Kind.data → False) ev)
    (hne : said o.calls ≠ []) : ∃ ys, said o.calls = encCmd o.request.command ++ ys := by
  obtain ⟨rest, hprogram⟩ := perform_command host o.request
  rw [hprogram] at ho
  rcases Sock.sys_cases ho with ⟨hnil, -⟩ | ⟨_, t₁, ht, h₁⟩
  · exact absurd (by rw [hnil]; rfl) hne
  rcases Sock.sys_cases h₁ with ⟨hnil, -⟩ | ⟨fd, t₂, ht₁, h₂⟩
  · exact absurd (by rw [ht, hnil]; rfl) hne
  rcases Sock.send_cases h₂ with ⟨hnil, -⟩ | ⟨r, t₃, ht₂, -⟩
  · exact absurd (by rw [ht, ht₁, hnil]; rfl) hne
  subst ht₁ ht₂
  have hsend := hclient ⟨.send .command fd (htobe16 o.request.command), r⟩ (by rw [ht]; simp)
  obtain ⟨-, k, hk, rfl, hwhole, -⟩ := hsend
  obtain rfl := hwhole (by rintro ⟨⟩)
  refine ⟨said t₃, ?_⟩
  rw [ht]
  change mark .command ((htobe16 _).take _) ++ said t₃ = _
  rw [WriteReply.moved, List.take_length]
  rfl

private theorem Request.exists_plain (r : Request) : ∃ res : r.Result, r.Plain res := by
  cases r with
  | heartbeat => exact ⟨0, rfl⟩
  | access | «open» => exact ⟨0, trivial⟩
  | getattr => exact ⟨(Stat.zero, -1), rfl⟩
  | readdir | readFile => exact ⟨([], -1), rfl⟩
  | writeFile => exact ⟨(0, -1), by decide, rfl⟩

theorem Errand.waiting (hf : 0 ≤ fd) (ho : Runs (o.request.perform host) o.calls o.left)
    (hanswered : Answered ClientSys.object fd o.calls fd')
    (hclient : ∀ ev ∈ o.calls, Flows (fun m => m = Kind.data → True) (fun m => m = Kind.data → False) ev)
    (hheard : heard o.calls = []) : ¬ o.Done := by
  rintro ⟨res, hres⟩
  obtain ⟨res', hplain⟩ := o.request.exists_plain
  obtain ⟨c, w, hask, hhear⟩ := asks (e := dealtClient) (Env.replay_prompt _ _ _) ClientSys.object_kept hf host
    o.request hplain (script o.calls)
  have hreach := Env.replays ho hclient hanswered
  rw [hheard] at hreach
  exact not_final_asking (A := dealtClient.party _) hask hhear (o.request.reply_ne_nil res') hreach ⟨res, hres⟩

private theorem Performed.waiting (hops : Performed host fd ops) (hf : 0 ≤ fd)
    (hclient : ∀ o ∈ ops, ∀ ev ∈ o.calls, Flows (fun m => m = Kind.data → True) (fun m => m = Kind.data → False) ev)
    (hnone : takenBy ops = []) : ∀ o ∈ ops, ¬ o.Done := by
  cases hops with
  | nil => exact nofun
  | @cons _ _ o ops runs answered done rest =>
    rw [takenBy, List.flatMap_cons, List.append_eq_nil_iff] at hnone
    have hwaiting := Errand.waiting hf runs answered (hclient o List.mem_cons_self) hnone.1
    obtain rfl : ops = [] := by_contra fun hne => hwaiting (done hne)
    exact List.forall_mem_singleton.mpr hwaiting

/-- The command that is decoded is that of the operation whose bytes are taken. -/
theorem decoded_of (ho : Runs (o.request.perform host) o.calls o.left)
    (hclient : ∀ ev ∈ o.calls, Flows (fun m => m = Kind.data → True) (fun m => m = Kind.data → False) ev)
    (hu : Runs (Child.body host' (.serving self)) u.calls u.left)
    (hserver : ∀ ev ∈ u.calls, Flows (fun m => m = Kind.data → False) (fun m => m = Kind.data → True) ev)
    (hpre : heard u.calls <+: said o.calls) (hne : u.calls ≠ []) : decoded host' u.calls = o.request.command := by
  obtain ⟨p, hp, -⟩ := Runs.bind_ret hu
  rcases runs_commandLoop hp with ⟨hnil, -⟩ | ⟨r, v, hcalls, -⟩
  · exact absurd hnil hne
  rw [hcalls] at hserver hpre ⊢
  obtain ⟨-, bs, hbs, rfl, hwhole, -⟩ := hserver _ List.mem_cons_self
  have htwo : bs.length = 2 := hwhole (by rintro ⟨⟩)
  rw [heard, ReadReply.bytes] at hpre
  have hsaid : said o.calls ≠ [] := by
    intro hnil
    rw [hnil, List.prefix_nil, List.append_eq_nil_iff] at hpre
    have hzero := congrArg List.length hpre.1
    rw [mark_length, htwo] at hzero
    cases hzero
  obtain ⟨ys, hys⟩ := said_command ho hclient hsaid
  rw [hys] at hpre
  obtain ⟨z, hz⟩ := hpre
  rw [List.append_assoc] at hz
  have hfirst : mark Kind.command bs = encCmd o.request.command :=
    List.append_inj_left hz (by rw [mark_length, htwo, encCmd, mark_length, htobe16_length])
  have hbytes : bs = htobe16 o.request.command := by simpa [encCmd] using congrArg unmark hfirst
  rw [decoded, ReadReply.bytes, hbytes, overlay_full (by simp), be16toh_htobe16]

private theorem Request.other_result (r : Request) (res : r.Result) : ∃ res' : r.Result, res ≠ res' := by
  cases r with
  | heartbeat | access | «open» => exact ⟨res + 1, fun h => by simp at h⟩
  | _ => exact ⟨(res.1, res.2 + 1), fun h => by simpa using congrArg Prod.snd h⟩

/-- Step of the history: an operation and the pass that answers it. -/
theorem inPair_of (hsteady : Steady sys self.mountPoint_ P) (hf : 0 ≤ fd) (hself : 0 ≤ self.socket_)
    (hp : P o.request) (hheld : o.request.Held) (ho : Runs (o.request.perform host) o.calls o.left)
    (hanswered : Answered ClientSys.object fd o.calls fd')
    (hclient : ∀ ev ∈ o.calls, Flows (fun m => m = Kind.data → True) (fun m => m = Kind.data → False) ev)
    (hu : Runs (Child.body host' (.serving self)) u.calls u.left) (hserved : Answered sys s u.calls s')
    (hserver : ∀ ev ∈ u.calls, Flows (fun m => m = Kind.data → False) (fun m => m = Kind.data → True) ev)
    (hstores : StoresAll u.calls) (hmore : ops ≠ [] → o.Done) (hmore' : us ≠ [] → u.Done)
    (up : unmark (heardBy (u :: us)) <+: unmark (askedBy (o :: ops)))
    (down : unmark (takenBy (o :: ops)) <+: unmark (answeredBy (u :: us))) :
    InPair host' o u ∧
      (o.Done → o.request.Delivered sys self (pieces u.calls) s ∧
        o.left = .ret (o.request.comesTo sys self (pieces u.calls) s).1 ∧ fd' = fd) ∧
      (u.Done → u.left = .ret (.inl (.serving self)) ∧ heard u.calls = o.request.sent sys self s ∧
        s' = (o.request.comesTo sys self (pieces u.calls) s).2) := by
  have hjoined := joined_of ho hanswered hclient hu hserved hserver hmore hmore' up down
  obtain ⟨hreads, hties⟩ :=
    tied_request hsteady hf hself host host' hp hheld hu hserver hserved hstores (script o.calls)
  have paired (res : o.request.Result) (t : τ)
      (h : TiedOver dealtClient (dealtServer sys) host host' self o.request (script o.calls) fd (script u.calls) s
        (heard u.calls) (said u.calls) (u.left, [], s') res t) :
      InPair host' o u ∧ (o.Done → o.left = .ret res ∧ fd' = fd) ∧
        (u.Done → u.left = .ret (.inl (.serving self)) ∧ heard u.calls = o.request.sent sys self s ∧ s' = t) := by
    obtain ⟨w, w', htied⟩ := h
    have hpaired := htied hjoined
    refine ⟨⟨decoded_of ho hclient hu hserver hpaired.up, hpaired.up, hpaired.down,
      fun hdone => (hpaired.served hdone).1, fun hdone => (hpaired.performed hdone).1⟩,
      fun hdone => ⟨?_, ?_⟩, fun hdone => ⟨?_, hreads hjoined hdone, ?_⟩⟩
    · exact congrArg Prod.fst (hpaired.performed hdone).2
    · exact congrArg (fun x => x.2.2) (hpaired.performed hdone).2
    · exact congrArg Prod.fst (hpaired.served hdone).2
    · exact congrArg (fun x => x.2.2) (hpaired.served hdone).2
  rcases hties with hany | ⟨hdelivered, htied⟩
  · obtain ⟨hpair, -, hend⟩ := paired _ _ (hany (o.request.comesTo sys self (pieces u.calls) s).1 _)
    refine ⟨hpair, fun ⟨res, hres⟩ => ?_, hend⟩
    -- a client that may come to any outcome has not come to one
    obtain ⟨res', hne⟩ := o.request.other_result res
    have hleft := (paired res' s (hany res' s)).2.1 ⟨res, hres⟩
    rw [hres] at hleft
    cases hleft.1
    exact absurd rfl hne
  · obtain ⟨hpair, hresult, hend⟩ := paired _ _ htied
    exact ⟨hpair, fun hdone => ⟨hdelivered, hresult hdone⟩, hend⟩

/-- Run of the history: as long as no transfer fails and none but those of payload comes short, and no
file write is refused before its payload is in, client and server are in step. -/
theorem inStep_of (hsteady : Steady sys self.mountPoint_ P) (hf : 0 ≤ fd) (hself : 0 ≤ self.socket_)
    (hops : Performed host fd ops) (hus : Served host' sys self s us)
    (hasked : ∀ o ∈ ops, P o.request ∧ o.request.Held)
    (hclient : ∀ o ∈ ops, ∀ ev ∈ o.calls, Flows (fun m => m = Kind.data → True) (fun m => m = Kind.data → False) ev)
    (hserver : ∀ u ∈ us, u.Missed ∨
      ∀ ev ∈ u.calls, Flows (fun m => m = Kind.data → False) (fun m => m = Kind.data → True) ev)
    (hstores : ∀ u ∈ us, StoresAll u.calls) (up : unmark (heardBy us) <+: unmark (askedBy ops))
    (down : unmark (takenBy ops) <+: unmark (answeredBy us)) : InStep host' sys self s ops us := by
  have nothing {xs : Marked Kind} (h : unmark xs <+: []) : xs = [] := List.map_eq_nil_iff.mp (List.prefix_nil.mp h)
  induction hus generalizing ops with
  | nil => exact .ahead (nothing down) (hops.waiting hf hclient (nothing down))
  | @cons self next s s' u us runs answered done rest ih =>
    obtain ⟨hu, hus⟩ := List.forall_mem_cons.mp hserver
    obtain ⟨hstore, hstores⟩ := List.forall_mem_cons.mp hstores
    -- the rest, when `ops'` are the operations that are left and the streams go on with them
    have onward (ops' : List Errand) (t : τ) (hops' : Performed host fd ops') (hsub : ∀ o ∈ ops', o ∈ ops)
        (hlast : us = [] → takenBy ops' = [])
        (hnext : us ≠ [] → next.socket_ = self.socket_ ∧ next.mountPoint_ = self.mountPoint_ ∧ s' = t ∧
          unmark (heardBy us) <+: unmark (askedBy ops') ∧
          unmark (takenBy ops') <+: unmark (answeredBy us)) : InStep host' sys next t ops' us := by
      by_cases hnil : us = []
      · rw [hnil]
        exact .ahead (hlast hnil) (hops'.waiting hf (fun o ho => hclient o (hsub o ho)) (hlast hnil))
      · obtain ⟨hsocket, hmount, rfl, hup, hdown⟩ := hnext hnil
        exact ih (hmount ▸ hsteady) (hsocket ▸ hself) hops' (fun o ho => hasked o (hsub o ho))
          (fun o ho => hclient o (hsub o ho)) hus
          hstores hup hdown
    by_cases hm : u.Missed
    · obtain ⟨hheard, hsaid, hnext⟩ := hm.silent runs answered
      rw [heardBy, List.flatMap_cons, hheard, List.nil_append] at up
      rw [answeredBy, List.flatMap_cons, hsaid, List.nil_append] at down
      refine .missed (fun hne => (hnext _ (done hne)).2.1) hm hheard hsaid (onward ops s hops (fun _ h => h)
        (fun hnil => ?_) fun hne => ⟨(hnext _ (done hne)).1, (hnext _ (done hne)).2.1, (hnext _ (done hne)).2.2, up,
        down⟩)
      rw [hnil] at down
      exact nothing down
    have hflows := hu.resolve_left hm
    have hmore' (hne : us ≠ []) : u.Done := ⟨_, done hne⟩
    cases hops with
    | nil =>
      have hnone := nothing up
      rw [heardBy, List.flatMap_cons, List.append_eq_nil_iff] at hnone
      obtain ⟨hcalls, hopen⟩ := Pass.idle runs hflows hnone.1
      obtain rfl : us = [] := by_contra fun hne => hopen (hmore' hne)
      exact .waits hcalls hopen
    | @cons _ fd' o ops runs' answered' done' rest' =>
      obtain ⟨⟨hp, hheld⟩, -⟩ := List.forall_mem_cons.mp hasked
      obtain ⟨hcliento, -⟩ := List.forall_mem_cons.mp hclient
      obtain ⟨hpair, hresult, hend⟩ := inPair_of hsteady hf hself hp hheld runs' answered' hcliento runs answered hflows
        hstore done' hmore' up down
      rw [heardBy, askedBy, List.flatMap_cons, List.flatMap_cons, unmark_append, unmark_append] at up
      rw [takenBy, answeredBy, List.flatMap_cons, List.flatMap_cons, unmark_append, unmark_append] at down
      have htaken (hne : ops ≠ []) : unmark (takenBy ops) <+: unmark (answeredBy us) := by
        rw [hpair.performed (done' hne), List.prefix_append_right_inj] at down
        exact down
      have hops : Performed host fd ops := by
        by_cases hnil : ops = []
        · rw [hnil]
          exact .nil fd
        · rw [← (hresult (done' hnil)).2.2]
          exact rest'
      have hnext (hne : us ≠ []) : next = self := by
        have hleft := (done hne).symm.trans (hend (hmore' hne)).1
        cases hleft
        rfl
      refine .pair (fun hne => by rw [hnext hne]) hm hpair (fun hdone => (hend hdone).2.1)
        (fun hdone => ⟨(hresult hdone).1, (hresult hdone).2.1⟩)
        (onward ops _ hops (fun _ h => List.mem_cons_of_mem _ h) (fun hnil => ?_) fun hne => ?_)
      · by_cases hops : ops = []
        · rw [hops]
          rfl
        · have hnone := htaken hops
          rw [hnil] at hnone
          exact nothing hnone
      · rw [hpair.served (hmore' hne), List.prefix_append_right_inj] at up
        refine ⟨by rw [hnext hne], by rw [hnext hne], (hend (hmore' hne)).2.2, up, ?_⟩
        · by_cases hops : ops = []
          · rw [hops]
            exact List.nil_prefix
          · exact htaken hops

end Step

/-- What a client and a server have done on one connection. The streams deliver in order: what a side has
taken is a beginning of what the other has sent. -/
structure Exchange {τ : Type} (host host' : Endian) (fd : Fd) (sys : τ → (c : ServerCall) → τ × ServerSys.Reply c)
    (conn : ClientConnection) (s : τ) where
  errands : List Errand
  passes : List Pass
  performed : Performed host fd errands
  served : Served host' sys conn s passes
  up : unmark (heardBy passes) <+: unmark (askedBy errands)
  down : unmark (takenBy errands) <+: unmark (answeredBy passes)

def Exchange.Asks {τ : Type} {host host' : Endian} {fd : Fd} {sys : τ → (c : ServerCall) → τ × ServerSys.Reply c}
    {conn : ClientConnection} {s : τ} (x : Exchange host host' fd sys conn s) (r : Request) : Prop :=
  ∃ o ∈ x.errands, o.request = r

/-- No transfer fails, apart from the wait for a command, and none comes short, apart from those of the
payload of a write; memory does not run out; and no file write is refused before its payload is in. -/
structure Exchange.Unbroken {τ : Type} {host host' : Endian} {fd : Fd}
    {sys : τ → (c : ServerCall) → τ × ServerSys.Reply c} {conn : ClientConnection} {s : τ}
    (x : Exchange host host' fd sys conn s) : Prop where
  client : ∀ o ∈ x.errands, ∀ ev ∈ o.calls,
    Flows (fun m => m = Kind.data → True) (fun m => m = Kind.data → False) ev
  server : ∀ u ∈ x.passes, u.Missed ∨
    ∀ ev ∈ u.calls, Flows (fun m => m = Kind.data → False) (fun m => m = Kind.data → True) ev
  stores : ∀ u ∈ x.passes, StoresAll u.calls

theorem Exchange.inStep {τ : Type} {host host' : Endian} {fd : Fd}
    {sys : τ → (c : ServerCall) → τ × ServerSys.Reply c} {conn : ClientConnection} {s : τ}
    {x : Exchange host host' fd sys conn s} (h : x.Unbroken) (hsteady : Steady sys conn.mountPoint_ x.Asks)
    (hf : 0 ≤ fd) (hself : 0 ≤ conn.socket_) (hheld : ∀ o ∈ x.errands, o.request.Held) :
    InStep host' sys conn s x.errands x.passes :=
  inStep_of hsteady hf hself x.performed x.served (fun o ho => ⟨⟨o, ho, rfl⟩, hheld o ho⟩) h.client h.server
    h.stores x.up x.down

/-- The same, where all that is asked for is of a kind. -/
theorem Exchange.Unbroken.inStep_of_meets {τ : Type} {host host' : Endian} {fd : Fd}
    {sys : τ → (c : ServerCall) → τ × ServerSys.Reply c} {conn : ClientConnection} {s : τ}
    {x : Exchange host host' fd sys conn s} (h : x.Unbroken) {P : Request → Prop}
    (hsteady : Steady sys conn.mountPoint_ P)
    (hf : 0 ≤ fd) (hself : 0 ≤ conn.socket_) (hheld : ∀ r, P r → r.Held) (hmeets : ∀ o ∈ x.errands, P o.request) :
    InStep host' sys conn s x.errands x.passes := by
  refine Exchange.inStep h (hsteady.mono ?_) hf hself fun o ho => hheld _ (hmeets o ho)
  rintro _ ⟨o, ho, rfl⟩
  exact hmeets o ho

end AgFS
