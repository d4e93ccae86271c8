import AgFS.Files.Framing

/-! Which pass has sent the bytes that an operation takes. -/
namespace AgFS
open Interaction ByteOrder Sock

/-- The client's transfers are as they should be up to some call; after it nothing is sent any more, and only the
operation that has made it may still take something. -/
def WaitsOut (ops : List Errand) : Prop :=
  (∀ o ∈ ops, ∀ ev ∈ o.calls, Flows (fun m => m = Kind.data → True) (fun m => m = Kind.data → False) ev) ∨
    ∃ ops₁ o ops₂ t₁ t₂, ops = ops₁ ++ o :: ops₂ ∧ o.calls = t₁ ++ t₂ ∧
      (∀ o ∈ ops₁, ∀ ev ∈ o.calls, Flows (fun m => m = Kind.data → True) (fun m => m = Kind.data → False) ev) ∧
      (∀ ev ∈ t₁, Flows (fun m => m = Kind.data → True) (fun m => m = Kind.data → False) ev) ∧
      said t₂ = [] ∧ askedBy ops₂ = [] ∧ takenBy ops₂ = []

/-- An operation that has taken something has taken it from the pass over its own request: that pass began
where the request began, all that was sent before it has been taken by earlier operations, and it has sent
what the operation has taken. -/
def Exchange.Attributed {τ : Type} {host host' : Endian} {fd : Fd}
    {sys : τ → (c : ServerCall) → τ × ServerSys.Reply c} {conn : ClientConnection} {s : τ}
    (x : Exchange host host' fd sys conn s) : Prop :=
  ∀ ops o ops', x.errands = ops ++ o :: ops' → heard o.calls ≠ [] →
    ∃ us u us', x.passes = us ++ u :: us' ∧ heardBy us = askedBy ops ∧ answeredBy us = takenBy ops ∧
      decoded host' u.calls = o.request.command ∧ heard u.calls <+: said o.calls ∧ heard o.calls <+: said u.calls

section
variable {τ : Type} {host host' : Endian} {fd : Fd} {sys : τ → (c : ServerCall) → τ × ServerSys.Reply c}
  {self conn : ClientConnection} {s : τ} {ops : List Errand} {us : List Pass}

/-- A read of the client times out only when it sends nothing more and no later operation takes anything; the
server's transfers do not fail, apart from the wait for a command, and none comes short but those of payload; and no
file write is refused before its payload is in. -/
structure Exchange.Patient (x : Exchange host host' fd sys conn s) : Prop where
  client : WaitsOut x.errands
  server : ∀ u ∈ x.passes, u.Missed ∨
    ∀ ev ∈ u.calls, Flows (fun m => m = Kind.data → False) (fun m => m = Kind.data → True) ev
  stores : ∀ u ∈ x.passes, StoresAll u.calls

/-- The bytes that an operation decodes have been written by the pass over its own request: the requests before it
have been read, and what was written for them has been taken, when that pass begins. -/
def Exchange.OwnReplies (x : Exchange host host' fd sys conn s) : Prop :=
  ∀ ops o ops', x.errands = ops ++ o :: ops' → heard o.calls ≠ [] →
    ∃ us u us', x.passes = us ++ u :: us' ∧ heardBy us = askedBy ops ∧ answeredBy us = takenBy ops ∧
      decoded host' u.calls = o.request.command ∧ heard u.calls <+: said o.calls ∧
      unmark (heard o.calls) <+: unmark (said u.calls)

private theorem said_nil_of_calls {t : List ServerEvent} (h : said t ≠ []) : t ≠ [] := by
  rintro rfl
  exact h rfl

/-- Where an operation stands among the passes: none has come to it, or one is over its request, with the earlier
requests and replies behind it. -/
private theorem InStep.at_errand (h : InStep host sys self s ops us)
    (hdone : ∀ ops₁ o ops₂, ops = ops₁ ++ o :: ops₂ → ops₂ ≠ [] → o.Done)
    (hserved : ∀ us₁ u us₂, us = us₁ ++ u :: us₂ → us₂ ≠ [] → u.Done) {ops₁ ops₂ : List Errand} {o : Errand}
    (hops : ops = ops₁ ++ o :: ops₂) :
    answeredBy us = takenBy ops₁ ∧ heard o.calls = [] ∨
      ∃ us₁ u us₂, us = us₁ ++ u :: us₂ ∧ heardBy us₁ = askedBy ops₁ ∧ answeredBy us₁ = takenBy ops₁ ∧
        InPair host o u ∧ ∃ (next : ClientConnection) (t : τ), InStep host sys next t ops₂ us₂ := by
  induction h generalizing ops₁ with
  | ahead hnone =>
    rw [hops, takenBy, List.flatMap_append, List.flatMap_cons, List.append_eq_nil_iff, List.append_eq_nil_iff] at hnone
    exact .inl ⟨hnone.1.symm, hnone.2.1⟩
  | waits => cases ops₁ <;> cases hops
  | @missed _ _ _ ops u us same hm took gave rest ih =>
    rcases ih hdone (fun us₁ w us₂ h => hserved (u :: us₁) w us₂ (congrArg _ h)) hops with
      ⟨hanswered, hnone⟩ | ⟨us₁, w, us₂, rfl, hheard, hanswered, hpair⟩
    · rw [answeredBy, List.flatMap_cons, gave]
      exact .inl ⟨hanswered, hnone⟩
    · refine .inr ⟨u :: us₁, w, us₂, rfl, ?_, ?_, hpair⟩
      · rw [heardBy, List.flatMap_cons, took]
        exact hheard
      · rw [answeredBy, List.flatMap_cons, gave]
        exact hanswered
  | @pair _ next _ o' ops u us same came hpair reads result rest ih =>
    cases ops₁ with
    | nil =>
      obtain ⟨rfl, rfl⟩ := List.cons.inj hops
      exact .inr ⟨[], u, us, rfl, rfl, rfl, hpair, _, _, rest⟩
    | cons o'' ops₁ =>
      obtain ⟨rfl, htail⟩ := List.cons.inj hops
      have ho : o'.Done := hdone [] o' ops rfl (by rw [htail]; simp)
      have hsame : said u.calls = heard o'.calls := (hpair.performed ho).symm
      rcases ih (fun a b c h => hdone (o' :: a) b c (congrArg _ h))
        (fun a b c h => hserved (u :: a) b c (congrArg _ h)) htail with
        ⟨hanswered, hnone⟩ | ⟨us₁, w, us₂, rfl, hheard, hanswered, hrest⟩
      · refine .inl ⟨?_, hnone⟩
        rw [answeredBy, takenBy, List.flatMap_cons, List.flatMap_cons, hsame]
        exact congrArg _ hanswered
      · have hu : u.Done := hserved [] u _ rfl (by simp)
        refine .inr ⟨u :: us₁, w, us₂, rfl, ?_, ?_, hrest⟩
        · rw [heardBy, askedBy, List.flatMap_cons, List.flatMap_cons, hpair.served hu]
          exact congrArg _ hheard
        · rw [answeredBy, takenBy, List.flatMap_cons, List.flatMap_cons, hsame]
          exact congrArg _ hanswered

private theorem InStep.attributed (h : InStep host sys self s ops us)
    (hdone : ∀ ops₁ o ops₂, ops = ops₁ ++ o :: ops₂ → ops₂ ≠ [] → o.Done)
    (hserved : ∀ us₁ u us₂, us = us₁ ++ u :: us₂ → us₂ ≠ [] → u.Done) {ops₁ ops₂ : List Errand} {o : Errand}
    (hops : ops = ops₁ ++ o :: ops₂) (htook : heard o.calls ≠ []) :
    ∃ us₁ u us₂, us = us₁ ++ u :: us₂ ∧ heardBy us₁ = askedBy ops₁ ∧ answeredBy us₁ = takenBy ops₁ ∧
      decoded host u.calls = o.request.command ∧ heard u.calls <+: said o.calls ∧ heard o.calls <+: said u.calls := by
  rcases h.at_errand hdone hserved hops with ⟨-, hnone⟩ | ⟨us₁, u, us₂, hus, hheard, hanswered, hpair, -⟩
  · exact absurd hnone htook
  · have hsaid : said u.calls ≠ [] := fun hnil => htook (List.prefix_nil.mp (hnil ▸ hpair.down))
    exact ⟨us₁, u, us₂, hus, hheard, hanswered, hpair.command (said_nil_of_calls hsaid), hpair.up, hpair.down⟩

/-- As long as the transfers are unbroken, no reply is taken for that to another request. -/
theorem exchange_attributed {x : Exchange host host' fd sys conn s} (hsteady : Steady sys conn.mountPoint_ x.Asks)
    (hf : 0 ≤ fd) (hconn : 0 ≤ conn.socket_) (hheld : ∀ o ∈ x.errands, o.request.Held) (h : x.Unbroken) :
    x.Attributed :=
  fun _ _ _ hops => (Exchange.inStep h hsteady hf hconn hheld).attributed (fun _ _ _ => x.performed.done)
    (fun _ _ _ => x.served.done) hops

private theorem InStep.unanswered (h : InStep host sys self s [] us) : answeredBy us = [] := by
  generalize hops : ([] : List Errand) = ops at h
  induction h with
  | ahead => rfl
  | @waits _ _ u hcalls _ =>
    rw [answeredBy, List.flatMap_singleton, hcalls]
    rfl
  | missed same hm took gave rest ih =>
    rw [answeredBy, List.flatMap_cons, gave]
    exact ih hops
  | pair => cases hops

private theorem Exchange.cut_asks {x y : Exchange host host' fd sys conn s} {ops₁ ops₂ : List Errand} {o : Errand}
    {t₁ : List ClientEvent} {left : ClientIo o.request.Result} (hx : x.errands = ops₁ ++ o :: ops₂)
    (hy : y.errands = ops₁ ++ [⟨o.request, t₁, left⟩]) {r : Request} (h : y.Asks r) : x.Asks r := by
  obtain ⟨o', ho', rfl⟩ := h
  rw [hy] at ho'
  rcases List.mem_append.mp ho' with hbefore | hlast
  · exact ⟨o', hx ▸ List.mem_append_left _ hbefore, rfl⟩
  · obtain rfl := List.mem_singleton.mp hlast
    exact ⟨o, hx ▸ List.mem_append_right _ List.mem_cons_self, rfl⟩

/-- What the operation under way takes, also when it takes it after its cut, is of the pass over its request. -/
private theorem Exchange.own_at_cut {x y : Exchange host host' fd sys conn s} {ops₁ ops₂ : List Errand} {o : Errand}
    {t₁ t₂ : List ClientEvent} {left : ClientIo o.request.Result} (hx : x.errands = ops₁ ++ o :: ops₂)
    (ht : o.calls = t₁ ++ t₂) (hsaid : said t₂ = []) (hnone : takenBy ops₂ = [])
    (hy : y.errands = ops₁ ++ [⟨o.request, t₁, left⟩]) (hpasses : y.passes = x.passes)
    (hstep : InStep host' sys conn s y.errands y.passes) (htook : heard o.calls ≠ []) :
    ∃ us u us', x.passes = us ++ u :: us' ∧ heardBy us = askedBy ops₁ ∧ answeredBy us = takenBy ops₁ ∧
      decoded host' u.calls = o.request.command ∧ heard u.calls <+: said o.calls ∧
      unmark (heard o.calls) <+: unmark (said u.calls) := by
  have down := x.down
  rw [hx, takenBy, List.flatMap_append, List.flatMap_cons] at down
  change unmark (takenBy ops₁ ++ (heard o.calls ++ takenBy ops₂)) <+: _ at down
  rw [hnone, List.append_nil, unmark_append] at down
  have hbytes : unmark (heard o.calls) ≠ [] := fun hnil => htook (List.map_eq_nil_iff.mp hnil)
  rcases hstep.at_errand (fun _ _ _ => y.performed.done) (fun _ _ _ => y.served.done) hy with
    ⟨hanswered, -⟩ | ⟨us, u, us', hus, hheard, hanswered, hpair, next, s', hrest⟩
  · rw [← hpasses, hanswered, ← unmark_append] at down
    exact absurd (eq_nil_of_append down) htook
  · rw [← hpasses, hus, answeredBy, List.flatMap_append, List.flatMap_cons] at down
    change _ <+: unmark (answeredBy us ++ (said u.calls ++ answeredBy us')) at down
    rw [hanswered, hrest.unanswered, List.append_nil, unmark_append, List.prefix_append_right_inj] at down
    refine ⟨us, u, us', hpasses ▸ hus, hheard, hanswered, hpair.command ?_, ?_, down⟩
    · intro hnil
      rw [hnil] at down
      exact hbytes (List.prefix_nil.mp down)
    · rw [ht, said_append, hsaid, List.append_nil]
      exact hpair.up

/-- As long as a client whose read has timed out sends nothing more and no later operation reads, every reply is
decoded by the operation that has asked for it. -/
theorem replies_own {x : Exchange host host' fd sys conn s} (hsteady : Steady sys conn.mountPoint_ x.Asks)
    (hf : 0 ≤ fd) (hconn : 0 ≤ conn.socket_) (hheld : ∀ o ∈ x.errands, o.request.Held) (h : x.Patient) :
    x.OwnReplies := by
  obtain ⟨hclient, hserver, hstores⟩ := h
  have hheld' (r : Request) (hr : x.Asks r) : r.Held := by
    obtain ⟨o, ho, rfl⟩ := hr
    exact hheld o ho
  have attributed {y : Exchange host host' fd sys conn s} (hy : y.Unbroken) (hpasses : y.passes = x.passes)
      (hsub : ∀ o ∈ y.errands, x.Asks o.request) {ops ops' : List Errand} {o : Errand}
      (hops : y.errands = ops ++ o :: ops') (htook : heard o.calls ≠ []) :
      ∃ us u us', x.passes = us ++ u :: us' ∧ heardBy us = askedBy ops ∧ answeredBy us = takenBy ops ∧
        decoded host' u.calls = o.request.command ∧ heard u.calls <+: said o.calls ∧
        unmark (heard o.calls) <+: unmark (said u.calls) := by
    obtain ⟨us, u, us', hus, hheard, hanswered, hcommand, hup, hdown⟩ :=
      (hy.inStep_of_meets hsteady hf hconn hheld' hsub).attributed (fun _ _ _ => y.performed.done)
        (fun _ _ _ => y.served.done) hops htook
    exact ⟨us, u, us', hpasses ▸ hus, hheard, hanswered, hcommand, hup, unmark_mono hdown⟩
  intro ops o ops' hops htook
  rcases hclient with hclient | ⟨ops₁, o₁, ops₂, t₁, t₂, hx, ht, hbefore, hflows, hsaid, hasked, hnone⟩
  · exact attributed ⟨hclient, hserver, hstores⟩ rfl (fun o ho => ⟨o, ho, rfl⟩) hops htook
  obtain ⟨y, left, hy, hpasses⟩ := x.exists_cut hx ht hsaid hasked
  have hunbroken : y.Unbroken := by
    refine ⟨?_, hpasses ▸ hserver, hpasses ▸ hstores⟩
    rw [hy]
    exact List.forall_mem_append.mpr ⟨hbefore, List.forall_mem_singleton.mpr hflows⟩
  have hsub (o : Errand) (ho : o ∈ y.errands) : x.Asks o.request := Exchange.cut_asks hx hy ⟨o, ho, rfl⟩
  rcases cut_cases (hx.symm.trans hops) with ⟨rfl, rfl, rfl⟩ | ⟨mid, rfl⟩ | ⟨mid, rfl⟩
  · have hstep := hunbroken.inStep_of_meets hsteady hf hconn hheld' hsub
    exact Exchange.own_at_cut hx ht hsaid hnone hy hpasses hstep htook
  · rw [List.append_assoc, List.cons_append] at hy
    exact attributed hunbroken hpasses hsub hy htook
  · rw [takenBy, List.flatMap_append, List.flatMap_cons] at hnone
    exact absurd (List.append_eq_nil_iff.mp (List.append_eq_nil_iff.mp hnone).2).1 htook

end

theorem exchange_attributed_twoPieces : twoPieces.Attributed :=
  exchange_attributed roomyDisk_steady (by decide) (by decide) twoPieces_held twoPieces_unbroken

/-- `getattr`, when its reads come out like this. -/
def getting (path : CString) (reads : List ClientEvent) (res : Stat × AgerrT) : Errand where
  request := .getattr path
  calls := [⟨.sys .lock, ()⟩, ⟨.sys .getSocket, (3 : Fd)⟩, ⟨.send .command 3 (htobe16 cmd.GETATTR), .all _⟩,
    ⟨.sys .getSocket, (3 : Fd)⟩, ⟨.send .field 3 (htobe64 (UInt64.ofNat path.1.length)), .all _⟩,
    ⟨.send .text 3 path.1, .all _⟩, ⟨.sys .getSocket, (3 : Fd)⟩] ++ reads ++ [⟨.sys .unlock, ()⟩]
  left := .ret res

abbrev otherFile : CString := ⟨[0x62], by decide⟩

/-- No answer comes: the error keeps its 0, and nothing is read into the stat. -/
def timedOut : Errand :=
  getting storedFile [⟨.recv .field 3 8, .fail .EAGAIN⟩, ⟨.sys .getSocket, (3 : Fd)⟩, ⟨.scratch 8, Block.zeros 8⟩,
    ⟨.recv .field 3 8, .fail .EAGAIN⟩] (Stat.zero, 0)

/-- The answer comes when the error has been waited for in vain. -/
def answeredLate : Errand :=
  getting storedFile [⟨.recv .field 3 8, .fail .EAGAIN⟩, ⟨.sys .getSocket, (3 : Fd)⟩, ⟨.scratch 8, Block.zeros 8⟩,
    ⟨.recv .field 3 8, fieldReply Errno.ENOENT.neg.toUInt64⟩, ⟨.scratch 4, Block.zeros 4⟩,
    ⟨.recv .field 3 4, .fail .EAGAIN⟩] (Stat.zero, 0)

def gettingPass (name : UInt8) : Pass where
  calls := [⟨.recv .command 4 2, commandReply cmd.GETATTR⟩, ⟨.recv .field 4 8, fieldReply 1⟩,
    ⟨.malloc 2, some (.zeros 2)⟩, ⟨.recv .text 4 1, wholeReply [name]⟩, ⟨.sys (.lstat [0x2F, name]), .error .ENOENT⟩,
    ⟨.send .field 4 (htobe64 Errno.ENOENT.neg.toUInt64), .all _⟩]
  left := .ret (.inl (.serving rootServer))

def lastWaits : Exchange .little .little 3 roomyDisk rootServer () where
  errands := [accessing, answeredLate]
  passes := [accessingPass, gettingPass 0x61]
  performed := by
    refine @Performed.cons _ _ 3 _ _ ?_ ?_ (fun _ => ⟨_, rfl⟩) (.cons ?_ ?_ (fun h => absurd rfl h) (.nil 3))
    · repeat apply Runs.step
      exact .refl _
    · simp [accessing, Answered, ClientSys.object]
    · repeat apply Runs.step
      exact .refl _
    · simp [answeredLate, getting, Answered, ClientSys.object]
  served := by
    refine @Served.cons _ _ _ _ rootServer _ () _ _ ?_ ?_ (fun _ => rfl)
      (.cons ?_ ?_ (fun h => absurd rfl h) (.nil rootServer ()))
    · repeat apply Runs.step
      exact .refl _
    · simp [accessingPass, Answered, roomyDisk, ServerSys.roomy, ServerSys.silent]
    · repeat apply Runs.step
      exact .refl _
    · simp [gettingPass, Answered, roomyDisk, ServerSys.roomy, ServerSys.silent]
  up := by decide
  down := by decide

theorem replies_own_lastWaits : lastWaits.OwnReplies := by
  refine replies_own roomyDisk_steady (by decide) (by decide) ?_ ⟨.inr ⟨[accessing], answeredLate, [],
    answeredLate.calls.take 7, answeredLate.calls.drop 7, rfl, (List.take_append_drop 7 _).symm, ?_, ?_, by decide, rfl,
    rfl⟩, ?_, ?_⟩
  · exact List.forall_mem_cons.mpr ⟨storedFile_addressable, List.forall_mem_singleton.mpr storedFile_addressable⟩
  · exact List.forall_mem_singleton.mpr accessing_flows
  · simp [answeredLate, getting]
  · refine List.forall_mem_cons.mpr ⟨.inr accessingPass_flows, List.forall_mem_singleton.mpr (.inr ?_)⟩
    simp [gettingPass]
    decide
  · exact List.forall_mem_cons.mpr ⟨.of_stored (by decide), List.forall_mem_singleton.mpr (.of_stored (by decide))⟩

/-- `getattr` of `/a` gives up; the answer comes, and `getattr` of `/b` takes it. -/
def lateReply : Exchange .little .little 3 roomyDisk rootServer () where
  errands := [timedOut, getting otherFile [⟨.recv .field 3 8, fieldReply Errno.ENOENT.neg.toUInt64⟩]
    (Stat.zero, Errno.ENOENT.neg)]
  passes := [gettingPass 0x61]
  performed := by
    refine @Performed.cons _ _ 3 _ _ ?_ ?_ (fun _ => ⟨_, rfl⟩) (.cons ?_ ?_ (fun h => absurd rfl h) (.nil 3))
    · repeat apply Runs.step
      exact .refl _
    · simp [timedOut, getting, Answered, ClientSys.object]
    · repeat apply Runs.step
      exact .refl _
    · simp [getting, Answered, ClientSys.object]
  served := by
    refine .cons ?_ ?_ (fun h => absurd rfl h) (.nil rootServer ())
    · repeat apply Runs.step
      exact .refl _
    · simp [gettingPass, Answered, roomyDisk, ServerSys.roomy, ServerSys.silent]
  up := by decide
  down := by decide

theorem not_replies_own_lateReply : ¬ lateReply.OwnReplies := by
  intro h
  obtain ⟨us, u, us', hus, hheard, -⟩ := h [timedOut] _ [] rfl (by decide)
  cases us with
  | nil => exact absurd hheard (by decide)
  | cons w us => cases us <;> cases (List.cons.inj hus).2

end AgFS
