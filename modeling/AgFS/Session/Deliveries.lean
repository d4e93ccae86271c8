import AgFS.Session.Segments

/-! Two exchanges of the same requests in which the bytes come in different deliveries, compared operation by
operation and pass by pass. -/
namespace AgFS
open Interaction ByteOrder Sock

instance : DecidablePred Pass.Missed :=
  fun u => inferInstanceAs (Decidable (u.calls ≠ [] ∧ commandRead u.calls = .missed))

/-- The passes without those that have waited for a command in vain. -/
def answering (us : List Pass) : List Pass := us.filter fun u => ¬ u.Missed

section
variable {τ : Type} {host host' : Endian} {fd fd' : Fd} {sys : τ → (c : ServerCall) → τ × ServerSys.Reply c}
  {Writable : τ → Fd → Prop} {self conn : ClientConnection} {s : τ} {ops ops' : List Errand} {us us' : List Pass}

/-- What does not depend on the deliveries: operations that have returned in both exchanges have returned the same,
and pass by pass the server has decoded the same command, and, when the pass is over, the same arguments. -/
structure SameCourse (host : Endian) (ops : List Errand) (us : List Pass) (ops' : List Errand) (us' : List Pass) :
    Prop where
  results : ∀ (k : Nat) (o o' : Errand), ops[k]? = some o → ops'[k]? = some o' → o.Done → o'.Done → o.asked = o'.asked
  commands : ∀ (k : Nat) (u u' : Pass), us[k]? = some u → us'[k]? = some u' → u.calls ≠ [] → u'.calls ≠ [] →
    decoded host u.calls = decoded host u'.calls
  arguments : ∀ (k : Nat) (u u' : Pass), us[k]? = some u → us'[k]? = some u' → u.Done → u'.Done →
    heard u.calls = heard u'.calls

def Exchange.Same (x : Exchange host host' fd sys conn s) (y : Exchange host host' fd' sys conn s) : Prop :=
  SameCourse host' x.errands (answering x.passes) y.errands (answering y.passes)

/-- Payloads that come to `processWrite` in the same pieces, or in such as differ only before the last one when the
file takes all it is given. -/
def CutAlike (sys : τ → (c : ServerCall) → τ × ServerSys.Reply c) (Writable : τ → Fd → Prop) (us us' : List Pass) :
    Prop :=
  ∀ (k : Nat) (u u' : Pass), us[k]? = some u → us'[k]? = some u' → pieces u.calls = pieces u'.calls ∨
    Seamless sys Writable ∧ (pieces u.calls).getLast?.map List.length = (pieces u'.calls).getLast?.map List.length

/-- Operations with the passes over them, told by what their requests come to. -/
inductive Turns (host : Endian) (sys : τ → (c : ServerCall) → τ × ServerSys.Reply c) (conn : ClientConnection) :
    τ → List Errand → List Pass → Prop
  | ended {s : τ} {ops : List Errand} {us : List Pass} (waiting : ∀ o ∈ ops, ¬ o.Done)
      (idle : ∀ u ∈ us, u.calls = [] ∧ ¬ u.Done) : Turns host sys conn s ops us
  | turn {s : τ} {o : Errand} {ops : List Errand} {u : Pass} {us : List Pass} (last : ¬ o.Done → ops = [])
      (command : u.calls ≠ [] → decoded host u.calls = o.request.command)
      (reads : u.Done → heard u.calls = o.request.sent sys conn s)
      (result : o.Done → o.request.Delivered sys conn (pieces u.calls) s ∧
        o.left = .ret (o.request.comesTo sys conn (pieces u.calls) s).1)
      (rest : Turns host sys conn (o.request.comesTo sys conn (pieces u.calls) s).2 ops us) :
      Turns host sys conn s (o :: ops) (u :: us)

private theorem Request.sent_congr (h : self.mountPoint_ = conn.mountPoint_) (r : Request) (s : τ) :
    r.sent sys self s = r.sent sys conn s := by
  cases r with
  | writeFile path offset buf =>
    have hfile : self.file path.1 = conn.file path.1 := by
      rw [ClientConnection.file, ClientConnection.file, h]
    rw [Request.sent, Request.sent, hfile]
    rcases sys s (.open (cstr (conn.file path.1)) O_WRONLY) with ⟨t, err | fd⟩ <;> rfl
  | _ => rfl

private theorem Request.delivered_congr (h : self.mountPoint_ = conn.mountPoint_) {r : Request} {chunks : List Bytes}
    (hr : r.Delivered sys self chunks s) : r.Delivered sys conn chunks s := by
  cases r with
  | writeFile path offset buf =>
    have hfile : self.file path.1 = conn.file path.1 := by
      rw [ClientConnection.file, ClientConnection.file, h]
    rw [Request.Delivered, hfile] at hr
    exact hr
  | _ => trivial

private theorem InStep.turns (h : InStep host sys self s ops us) (hself : us ≠ [] → self.mountPoint_ = conn.mountPoint_)
    (hdone : ∀ ops₁ o ops₂, ops = ops₁ ++ o :: ops₂ → ops₂ ≠ [] → o.Done) :
    Turns host sys conn s ops (answering us) := by
  induction h with
  | ahead hnone hwaiting => exact .ended hwaiting nofun
  | @waits _ s u hcalls hopen =>
    refine .ended nofun fun w hw => ?_
    obtain rfl := List.mem_singleton.mp (List.mem_filter.mp hw).1
    exact ⟨hcalls, hopen⟩
  | @missed _ _ _ ops u us same hm took gave rest ih =>
    have hskip : answering (u :: us) = answering us := List.filter_cons_of_neg (by simpa using hm)
    rw [hskip]
    exact ih (fun hne => (same hne).trans (hself (List.cons_ne_nil _ _))) hdone
  | @pair self next s o ops u us same came hpair reads result rest ih =>
    have hmount := hself (List.cons_ne_nil _ _)
    have hkeep : answering (u :: us) = u :: answering us := List.filter_cons_of_pos (by simpa using came)
    have hcomes : o.request.comesTo sys conn (pieces u.calls) s = o.request.comesTo sys self (pieces u.calls) s :=
      Request.comesTo_congr hmount.symm o.request (pieces u.calls) s
    have hrest := ih (fun hne => (same hne).trans hmount) fun ops₁ o' ops₂ h => hdone (o :: ops₁) o' ops₂ (congrArg _ h)
    rw [hkeep]
    refine .turn (fun hopen => by_contra fun hne => hopen (hdone [] o ops rfl hne)) hpair.command ?_ ?_ (hcomes ▸ hrest)
    · exact fun hu => (reads hu).trans (Request.sent_congr hmount _ _)
    · intro ho
      obtain ⟨hdelivered, hleft⟩ := result ho
      exact ⟨Request.delivered_congr hmount hdelivered, hcomes ▸ hleft⟩

/-- A request comes to the same, in whichever of two such ways its payload is cut. -/
private theorem Request.comesTo_alike {r : Request} {chunks chunks' : List Bytes} (h : r.Delivered sys conn chunks s)
    (h' : r.Delivered sys conn chunks' s)
    (hcut : chunks = chunks' ∨
      Seamless sys Writable ∧ chunks.getLast?.map List.length = chunks'.getLast?.map List.length) :
    r.comesTo sys conn chunks s = r.comesTo sys conn chunks' s := by
  rcases hcut with rfl | ⟨hseamless, hlast⟩
  · rfl
  cases r with
  | writeFile path offset buf =>
    rcases hopen : sys s (.open (cstr (conn.file path.1)) O_WRONLY) with ⟨t, err | fd⟩
    · simp only [Request.comesTo, hopen]
    · have hwhole := h ⟨t, fd, hopen⟩
      have hwhole' := h' ⟨t, fd, hopen⟩
      simp only [Request.comesTo, hopen]
      by_cases hnil : chunks = []
      · obtain rfl : chunks' = [] := by simpa [hnil] using hlast.symm
        rw [hnil]
      · have hnil' : chunks' ≠ [] := by
          rintro rfl
          simp [hnil] at hlast
        rw [(writeOutcome_seamless hseamless offset buf hwhole hnil (hseamless.opened hopen)).2,
          (writeOutcome_seamless hseamless offset buf hwhole' hnil' (hseamless.opened hopen)).2]
        rw [List.getLast?_eq_some_getLast hnil, List.getLast?_eq_some_getLast hnil'] at hlast
        rw [Option.some.inj hlast]
  | _ => rfl

private theorem Turns.idle (h : Turns host sys conn s [] us) : ∀ u ∈ us, u.calls = [] ∧ ¬ u.Done := by
  cases h with
  | ended _ idle => exact idle

private theorem SameCourse.of_idle (hops : ∀ o ∈ ops, ¬ o.Done) (hus : ∀ u ∈ us, u.calls = [] ∧ ¬ u.Done) :
    SameCourse host ops us ops' us' where
  results _ o _ ho _ hdone := absurd hdone (hops o (List.mem_of_getElem? ho))
  commands _ u _ hu _ hcalls := absurd (hus u (List.mem_of_getElem? hu)).1 hcalls
  arguments _ u _ hu _ hdone := absurd hdone (hus u (List.mem_of_getElem? hu)).2

private theorem SameCourse.symm (h : SameCourse host ops us ops' us') : SameCourse host ops' us' ops us where
  results k o o' ho ho' hdone hdone' := (h.results k o' o ho' ho hdone' hdone).symm
  commands k u u' hu hu' hcalls hcalls' := (h.commands k u' u hu' hu hcalls' hcalls).symm
  arguments k u u' hu hu' hdone hdone' := (h.arguments k u' u hu' hu hdone' hdone).symm

private theorem SameCourse.cons {o o' : Errand} {u u' : Pass} (h : SameCourse host ops us ops' us')
    (result : o.Done → o'.Done → o.asked = o'.asked)
    (command : u.calls ≠ [] → u'.calls ≠ [] → decoded host u.calls = decoded host u'.calls)
    (argument : u.Done → u'.Done → heard u.calls = heard u'.calls) :
    SameCourse host (o :: ops) (u :: us) (o' :: ops') (u' :: us') where
  results k p p' hk hk' := by
    cases k with
    | zero =>
      cases hk
      cases hk'
      exact result
    | succ k => exact h.results k p p' hk hk'
  commands k w w' hk hk' := by
    cases k with
    | zero =>
      cases hk
      cases hk'
      exact command
    | succ k => exact h.commands k w w' hk hk'
  arguments k w w' hk hk' := by
    cases k with
    | zero =>
      cases hk
      cases hk'
      exact argument
    | succ k => exact h.arguments k w w' hk hk'

/-- Step and run of the comparison: the first operations and passes are alike, and lead to the same state. -/
private theorem Turns.same (h : Turns host sys conn s ops us) (h' : Turns host sys conn s ops' us')
    (hsame : ops.map Errand.request = ops'.map Errand.request) (hcut : CutAlike sys Writable us us') :
    SameCourse host ops us ops' us' := by
  induction h generalizing ops' us' with
  | ended waiting idle => exact .of_idle waiting idle
  | @turn s o ops u us last command reads result rest ih =>
    cases h' with
    | ended waiting idle => exact (SameCourse.of_idle waiting idle).symm
    | @turn _ o' ops' u' us' last' command' reads' result' rest' =>
      obtain ⟨r, calls, left⟩ := o
      obtain ⟨r', calls', left'⟩ := o'
      obtain ⟨rfl, hmore⟩ : r = r' ∧ ops.map Errand.request = ops'.map Errand.request := List.cons.inj hsame
      have hcomes (ho : Errand.Done ⟨r, calls, left⟩) (ho' : Errand.Done ⟨r, calls', left'⟩) :
          r.comesTo sys conn (pieces u.calls) s = r.comesTo sys conn (pieces u'.calls) s :=
        Request.comesTo_alike (result ho).1 (result' ho').1 (hcut 0 u u' rfl rfl)
      have hrest : SameCourse host ops us ops' us' := by
        by_cases ho : Errand.Done ⟨r, calls, left⟩
        · by_cases ho' : Errand.Done ⟨r, calls', left'⟩
          · rw [← hcomes ho ho'] at rest'
            exact ih rest' hmore fun k => hcut (k + 1)
          · obtain rfl := last' ho'
            exact (SameCourse.of_idle (List.forall_mem_nil _) rest'.idle).symm
        · obtain rfl := last ho
          exact .of_idle (List.forall_mem_nil _) rest.idle
      refine hrest.cons (fun ho ho' => ?_) (fun hu hu' => ?_) fun hu hu' => ?_
      · rw [Errand.asked_done (result ho).2, Errand.asked_done (result' ho').2, hcomes ho ho']
      · exact (command hu).trans (command' hu').symm
      · exact (reads hu).trans (reads' hu').symm

end

end AgFS
