import AgFS.Interaction.Service
import AgFS.Files.Framing

/-! The server as a service: what the operations of an exchange come to is what comes of their requests
where the files are, one after the other. -/
namespace AgFS
open Interaction ByteOrder Sock

/-- What a request carries apart from its fields. -/
def Request.payload : Request → Bytes
  | .writeFile _ _ buf => buf.bytes
  | _ => []

/-- The server's machine as a service: a request comes to its outcome there, and a payload may be stored
in any pieces. -/
def remoteService {τ : Type} (sys : τ → (c : ServerCall) → τ × ServerSys.Reply c) (conn : ClientConnection) :
    Service Request Request.Result τ where
  Comes s r res t := ∃ chunks, chunks.flatten = r.payload ∧ [] ∉ chunks ∧ r.comesTo sys conn chunks s = (res, t)

def Errand.asked (o : Errand) : Asked Request.Result :=
  ⟨o.request, match o.left with
    | .ret res => some res
    | .call _ _ => none⟩

theorem Errand.asked_done {o : Errand} {res : o.request.Result} (h : o.left = .ret res) :
    o.asked = ⟨o.request, some res⟩ := by
  rw [Errand.asked, h]

private theorem Errand.asked_open {o : Errand} (h : ¬ o.Done) : o.asked = ⟨o.request, none⟩ := by
  rw [Errand.asked]
  split
  · next res hres => exact absurd ⟨res, hres⟩ h
  · rfl

section
variable {τ : Type} {host host' : Endian} {fd : Fd} {sys : τ → (c : ServerCall) → τ × ServerSys.Reply c}
  {self conn : ClientConnection} {s : τ} {ops : List Errand} {us : List Pass}

theorem Request.remote_congr {next : ClientConnection} (h : next.mountPoint_ = self.mountPoint_) (r : Request) :
    r.remote next = r.remote self := by
  have hfile : next.file = self.file := funext fun path => by
    rw [ClientConnection.file, ClientConnection.file, h]
  cases r with
  | heartbeat => rfl
  | readdir path => rw [Request.remote, Request.remote, hfile]
  | _ =>
    rw [Request.remote, Request.remote, hfile]
    refine congrArg _ (funext fun x => ?_)
    cases x <;> rfl

theorem Request.comesTo_congr {next : ClientConnection} (h : next.mountPoint_ = self.mountPoint_) (r : Request)
    (chunks : List Bytes) (s : τ) : r.comesTo sys next chunks s = r.comesTo sys self chunks s := by
  cases r with
  | writeFile path offset buf =>
    have hfile : next.file path.1 = self.file path.1 := by
      rw [ClientConnection.file, ClientConnection.file, h]
    rw [Request.comesTo, Request.comesTo, hfile]
    rcases sys s (.open (cstr (self.file path.1)) O_WRONLY) with ⟨t, err | fd⟩ <;> rfl
  | _ => exact congrArg (fun p => (dealtServer sys).run p s) (Request.remote_congr h _)

theorem Request.comesTo_served {r : Request} {chunks : List Bytes} (h : r.Delivered sys self chunks s)
    (hne : [] ∉ chunks) :
    (remoteService sys self).Comes s r (r.comesTo sys self chunks s).1 (r.comesTo sys self chunks s).2 := by
  have refused (hany : ∀ chunks', r.comesTo sys self chunks' s = r.comesTo sys self chunks s) :
      (remoteService sys self).Comes s r (r.comesTo sys self chunks s).1 (r.comesTo sys self chunks s).2 := by
    by_cases hp : r.payload = []
    · exact ⟨[], hp.symm, List.not_mem_nil, hany []⟩
    · refine ⟨[r.payload], by simp, ?_, hany _⟩
      rw [List.mem_singleton]
      exact Ne.symm hp
  cases r with
  | writeFile path offset buf =>
    rcases hopen : sys s (.open (cstr (self.file path.1)) O_WRONLY) with ⟨t, err | fd⟩
    · refine refused fun chunks' => ?_
      simp only [Request.comesTo, hopen]
    · exact ⟨chunks, h ⟨t, fd, hopen⟩, hne, rfl⟩
  | _ => exact refused fun _ => rfl

theorem nil_not_mem_pieces (t : List ServerEvent) : [] ∉ pieces t := fun h => ne_nil_of_mem_pieces h rfl

/-- Operations that are in step with passes are served one after the other. -/
theorem InStep.serial (h : InStep host sys self s ops us) (hself : us ≠ [] → self.mountPoint_ = conn.mountPoint_)
    (hdone : ∀ ops₁ o ops₂, ops = ops₁ ++ o :: ops₂ → ops₂ ≠ [] → o.Done) :
    (remoteService sys conn).Serial s (ops.map Errand.asked) := by
  have single {ops : List Errand} {o : Errand} (hopen : ¬ o.Done)
      (hdone : ∀ ops₁ o' ops₂, o :: ops = ops₁ ++ o' :: ops₂ → ops₂ ≠ [] → o'.Done) (s : τ) :
      (remoteService sys conn).Serial s ((o :: ops).map Errand.asked) := by
    obtain rfl : ops = [] := by_contra fun hne => hopen (hdone [] o ops rfl hne)
    rw [List.map_singleton, Errand.asked_open hopen]
    exact .pending s o.request
  induction h with
  | @ahead _ s ops htook hwaiting =>
    cases ops with
    | nil => exact .nil s
    | cons o ops => exact single (hwaiting o List.mem_cons_self) hdone s
  | @waits _ s => exact .nil s
  | missed same hm took gave rest ih =>
    exact ih (fun hne => (same hne).trans (hself (List.cons_ne_nil _ _))) hdone
  | @pair self next s o ops u us same came hpair reads result rest ih =>
    by_cases ho : o.Done
    · obtain ⟨hdelivered, hleft⟩ := result ho
      have hmount := hself (List.cons_ne_nil _ _)
      obtain ⟨chunks, hwhole, hne, hcomes⟩ := Request.comesTo_served hdelivered (nil_not_mem_pieces u.calls)
      rw [List.map_cons, Errand.asked_done hleft]
      refine .cons ⟨chunks, hwhole, hne, ?_⟩ (ih (fun hne => (same hne).trans hmount) fun ops₁ o' ops₂ hops =>
        hdone (o :: ops₁) o' ops₂ (congrArg _ hops))
      rw [← Request.comesTo_congr hmount, hcomes]
    · exact single ho hdone s

/-- As long as the transfers between a client and its server are unbroken, every operation that has
returned has returned what comes of its request on the server's machine, where the requests are carried out
one after the other in their order. -/
theorem exchange_serial {x : Exchange host host' fd sys conn s} (hsteady : Steady sys conn.mountPoint_ x.Asks)
    (hf : 0 ≤ fd) (hconn : 0 ≤ conn.socket_) (hheld : ∀ o ∈ x.errands, o.request.Held) (h : x.Unbroken) :
    (remoteService sys conn).Serial s (x.errands.map Errand.asked) :=
  (Exchange.inStep h hsteady hf hconn hheld).serial (fun _ => rfl) fun _ _ _ => x.performed.done

def Request.asks : Request → Bool
  | .heartbeat => false
  | _ => true

/-- Heartbeats do not show: the other operations have returned what they would have without them. -/
theorem exchange_without_heartbeats {x : Exchange host host' fd sys conn s}
    (hsteady : Steady sys conn.mountPoint_ x.Asks) (hf : 0 ≤ fd) (hconn : 0 ≤ conn.socket_)
    (hheld : ∀ o ∈ x.errands, o.request.Held) (h : x.Unbroken) :
    (remoteService sys conn).Serial s ((x.errands.map Errand.asked).filter fun call => call.request.asks) := by
  refine Service.Serial.erase ?_ ?_
  · exact (Exchange.inStep h hsteady hf hconn hheld).serial (fun _ => rfl) fun _ _ _ => x.performed.done
  · rintro s r res t hkeep ⟨chunks, -, -, hcomes⟩
    cases r with
    | heartbeat =>
      cases hcomes
      rfl
    | _ => cases hkeep

end

theorem exchange_serial_twoPieces :
    (remoteService roomyDisk rootServer).Serial () (twoPieces.errands.map Errand.asked) :=
  exchange_serial roomyDisk_steady (by decide) (by decide) twoPieces_held twoPieces_unbroken

theorem exchange_without_heartbeats_twoPieces : (remoteService roomyDisk rootServer).Serial ()
    ((twoPieces.errands.map Errand.asked).filter fun call => call.request.asks) :=
  exchange_without_heartbeats roomyDisk_steady (by decide) (by decide) twoPieces_held twoPieces_unbroken

end AgFS
