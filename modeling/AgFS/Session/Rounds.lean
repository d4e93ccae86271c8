import AgFS.Interaction.Pairing
import AgFS.Interaction.Replay
import AgFS.Session.Sequence

/-! Client and server over one request, wherever the two have stopped. -/
namespace AgFS
open Interaction ByteOrder Sock

theorem encError_ne_nil (err : AgerrT) : encError err ≠ [] := by
  intro h
  have hlength := congrArg List.length h
  rw [encError, mark_length, htobe64_length] at hlength
  cases hlength

theorem Request.reply_ne_nil (r : Request) (res : r.Result) : r.reply res ≠ [] := by
  cases r with
  | heartbeat =>
    intro h
    have hlength := congrArg List.length h
    rw [Request.reply, encCmd, mark_length, htobe16_length] at hlength
    cases hlength
  | access path mask => exact encError_ne_nil _
  | «open» path flags => exact encError_ne_nil _
  | writeFile path offset buf => exact encError_ne_nil _
  | _ => exact fun h => encError_ne_nil _ (List.append_eq_nil_iff.mp h).1

section Requests
variable {ν τ ν' τ' : Type} {e : Env Kind ClientSys ν τ} {e' : Env Kind ServerSys ν' τ'}
  {recvAll sendAll : Prop} {sock : τ → Fd} {self : ClientConnection} {s : τ}
  (he : Orderly e True sendAll) (ho : KeepsObject e sock) (hf : 0 ≤ sock s)
  (he' : Orderly e' recvAll True) (hf' : 0 ≤ self.socket_) (host host' : Endian)

/-- Client and server over the request `r`: the client comes to `res`, the server back to the head
of its loop, and wherever they have stopped they are paired. -/
def TiedOver (e : Env Kind ClientSys ν τ) (e' : Env Kind ServerSys ν' τ') (host host' : Endian)
    (self : ClientConnection) (r : Request) (v : ν) (s : τ) (v' : ν') (s' : τ') (i' o' : Marked Kind)
    (y : Env.Config Kind ServerSys ν' τ' (Child ⊕ ClientConnection)) (res : r.Result) (t' : τ') : Prop :=
  ∃ w w', Tied (A := e.party r.Result) (B := e'.party (Child ⊕ ClientConnection)) i' o' y
    (r.perform host, v, s) (Child.body host' (.serving self), v', s') (.ret res, w, s)
    (.ret (.inl (.serving self)), w', t')

/-- The pass over the request `r`, when it has come to its end, has read `sent`. -/
def ReadsOver (e : Env Kind ClientSys ν τ) (e' : Env Kind ServerSys ν' τ') (host host' : Endian)
    (self : ClientConnection) (r : Request) (v : ν) (s : τ) (v' : ν') (s' : τ') (i' o' : Marked Kind)
    (y : Env.Config Kind ServerSys ν' τ' (Child ⊕ ClientConnection)) (sent : Marked Kind) : Prop :=
  ∀ ⦃i o x⦄, Joined (A := e.party r.Result) (B := e'.party (Child ⊕ ClientConnection))
    (r.perform host, v, s) (Child.body host' (.serving self), v', s') i o x i' o' y →
      (e'.party (Child ⊕ ClientConnection)).final y → i' = sent

include he ho hf he' hf'

theorem tied_serves {r : Request} {s' : τ'} (h : Serves e' self host' r s') (v : ν) (v' : ν')
    (i' o' : Marked Kind) (y : Env.Config Kind ServerSys ν' τ' (Child ⊕ ClientConnection)) :
    TiedOver e e' host host' self r v s v' s' i' o' y (e'.run (r.remote self) s').1
      (e'.run (r.remote self) s').2 := by
  obtain ⟨c, w, hask, hhear⟩ := asks he ho hf host r h.plain v
  obtain ⟨w', hserve⟩ := does_serve he' hf' host' h v'
  refine ⟨w, w', Tied.round (A := e.party r.Result) (B := e'.party _) hask hserve hhear
    (r.reply_ne_nil _) (fun hx _ => ?_) fun _ _ _ _ _ => Tied.refl (fun _ => rfl) fun _ => rfl⟩
  exact (hx.of_stuck fun _ => rfl).1

theorem reads_serves {r : Request} {s' : τ'} (h : Serves e' self host' r s') (v : ν) (v' : ν')
    (i' o' : Marked Kind) (y : Env.Config Kind ServerSys ν' τ' (Child ⊕ ClientConnection)) :
    ReadsOver e e' host host' self r v s v' s' i' o' y (encCmd r.command ++ r.args) := by
  intro i o x hjoin hfinal
  obtain ⟨c, w, hask, hhear⟩ := asks he ho hf host r h.plain v
  obtain ⟨w', hserve⟩ := does_serve he' hf' host' h v'
  obtain ⟨z, hz, hu⟩ := hjoin.agrees hask hhear (r.reply_ne_nil _)
  exact Party.heard_all hjoin.right hserve hz hu hfinal ⟨_, rfl⟩

/-- A read of more than a vector can hold ends the server. -/
theorem tied_large {path : CString} (hp : Addressable path.1) {size : AgsizeT} (hsize : 2 ^ 63 ≤ size.toNat)
    (offset : AgsizeT) {s' t' : τ'} {fd : Nat}
    (hopen : e'.sys s' (.open (cstr (self.file path.1)) O_RDONLY) = (t', .ok fd)) (v : ν) (v' : ν')
    (i' o' : Marked Kind) (y : Env.Config Kind ServerSys ν' τ' (Child ⊕ ClientConnection))
    (res : Bytes × AgerrT) (s₁ : τ') :
    TiedOver e e' host host' self (.readFile path size offset) v s v' s' i' o' y res s₁ := by
  have hplain : (Request.readFile path size offset).Plain ([], -1) := rfl
  obtain ⟨c, w, hask, hhear⟩ := asks he ho hf host _ hplain v
  obtain ⟨w', hserve⟩ := does_large_read he' hf' host' hp hsize offset hopen v'
  refine ⟨w, w', Tied.halts (A := e.party _) (B := e'.party _) hask hhear (Request.reply_ne_nil _ _) hserve
    (fun _ => rfl) ?_⟩
  rintro ⟨a, ha⟩
  cases ha

theorem reads_large {path : CString} (hp : Addressable path.1) {size : AgsizeT} (hsize : 2 ^ 63 ≤ size.toNat)
    (offset : AgsizeT) {s' t' : τ'} {fd : Nat}
    (hopen : e'.sys s' (.open (cstr (self.file path.1)) O_RDONLY) = (t', .ok fd)) (v : ν) (v' : ν')
    (i' o' : Marked Kind) (y : Env.Config Kind ServerSys ν' τ' (Child ⊕ ClientConnection)) (sent : Marked Kind) :
    ReadsOver e e' host host' self (.readFile path size offset) v s v' s' i' o' y sent := by
  intro i o x hjoin hfinal
  have hplain : (Request.readFile path size offset).Plain ([], -1) := rfl
  obtain ⟨c, w, hask, hhear⟩ := asks he ho hf host _ hplain v
  obtain ⟨w', hserve⟩ := does_large_read he' hf' host' hp hsize offset hopen v'
  refine absurd hfinal (hjoin.not_final_halted hask hhear (Request.reply_ne_nil _ _) hserve (fun _ => rfl) ?_)
  rintro ⟨a, ha⟩
  cases ha

end Requests
end AgFS
