import AgFS.Session.Serving

/-! Client and server in lockstep: one operation after the other, each leaving nothing in
flight and the server back at the head of its command loop. -/
namespace AgFS
open Interaction ByteOrder

section Pass
variable {ν τ : Type} {e : Env Kind ServerSys ν τ} {recvAll : Prop} {self : ClientConnection}
  (he : Orderly e recvAll True) (hf : 0 ≤ self.socket_) (host : Endian)

def again (self : ClientConnection) (_ : Unit) : ServerIo (Child ⊕ ClientConnection) :=
  return .inl (.serving self)

/-- A pass of the command loop once the command is known. -/
def serve (host : Endian) (self : ClientConnection) (r : Request) :
    ServerIo (Child ⊕ ClientConnection) :=
  r.handler host self >>= again self

include he hf

theorem does_pass (r : Request) (s : τ) :
    e.Does (Child.body host (.serving self)) s (encCmd r.command) [] (serve host self r) s := by
  have hread : e.Does (self.commandLoop host) s (encCmd r.command) []
      (self.dispatch host r.command) s :=
    (does_readCmd he hf host cmd.GETATTR r.command s).returns (if_neg (by decide))
  rw [Request.dispatch_command] at hread
  have h := hread.bind fun x => pure (x.map Child.serving id)
  rw [bind_assoc] at h
  exact h

theorem does_serve {r : Request} {s : τ} (h : Serves e self host r s) :
    e.Does (Child.body host (.serving self)) s (encCmd r.command ++ r.args)
      (r.reply (e.run (r.remote self) s).1) (.ret (.inl (.serving self)))
      (e.run (r.remote self) s).2 :=
  (does_pass he hf host r s).trans (h.does.returns rfl)

end Pass

section Talks
variable {ν τ ν' τ' : Type} {e : Env Kind ClientSys ν τ} {e' : Env Kind ServerSys ν' τ'}
  {recvAll sendAll : Prop} {sock : τ → Fd} {self : ClientConnection} {s : τ}
  (he : Orderly e True sendAll) (ho : KeepsObject e sock) (hf : 0 ≤ sock s)
  (he' : Orderly e' recvAll True) (hf' : 0 ≤ self.socket_) (host host' : Endian)

/-- Client and server talk about one operation: the client comes to its result `res`, the
server back to the head of its loop. -/
def TalksAbout (e : Env Kind ClientSys ν τ) (e' : Env Kind ServerSys ν' τ') (host host' : Endian)
    (self : ClientConnection) (r : Request) (s : τ) (s' : τ') (res : r.Result) (t' : τ') : Prop :=
  ∀ todo done, ∃ u d, e.Talks e' (Session.body host ⟨r :: todo, done⟩)
    (Child.body host' (.serving self)) s s' u d (.ret (.inl ⟨todo, done ++ [⟨r, res⟩]⟩))
    (.ret (.inl (.serving self))) s t'

include he ho hf he' hf'

private theorem talks_single {r : Request} {s' : τ'} (h : Serves e' self host' r s') :
    TalksAbout e e' host host' self r s s' (e'.run (r.remote self) s').1
      (e'.run (r.remote self) s').2 := by
  intro todo done
  have hasks := (asks he ho hf host r h.plain).bind (Session.record todo done r)
  exact ⟨_, _, .round hasks (does_serve he' hf' host' h)⟩

/-- A write begins with a round in which the server opens the file. -/
theorem talks_opening {path : CString} (hp : Addressable path.1) (offset : AgsizeT) (buf : Buffer)
    {s' t' : τ'} {fd : Nat}
    (hopen : e'.sys s' (.open (cstr (self.file path.1)) O_WRONLY) = (t', .ok fd))
    (todo : List Request) (done : List Outcome) :
    e.Talks e' (Session.body host ⟨.writeFile path offset buf :: todo, done⟩)
      (Child.body host' (.serving self)) s s'
      (encCmd cmd.WRITE ++ encString path.1) (encError 0)
      ((ServerConnection.sendData host offset buf 0 >>= leave) >>=
        Session.record todo done (.writeFile path offset buf))
      (self.receiveData host' fd >>= again self) s t' := by
  have hasks := (asks_writeFile he ho hf host path offset buf).bind
    (Session.record todo done (.writeFile path offset buf))
  have hserves := (does_pass he' hf' host' (.writeFile path offset buf) s').trans
    ((does_processWrite he' hf' host' _ hp hopen).bind (again self))
  exact .round hasks hserves

/-- The second round of a write, for whatever comes of the server's loop. -/
theorem talks_writing (path : CString) (offset : AgsizeT) (buf : Buffer) {s' t' : τ'} {fd : Nat}
    (todo : List Request) (done : List Outcome) {err : AgerrT} {count : AgsizeT}
    (hloop : e'.Does (ClientConnection.storeLoop self.socket_ fd buf.bytes.length
        buf.bytes.length 0 0 >>= self.finishWrite fd)
      (e'.sys s' (.lseek fd offset)).1 (mark .data buf.bytes)
      (encError err ++ if 0 ≤ err then encSize count else []) (.ret ()) t') :
    e.Talks e'
      ((ServerConnection.sendData host offset buf 0 >>= leave) >>=
        Session.record todo done (.writeFile path offset buf))
      (self.receiveData host' fd >>= again self) s s'
      (encSize buf.size ++ encSize offset ++ mark .data buf.bytes)
      (encError err ++ if 0 ≤ err then encSize count else [])
      (.ret (.inl ⟨todo, done ++
        [⟨.writeFile path offset buf, (if 0 ≤ err then count else buf.size, err)⟩]⟩))
      (.ret (.inl (.serving self))) s t' := by
  have hasks := (asks_sendData he ho hf host offset buf err count).bind
    (Session.record todo done (.writeFile path offset buf))
  have hsize := buf.size_toNat
  have hreceive := does_receiveData he' hf' host' fd (by rw [hsize]; exact buf.addressable) offset s'
  rw [hsize] at hreceive
  exact .round hasks ((hreceive.trans hloop).returns rfl)

end Talks

section Whole
variable {ν τ ν' τ' : Type} {e : Env Kind ClientSys ν τ} {e' : Env Kind ServerSys ν' τ'}
  {sendAll : Prop} {sock : τ → Fd} {self : ClientConnection} {s : τ}
  (he : Orderly e True sendAll) (ho : KeepsObject e sock) (hf : 0 ≤ sock s)
  (he' : Orderly e' True True) (hf' : 0 ≤ self.socket_) (host host' : Endian)
  {P : Request → Prop} (hsteady : Steady e'.sys self.mountPoint_ P)

include he' hf' hsteady in
/-- A payload that arrives in one piece goes into the file with one write. -/
theorem does_storeLoop_whole (fd : Nat) (buf : Buffer) (s : τ') :
    ∃ err count,
      e'.Does (ClientConnection.storeLoop self.socket_ fd buf.bytes.length buf.bytes.length 0 0 >>=
          self.finishWrite fd) s (mark .data buf.bytes)
        (encError err ++ if 0 ≤ err then encSize count else []) (.ret ())
        (e'.run (Request.store fd buf) s).2 ∧
      (e'.run (Request.store fd buf) s).1 = (if 0 ≤ err then count else buf.size, err) := by
  by_cases hb : buf.bytes = []
  · have hrun : e'.run (Request.store fd buf) s = ((0, 0), (e'.sys s (.close fd)).1) := by
      rw [Request.store, if_pos hb]
      exact run_ask rfl
    refine ⟨0, 0, ?_, by rw [hrun]; rfl⟩
    rw [hrun, hb, List.length_nil, storeLoop_done]
    exact does_finishWrite_ended he' hf' fd 0 0 s
  · obtain ⟨k, hk⟩ := Nat.exists_eq_succ_of_ne_zero (List.length_eq_zero_iff.not.mpr hb)
    have htake := Env.does_recv he' (m := .data) (fun _ => trivial) hf' hk s
    have hstart : e'.run (Request.store fd buf) s = e'.run (Request.put fd buf) s := by
      rw [Request.store, if_neg hb]
    have hsplit {o : Marked Kind} {s₁ : τ'}
        (h : e'.Does (storeChunk self.socket_ fd k (k + 1) 0 buf.bytes >>= self.finishWrite fd)
          s [] o (.ret ()) s₁) :
        e'.Does (ClientConnection.storeLoop self.socket_ fd buf.bytes.length buf.bytes.length 0 0 >>=
          self.finishWrite fd) s (mark .data buf.bytes) o (.ret ()) s₁ := by
      rw [hk, storeLoop_step _ _ (Nat.succ_ne_zero k), bind_assoc]
      refine htake.takes ?_
      change e'.Does ((if buf.bytes = [] then _ else _) >>= _) s [] o (.ret ()) s₁
      rwa [if_neg hb]
    rcases hwrite : e'.sys s (.write fd buf.bytes) with ⟨s₁, err | ⟨count, hcount⟩⟩
    · have hrun : e'.run (Request.store fd buf) s = ((buf.size, err.neg), s₁) :=
        hstart.trans (run_ask hwrite)
      refine ⟨err.neg, 0, ?_, by rw [hrun, if_neg err.not_le_neg]⟩
      rw [hrun, if_neg err.not_le_neg, List.append_nil]
      refine hsplit ?_
      rw [storeChunk, bind_assoc]
      exact Env.does_sys_then hwrite (does_finishWrite_refused he' hf' fd err.neg s₁)
    · have hpos : 0 < count := hsteady.write s fd hb count hcount (by rw [hwrite])
      have hnonneg : 0 ≤ Int64.ofNat count :=
        int64_ofNat_nonneg (by have := buf.addressable; omega)
      have hrun : e'.run (Request.store fd buf) s =
          ((UInt64.ofNat count, Int64.ofNat count), (e'.sys s₁ (.close fd)).1) :=
        hstart.trans ((run_ask hwrite).trans (run_ask rfl))
      refine ⟨Int64.ofNat count, UInt64.ofNat count, ?_, by rw [hrun, if_pos hnonneg]⟩
      rw [hrun]
      refine hsplit ?_
      rw [storeChunk, bind_assoc]
      refine Env.does_sys_then hwrite ?_
      change e'.Does ((if count = 0 then _ else _) >>= _) s₁ [] _ (.ret ()) _
      rw [if_neg hpos.ne', hk, Nat.sub_self, storeLoop_done, UInt64.zero_add]
      exact does_finishWrite_ended he' hf' fd _ _ s₁

include he ho hf he' hf' hsteady

/-- Over streams that deliver everything, client and server talk about every request, and
the client comes to what the server's machine answers. -/
theorem talks_whole {r : Request} (hp : P r) (hv : r.Held) (hr : r.Fits) (s' : τ') :
    TalksAbout e e' host host' self r s s' (e'.run (r.remote self) s').1
      (e'.run (r.remote self) s').2 := by
  by_cases hopens : r.Opens e' self s'
  · cases r with
    | writeFile path offset buf =>
      obtain ⟨s₁, fd, hopen⟩ := hopens
      have hrun : e'.run ((Request.writeFile path offset buf).remote self) s' =
          e'.run (Request.store fd buf) (e'.sys s₁ (.lseek fd offset)).1 :=
        (run_ask hopen).trans (run_ask rfl)
      intro todo done
      obtain ⟨err, count, hloop, hresult⟩ :=
        does_storeLoop_whole he' hf' hsteady fd buf (e'.sys s₁ (.lseek fd offset)).1
      have hfirst := talks_opening he ho hf he' hf' host host' hv offset buf hopen todo done
      have hsecond := talks_writing he ho hf he' hf' host host' path offset buf todo done hloop
      rw [hrun, hresult]
      exact ⟨_, _, hfirst.trans hsecond⟩
    | _ => exact absurd hopens id
  · exact talks_single he ho hf he' hf' host host' (serves he' hf' host' hsteady hp hv hr hopens)

end Whole

theorem Session.body_productive (host : Endian) : Env.Talks.Productive (Session.body host) := by
  rintro ⟨todo, done⟩
  cases todo with
  | nil => rfl
  | cons r todo => cases r <;> rfl

theorem Child.body_productive (host : Endian) : Env.Talks.Productive (Child.body host) := by
  intro child
  cases child <;> rfl

end AgFS
