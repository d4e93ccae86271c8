import AgFS.Session.Remote

/-! The client's half of an exchange: what an operation sends, and how it turns the reply
into its result. -/
namespace AgFS
open Interaction ByteOrder

/-- The environment keeps the field `socket_` of the connection object, and nobody else
holds the monitor. -/
structure KeepsObject {ν τ : Type} (e : Env Kind ClientSys ν τ) (sock : τ → Fd) : Prop where
  lock (s : τ) : e.sys s .lock = (s, ())
  unlock (s : τ) : e.sys s .unlock = (s, ())
  getSocket (s : τ) : e.sys s .getSocket = (s, sock s)
  setSocket (s : τ) (fd : Fd) : sock (e.sys s (.setSocket fd)).1 = fd

theorem ClientSys.object_keeps : KeepsObject (Env.whole ClientSys.object) id :=
  ⟨fun _ => rfl, fun _ => rfl, fun _ => rfl, fun _ _ => rfl⟩

namespace Request

def command : Request → CmdT
  | heartbeat => cmd.HEARTBEAT
  | getattr _ => cmd.GETATTR
  | access _ _ => cmd.ACCESS
  | readdir _ => cmd.READDIR
  | readFile _ _ _ => cmd.READ
  | writeFile _ _ _ => cmd.WRITE
  | «open» _ _ => cmd.OPEN

/-- What follows the command before the server's first answer. -/
def args : Request → Marked Kind
  | heartbeat => []
  | getattr path => encString path.1
  | access path mask => encString path.1 ++ encMask mask
  | readdir path => encString path.1
  | readFile path size offset => encString path.1 ++ encSize size ++ encSize offset
  | writeFile path _ _ => encString path.1
  | «open» path flags => encString path.1 ++ encMask flags

/-- The answer that carries a result. A write has a second one, which is not included. -/
def reply : (r : Request) → r.Result → Marked Kind
  | heartbeat, _ => encCmd cmd.HEARTBEAT
  | getattr _, (st, err) => encError err ++ if 0 ≤ err then encStat st else []
  | access _ _, err => encError err
  | readdir _, (files, err) =>
    encError err ++
      if 0 ≤ err then
        encSize (UInt64.ofNat files.length) ++
          files.flatMap fun file => encString file.1 ++ encStat file.2
      else []
  | readFile _ _ _, (data, err) =>
    encError err ++
      if 0 ≤ err then encSize (UInt64.ofNat data.length) ++ mark .data data else []
  | writeFile _ _ _, (_, err) => encError err
  | «open» _ _, err => encError err

/-- The results a server can give: what it does not send is empty or zero. -/
def Plain : (r : Request) → r.Result → Prop
  | heartbeat, err => err = 0
  | getattr _, (st, err) => if 0 ≤ err then st.transmitted = st else st = Stat.zero
  | access _ _, _ => True
  | readdir _, (files, err) =>
    if 0 ≤ err then
      files.length < 2 ^ 64 ∧
        ∀ file ∈ files, NulFree file.1 ∧ Addressable file.1 ∧ file.2.transmitted = file.2
    else files = []
  | readFile _ _ _, (data, err) =>
    if 0 ≤ err then data.length < 2 ^ 63 ∧ err = Int64.ofNat data.length else data = []
  | writeFile _ _ _, (count, err) => err < 0 ∧ count = 0
  | «open» _ _, _ => True

end Request

section Asking
variable {ν τ : Type} {e : Env Kind ClientSys ν τ} {sendAll : Prop} {sock : τ → Fd} {s t : τ}
  {α β : Type} {i j o u d : Marked Kind}

theorem does_socket (ho : KeepsObject e sock) :
    e.Does ServerConnection.socket_ s [] [] (.ret (sock s)) s := by
  have h := Env.does_sys (e := e) .getSocket s
  rwa [ho.getSocket s] at h

theorem tell (ho : KeepsObject e sock) {p : Fd → ClientIo α} {f : α → ClientIo β} {a : α}
    {q : ClientIo β} (hp : e.Does (p (sock s)) s [] o (.ret a) s) (h : e.Asks (f a) s u d q t) :
    e.Asks (ServerConnection.socket_ >>= fun fd => p fd >>= f) s (o ++ u) d q t :=
  .tell ((does_socket ho).andThen (hp.bind f)) h

theorem tell_last (ho : KeepsObject e sock) {p : Fd → ClientIo α} {f : α → ClientIo β} {a : α}
    {q : ClientIo β} (hp : e.Does (p (sock s)) s [] o (.ret a) s) (h : e.Does (f a) s d [] q t) :
    e.Asks (ServerConnection.socket_ >>= fun fd => p fd >>= f) s o d q t := by
  simpa using tell ho hp (.of_hears h)

theorem hear (ho : KeepsObject e sock) {p : Fd → ClientIo α} {f : α → ClientIo β} {a : α}
    {q : ClientIo β} (hp : e.Does (p (sock s)) s i [] (.ret a) s) (h : e.Does (f a) s j [] q t) :
    e.Does (ServerConnection.socket_ >>= fun fd => p fd >>= f) s (i ++ j) [] q t :=
  (does_socket ho).andThen (hp.andThen h)

theorem hear_last (ho : KeepsObject e sock) {p : Fd → ClientIo α} {f : α → ClientIo β} {a : α}
    {q : ClientIo β} (hp : e.Does (p (sock s)) s i [] (.ret a) s) (hq : f a = q) :
    e.Does (ServerConnection.socket_ >>= fun fd => p fd >>= f) s i [] q s :=
  (does_socket ho).andThen (hp.returns hq)

def leave (r : α) : ClientIo α := do
  ClientIo.sys .unlock
  return r

theorem asks_enter (ho : KeepsObject e sock) {body q : ClientIo α} (h : e.Asks body s u d q t) :
    e.Asks (ServerConnection.monitored body) s u d (q >>= leave) t := by
  have hl := Env.does_sys (e := e) .lock s
  rw [ho.lock s] at hl
  exact .tell (hl.bind _) (h.bind leave)

theorem does_leave (ho : KeepsObject e sock) (r : α) : e.Does (leave r) s [] [] (.ret r) s := by
  have hu := Env.does_sys (e := e) .unlock s
  rw [ho.unlock s] at hu
  exact hu.returns rfl

private theorem asks_leave (ho : KeepsObject e sock) {q : ClientIo α} {r : α}
    (h : e.Asks q s u d (.ret r) s) : e.Asks (q >>= leave) s u d (.ret r) s := by
  simpa using (h.bind leave).hears (does_leave ho r)

private theorem asks_monitored (ho : KeepsObject e sock) {body : ClientIo α} {r : α}
    (h : e.Asks body s u d (.ret r) s) :
    e.Asks (ServerConnection.monitored body) s u d (.ret r) s := by
  simpa using (asks_enter ho h).hears (does_leave ho r)

section Operations
variable (he : Orderly e True sendAll) (ho : KeepsObject e sock) (hf : 0 ≤ sock s) (host : Endian)
include he ho hf

private theorem does_readEntries {files : List (Str × Stat)}
    (h : ∀ file ∈ files, NulFree file.1 ∧ Addressable file.1 ∧ file.2.transmitted = file.2) :
    e.Does (ServerConnection.readEntries host files.length) s
      (files.flatMap fun file => encString file.1 ++ encStat file.2) [] (.ret files) s := by
  induction files with
  | nil => exact .refl _ s
  | cons file files ih =>
    obtain ⟨hn, hs, hst⟩ := h file List.mem_cons_self
    have hrest := ih fun f hf => h f (List.mem_cons_of_mem file hf)
    rw [List.flatMap_cons, List.append_assoc]
    refine hear ho (does_readString he hf host _ hs hn s) ?_
    refine hear ho (does_readStat he hf host file.2 s) ?_
    refine hrest.returns ?_
    rw [hst]
    rfl

/-- An operation sends its request, and turns the reply into the result it carries. -/
theorem asks (r : Request) {res : r.Result} (hres : r.Plain res) :
    e.Asks (r.perform host) s (encCmd r.command ++ r.args) (r.reply res) (.ret res) s := by
  cases r with
  | heartbeat =>
    cases hres
    refine asks_monitored ho ?_
    simp only [Request.args, List.append_nil]
    refine tell_last ho (does_writeCmd he hf _ s) ?_
    exact hear_last ho (does_readCmd he hf host _ _ s) rfl
  | getattr path =>
    obtain ⟨st, err⟩ := res
    refine asks_monitored ho (tell ho (does_writeCmd he hf _ s) ?_)
    refine tell_last ho (does_writeString he hf path.1 s) ?_
    refine hear ho (does_readError he hf host _ err s) ?_
    by_cases herr : 0 ≤ err
    · simp only [Request.Plain, if_pos herr] at hres ⊢
      exact hear_last ho (does_readStat he hf host st s) (by rw [hres]; rfl)
    · simp only [Request.Plain, if_neg herr] at hres ⊢
      subst hres
      exact .refl _ s
  | access path mask =>
    refine asks_monitored ho (tell ho (does_writeCmd he hf _ s) ?_)
    refine tell ho (does_writeString he hf path.1 s) ?_
    refine tell_last ho (does_writeMask he hf mask s) ?_
    refine Env.does_scratch 8 s fun b => ?_
    exact hear_last ho (does_readError he hf host _ res s) rfl
  | «open» path flags =>
    refine asks_monitored ho (tell ho (does_writeCmd he hf _ s) ?_)
    refine tell ho (does_writeString he hf path.1 s) ?_
    refine tell_last ho (does_writeMask he hf flags s) ?_
    exact hear_last ho (does_readError he hf host _ res s) rfl
  | readdir path =>
    obtain ⟨files, err⟩ := res
    refine asks_monitored ho (tell ho (does_writeCmd he hf _ s) ?_)
    refine tell_last ho (does_writeString he hf path.1 s) ?_
    refine hear ho (does_readError he hf host _ err s) ?_
    by_cases herr : 0 ≤ err
    · simp only [Request.Plain, if_pos herr] at hres ⊢
      obtain ⟨hlen, hfiles⟩ := hres
      refine hear ho (does_readSize he hf host _ _ s) ?_
      rw [UInt64.toNat_ofNat_of_lt' hlen]
      exact (does_readEntries he ho hf host hfiles).returns rfl
    · simp only [Request.Plain, if_neg herr] at hres ⊢
      subst hres
      exact .refl _ s
  | readFile path size offset =>
    obtain ⟨data, err⟩ := res
    refine asks_monitored ho (tell ho (does_writeCmd he hf _ s) ?_)
    simp only [Request.args, List.append_assoc]
    refine tell ho (does_writeString he hf path.1 s) ?_
    refine tell ho (does_writeSize he hf size s) ?_
    refine tell_last ho (does_writeSize he hf offset s) ?_
    refine hear ho (does_readError he hf host _ err s) ?_
    by_cases herr : 0 ≤ err
    · simp only [Request.Plain, if_pos herr] at hres ⊢
      obtain ⟨hlen, rfl⟩ := hres
      have hsize : (UInt64.ofNat data.length).toNat = data.length :=
        UInt64.toNat_ofNat_of_lt' (by simp only [UInt64.size]; omega)
      refine hear ho (does_readSize he hf host _ _ s) ?_
      refine does_vectorResize he (by rwa [hsize]) s ?_
      have hdata := Env.does_recv he (m := .data) (fun _ => trivial) hf hsize.symm s
      refine hear_last ho hdata ?_
      simp only [ReadReply.bytes, ReadReply.ssize, overlay_full, hsize, List.length_replicate, le_refl]
      exact congrArg (fun err => Prog.ret (data, err)) (ite_self _)
    · simp only [Request.Plain, if_neg herr] at hres ⊢
      subst hres
      exact .refl _ s
  | writeFile path offset buf =>
    obtain ⟨count, err⟩ := res
    obtain ⟨herr, rfl⟩ := hres
    refine asks_monitored ho (tell ho (does_writeCmd he hf _ s) ?_)
    refine tell_last ho (does_writeString he hf path.1 s) ?_
    exact hear_last ho (does_readError he hf host _ err s) (if_pos herr)

/-! A write that may begin has a second part. -/

theorem asks_sendBuffer {f : AgsizeT × Except Errno AgerrT → ClientIo α} {q : ClientIo α}
    (fuel : Nat) (rest : Bytes) (hfuel : rest.length ≤ fuel) (total : AgsizeT) (last : AgerrT)
    (h : ∀ last, e.Does (f (total + UInt64.ofNat rest.length, .ok last)) s d [] q t) :
    e.Asks (ServerConnection.sendBuffer fuel rest total last >>= f) s (mark .data rest) d q t := by
  induction fuel generalizing rest total last with
  | zero =>
    obtain rfl := List.length_eq_zero_iff.mp (Nat.le_zero.mp hfuel)
    simpa [ServerConnection.sendBuffer] using Env.Asks.of_hears (h last)
  | succ fuel ih =>
    by_cases hr : rest = []
    · subst hr
      simpa [ServerConnection.sendBuffer] using Env.Asks.of_hears (h last)
    · rw [ServerConnection.sendBuffer, if_neg hr]
      refine .tell ((does_socket ho).bind _) (Env.Asks.send he hf hr fun j hj hpos => ?_)
      change e.Asks ((if j = 0 then pure (total, .ok 0) else ServerConnection.sendBuffer fuel
        (rest.drop j) (total + UInt64.ofNat j) (Int64.ofNat j)) >>= f) s _ d q t
      rw [if_neg (by omega)]
      refine ih (rest.drop j) (by rw [List.length_drop]; omega) _ _ fun last => ?_
      have hsum : total + UInt64.ofNat j + UInt64.ofNat (rest.drop j).length =
          total + UInt64.ofNat rest.length := by
        rw [List.length_drop, UInt64.add_assoc, ← UInt64.ofNat_add, Nat.add_sub_cancel' hj]
      rw [hsum]
      exact h last

theorem asks_writeFile (path : CString) (offset : AgsizeT) (buf : Buffer) :
    e.Asks (ServerConnection.writeFile host path offset buf) s
      (encCmd cmd.WRITE ++ encString path.1) (encError 0)
      (ServerConnection.sendData host offset buf 0 >>= leave) s := by
  refine asks_enter ho (tell ho (does_writeCmd he hf _ s) ?_)
  refine tell_last ho (does_writeString he hf path.1 s) ?_
  exact hear_last ho (does_readError he hf host _ 0 s) rfl

theorem asks_sendData (offset : AgsizeT) (buf : Buffer) (err : AgerrT) (count : AgsizeT) :
    e.Asks (ServerConnection.sendData host offset buf 0 >>= leave) s
      (encSize buf.size ++ encSize offset ++ mark .data buf.bytes)
      (encError err ++ if 0 ≤ err then encSize count else [])
      (.ret (if 0 ≤ err then count else buf.size, err)) s := by
  refine asks_leave ho ?_
  rw [List.append_assoc]
  refine tell ho (does_writeSize he hf _ s) ?_
  refine tell ho (does_writeSize he hf offset s) ?_
  refine asks_sendBuffer he ho hf _ _ le_rfl _ _ fun last => ?_
  refine hear ho (does_readError he hf host last err s) ?_
  by_cases herr : 0 ≤ err
  · simp only [if_pos herr]
    exact hear_last ho (does_readSize he hf host _ count s) rfl
  · simp only [if_neg herr, UInt64.zero_add]
    exact .refl _ s

end Operations
end Asking
end AgFS
