import AgFS.Files.Storing
import AgFS.Files.WriteThrough
import AgFS.Session.Rounds

/-! The payload of a write, taken in pieces by a server that may stop anywhere. -/
namespace AgFS
open Interaction ByteOrder Sock

/-- The pieces in which the payload has come in. -/
def pieces (t : List ServerEvent) : List Bytes :=
  t.filterMap fun
    | ⟨.recv .data _ _, r⟩ => if ReadReply.bytes r = [] then none else some (ReadReply.bytes r)
    | _ => none

private theorem pieces_recv {fd : Fd} {n : Nat} {chunk : Bytes} {hchunk : chunk.length ≤ n} (hc : chunk ≠ [])
    {t : List ServerEvent} : pieces (⟨.recv .data fd n, .got chunk hchunk⟩ :: t) = chunk :: pieces t := by
  simp [pieces, ReadReply.bytes, hc]

private theorem pieces_flatten (t : List ServerEvent) : (pieces t).flatten = payloadHeard t := by
  induction t with
  | nil => rfl
  | cons ev t ih =>
    obtain ⟨call, r⟩ := ev
    cases call with
    | recv m fd n =>
      cases m with
      | data =>
        rw [payloadHeard_recv, ← ih]
        by_cases hr : ReadReply.bytes r = []
        · simp [pieces, hr]
        · simp [pieces, hr]
      | _ => 
        rw [pieces, List.filterMap_cons, payloadHeard, heard, only_append, only_mark]
        exact ih
    | _ => exact ih

theorem ne_nil_of_mem_pieces {piece : Bytes} {t : List ServerEvent} (h : piece ∈ pieces t) : piece ≠ [] := by
  obtain ⟨ev, -, hev⟩ := List.mem_filterMap.mp h
  split at hev
  · split at hev
    · cases hev
    · next hne =>
      cases hev
      exact hne
  · cases hev

private theorem pieces_eq_nil {t : List ServerEvent} (h : payloadHeard t = []) : pieces t = [] := by
  refine List.eq_nil_iff_forall_not_mem.mpr fun piece hpiece => ne_nil_of_mem_pieces hpiece ?_
  rw [← pieces_flatten, List.flatten_eq_nil_iff] at h
  exact h piece hpiece

private theorem pieces_append (t u : List ServerEvent) : pieces (t ++ u) = pieces t ++ pieces u := List.filterMap_append

theorem pieces_finish {self : ClientConnection} {fd : Fd} {stored : ClientConnection.Stored}
    {t : List ServerEvent} {q : ServerIo Unit} (h : Runs (self.finishWrite fd stored) t q) : pieces t = [] := by
  have honly : (self.finishWrite fd stored).Only fun c : SockCall Kind ServerSys => ∀ fd n, c ≠ .recv .data fd n := by
    cases stored with
    | refused err => exact ⟨nofun, fun _ => trivial⟩
    | ended err total =>
      refine ⟨nofun, fun _ => ⟨nofun, fun _ => ?_⟩⟩
      exact Prog.Only.ite ⟨nofun, fun _ => trivial⟩ trivial
  refine List.eq_nil_iff_forall_not_mem.mpr fun piece hpiece => ?_
  obtain ⟨⟨call, r⟩, hmem, hev⟩ := List.mem_filterMap.mp hpiece
  have hcall := honly.runs h _ hmem
  cases call with
  | recv m fd n =>
    cases m with
    | data => exact hcall fd n rfl
    | _ => cases hev
  | _ => cases hev

/-- What a write reports, and what it makes of the system, when the payload goes into the file
in these pieces. -/
def storePieces {τ : Type} (sys : τ → (c : ServerCall) → τ × ServerSys.Reply c) (fd : Fd) :
    List Bytes → AgerrT → AgsizeT → τ → (AgerrT × AgsizeT) × τ
  | [], err, total, s => ((err, total), (sys s (.close fd)).1)
  | chunk :: rest, _, total, s =>
    match sys s (.write fd chunk) with
    | (s', .fail err) => ((err.neg, 0), s')
    | (s', .wrote count _) => storePieces sys fd rest (Int64.ofNat count) (total + UInt64.ofNat count) s'

/-- The second answer to a write. -/
def report (result : AgerrT × AgsizeT) : Marked Kind :=
  encError result.1 ++ if 0 ≤ result.1 then encSize result.2 else []

/-- The server of a trace, with its transfers dealt out again: the payload may come in pieces. -/
abbrev dealtServer {τ : Type} (sys : τ → (c : ServerCall) → τ × ServerSys.Reply c) :
    Env Kind ServerSys (List ServerEvent) τ :=
  Env.replay (fun m => m = .data → False) (fun m => m = .data → True) sys

/-- The client of a trace, with its transfers dealt out again: the payload may go out in pieces. -/
abbrev dealtClient : Env Kind ClientSys (List (Event (Sock Kind ClientSys))) Fd :=
  Env.replay (fun m => m = .data → True) (fun m => m = .data → False) ClientSys.object

section Store
variable {τ : Type} {sys : τ → (c : ServerCall) → τ × ServerSys.Reply c} {mountPoint : Str} {P : Request → Prop}
  {self : ClientConnection}
  {t : List ServerEvent} {q : ServerIo Unit} {s s' : τ}

/-- A write to a file that stores nothing comes only when so many bytes of payload are in. -/
def StoresUntil (n : Nat) (t : List ServerEvent) : Prop :=
  ∀ t₁ fd chunk r t₂, t = t₁ ++ ⟨.sys (.write fd chunk), r⟩ :: t₂ → storedCount (n := chunk.length) r = 0 →
    (payloadHeard t₁).length = n

private theorem finishWrite_ne_ret (self : ClientConnection) (fd : Fd) (stored : ClientConnection.Stored) (a : Unit) :
    self.finishWrite fd stored ≠ .ret a := by
  cases stored <;> rintro ⟨⟩

private theorem storeLoop_finish_ne_ret (self : ClientConnection) (socket fd : Fd) (fuel left : Nat) (err : AgerrT)
    (total : AgsizeT) (a : Unit) :
    ClientConnection.storeLoop socket fd fuel left err total >>= self.finishWrite fd ≠ .ret a := by
  cases fuel with
  | zero => exact finishWrite_ne_ret self fd (.ended err total) a
  | succ fuel =>
    rw [ClientConnection.storeLoop]
    split
    · exact finishWrite_ne_ret self fd (.ended err total) a
    · rintro ⟨⟩

omit sys in
private theorem does_storeChunk_refused {ν : Type} {e : Env Kind ServerSys ν τ} (he : Orderly e False True)
    (hf : 0 ≤ self.socket_) (fd : Nat) (fuel left : Nat) (total : AgsizeT) {chunk : Bytes} {s₁ : τ} {err : Errno}
    (hwrite : e.sys s (.write fd chunk) = (s₁, .fail err)) :
    e.Does (storeChunk self.socket_ fd fuel left total chunk >>= self.finishWrite fd) s [] (encError err.neg)
      (.ret ()) s₁ := by
  rw [storeChunk, bind_assoc]
  exact Env.does_sys_then hwrite (does_finishWrite_refused he hf fd err.neg s₁)

omit sys in
private theorem reaches_storeChunk {ν : Type} {e : Env Kind ServerSys ν τ} (self : ClientConnection) (fd : Nat)
    (fuel left : Nat) (total : AgsizeT) {chunk : Bytes} {s₁ : τ} {count : Nat} {hcount : count ≤ chunk.length}
    (hwrite : e.sys s (.write fd chunk) = (s₁, .wrote count hcount)) (hpos : count ≠ 0) (v : ν) :
    (e.machine Unit).Reaches (storeChunk self.socket_ fd fuel left total chunk >>= self.finishWrite fd, v, s) [] []
      (ClientConnection.storeLoop self.socket_ fd fuel (left - chunk.length) (Int64.ofNat count)
        (total + UInt64.ofNat count) >>= self.finishWrite fd, v, s₁) := by
  rw [storeChunk, bind_assoc]
  refine e.reaches_sys hwrite ?_ v
  change (if count = 0 then _ else _) >>= _ = _
  rw [if_neg hpos]

theorem reaches_chunk (sys : τ → (c : ServerCall) → τ × ServerSys.Reply c) (fd : Fd) (fuel : Nat)
    {left : Nat} (hl : left ≠ 0) (err : AgerrT) (total : AgsizeT) {chunk : Bytes}
    {hchunk : chunk.length ≤ left} (hc : chunk ≠ [])
    (hev : Flows (fun m => m = Kind.data → False) (fun m => m = Kind.data → True)
      (⟨.recv .data self.socket_ left, .got chunk hchunk⟩ : ServerEvent)) (u : List ServerEvent) (s : τ) :
    ((dealtServer sys).machine Unit).Reaches
      (ClientConnection.storeLoop self.socket_ fd (fuel + 1) left err total >>= self.finishWrite fd,
        script (⟨.recv .data self.socket_ left, .got chunk hchunk⟩ :: u), s) (mark .data chunk) []
      (storeChunk self.socket_ fd fuel left total chunk >>= self.finishWrite fd, script u, s) := by
  rw [storeLoop_recv _ _ hl, bind_assoc]
  have hanswered : Answered sys s [(⟨.recv .data self.socket_ left, .got chunk hchunk⟩ : ServerEvent)] s := rfl
  have h := Env.reaches_single (Env.turn_replay (t := u)
    (k := fun r => storeReply self.socket_ fd fuel total r >>= self.finishWrite fd) hev hanswered)
  simp only [storeReply, if_neg hc, heard, said, ReadReply.bytes, List.append_nil] at h
  exact h

/-- What the loop does with its payload: it has come through with some pieces, or it is on the way
and has not said anything yet. -/
theorem reaches_store (hsteady : Steady sys mountPoint P) (hf : 0 ≤ self.socket_) (fd : Nat) {fuel : Nat}
    {payload : Bytes}
    (hfuel : payload.length ≤ fuel) (err : AgerrT) (total : AgsizeT)
    (h : Runs (ClientConnection.storeLoop self.socket_ fd fuel payload.length err total >>= self.finishWrite fd) t q)
    (hflows : ∀ ev ∈ t, Flows (fun m => m = Kind.data → False) (fun m => m = Kind.data → True) ev)
    (hs : Answered sys s t s') {z : Bytes} (hheard : unmark (heard t) <+: payload ++ z)
    (hstores : StoresUntil payload.length t) :
    ((pieces t).flatten = payload ∧ ∃ v, ((dealtServer sys).machine Unit).Reaches
        (ClientConnection.storeLoop self.socket_ fd fuel payload.length err total >>= self.finishWrite fd,
          script t, s)
        (mark .data payload) (report (storePieces sys fd (pieces t) err total s).1)
        (.ret (), v, (storePieces sys fd (pieces t) err total s).2)) ∨
      (heard t <+: mark .data payload ∧ said t = [] ∧ ∀ a, q ≠ .ret a) := by
  have he : Orderly (dealtServer sys) False True := Env.replay_prompt _ _ _
  induction fuel generalizing payload err total t s z with
  | zero =>
    obtain rfl := List.length_eq_zero_iff.mp (Nat.le_zero.mp hfuel)
    obtain ⟨v, hv⟩ := does_finishWrite_ended he hf fd err total s (script t)
    change Runs (self.finishWrite fd (.ended err total)) t q at h
    rw [pieces_finish h]
    exact .inl ⟨rfl, v, hv⟩
  | succ fuel ih =>
    by_cases hp : payload = []
    · subst hp
      obtain ⟨v, hv⟩ := does_finishWrite_ended he hf fd err total s (script t)
      change Runs (self.finishWrite fd (.ended err total)) t q at h
      rw [pieces_finish h]
      exact .inl ⟨rfl, v, hv⟩
    have hl : payload.length ≠ 0 := List.length_eq_zero_iff.not.mpr hp
    have hne := storeLoop_finish_ne_ret self self.socket_ fd (fuel + 1) payload.length err total
    rw [storeLoop_recv _ _ hl, bind_assoc] at h hne
    rcases Sock.recv_cases h with ⟨rfl, rfl⟩ | ⟨r, u, rfl, h₁⟩
    · exact .inr ⟨List.nil_prefix, rfl, hne⟩
    obtain ⟨hev, htail⟩ := List.forall_mem_cons.mp hflows
    obtain ⟨-, chunk, hchunk, rfl, -, hsome⟩ := id hev
    have hc : chunk ≠ [] := hsome (List.length_pos_iff.mpr hp)
    rw [Sock.heard_cons, unmark_append] at hheard
    have hpre : chunk <+: payload := by
      refine List.prefix_of_prefix_length_le ?_ (List.prefix_append payload z) hchunk
      simpa [heard, ReadReply.bytes] using (List.prefix_append _ _).trans hheard
    obtain ⟨rest, hrest⟩ := hpre
    have hstep := reaches_chunk sys fd fuel hl err total hc hev u s
    have hempty : heard [(⟨.recv .data self.socket_ payload.length, .got chunk hchunk⟩ : ServerEvent)] =
        mark .data chunk := List.append_nil _
    have hmark : mark Kind.data payload = mark .data chunk ++ mark .data rest := by
      rw [← hrest, mark_append]
    have hlength : chunk.length + rest.length = payload.length := by
      rw [← hrest, List.length_append]
    rw [hempty, unmark_mark, ← hrest, List.append_assoc, List.prefix_append_right_inj] at hheard
    rw [storeReply, if_neg hc, storeChunk, bind_assoc] at h₁
    rcases Sock.sys_cases h₁ with ⟨rfl, rfl⟩ | ⟨r, w, rfl, h₂⟩
    · refine .inr ⟨?_, rfl, ?_⟩
      · rw [hempty, hmark]
        exact List.prefix_append _ _
      · rintro a ⟨⟩
    simp only [Answered] at hs
    obtain ⟨hr, hs⟩ := hs
    rcases hwrite : sys s (.write fd chunk) with ⟨s₁, r'⟩
    rw [hwrite] at hr hs
    obtain rfl : r' = r := hr
    rw [hmark]
    cases r' with
    | fail err' =>
      have hlen := hstores [_] fd chunk (.fail err') w rfl rfl
      obtain rfl : rest = [] := by
        rw [payloadHeard_recv, List.length_append, ReadReply.bytes] at hlen
        have hzero : (payloadHeard []).length = 0 := rfl
        exact List.length_eq_zero_iff.mp (by omega)
      obtain ⟨v, hend⟩ := does_storeChunk_refused he hf fd fuel payload.length total hwrite (script w)
      change Runs (self.finishWrite fd (.refused err'.neg)) w q at h₂
      have hpieces : pieces (⟨.sys (.write fd chunk), WriteReply.fail err'⟩ :: w) = [] :=
        (pieces_append [_] w).trans (pieces_finish h₂)
      rw [pieces_recv hc, hpieces, storePieces, hwrite]
      refine .inl ⟨hrest, v, ?_⟩
      rw [report, if_neg err'.not_le_neg, List.append_nil]
      exact hstep.trans hend
    | wrote count hcount =>
      have hpos : count ≠ 0 := (hsteady.write s fd hc count hcount (by rw [hwrite])).ne'
      have hmore := reaches_storeChunk (e := dealtServer sys) self fd fuel payload.length total hwrite hpos (script w)
      have hleft : payload.length - chunk.length = rest.length := by omega
      rw [hleft] at hmore
      change Runs ((if count = 0 then _ else _) >>= _) w q at h₂
      rw [if_neg hpos, hleft] at h₂
      have hstored : StoresUntil rest.length w := by
        rintro t₁ fd' piece r t₂ rfl hzero
        have hlen := hstores (_ :: _ :: t₁) fd' piece r t₂ rfl hzero
        rw [payloadHeard_recv, List.length_append] at hlen
        exact Nat.add_left_cancel (hlen.trans hlength.symm)
      have hshort : rest.length ≤ fuel := by
        have := List.length_pos_iff.mpr hc
        omega
      rcases ih hshort _ _ h₂ (List.forall_mem_cons.mp htail).2 hs hheard hstored with
        ⟨hall, v, hgo⟩ | ⟨hrest', hsaid, hopen⟩
      · rw [pieces_recv hc, storePieces, hwrite]
        refine .inl ⟨?_, v, hstep.trans (hmore.trans hgo)⟩
        change chunk ++ (pieces w).flatten = payload
        rw [hall]
        exact hrest
      · refine .inr ⟨?_, hsaid, hopen⟩
        rw [Sock.heard_cons, hempty]
        exact (List.prefix_append_right_inj _).mpr hrest'

end Store

/-- What the client sends to have a file opened. -/
def encOpening (path : CString) : Marked Kind := encCmd cmd.WRITE ++ encString path.1

/-- What the client sends when its file is open. -/
def encPayload (offset : AgsizeT) (buf : Buffer) : Marked Kind :=
  encSize buf.size ++ encSize offset ++ mark .data buf.bytes

/-- How many bytes of payload the fields that have come in announce. -/
def payloadAnnounced (t : List ServerEvent) : Nat := (be64toh (((only .field (heard t)).drop 8).take 8)).toNat

/-- A write to a file that stores nothing comes only when all the payload that is announced is in. -/
def StoresAll (t : List ServerEvent) : Prop :=
  ∀ t₁ fd chunk r t₂, t = t₁ ++ ⟨.sys (.write fd chunk), r⟩ :: t₂ → storedCount (n := chunk.length) r = 0 →
    (payloadHeard t₁).length = payloadAnnounced t₁

theorem StoresAll.of_stored {t : List ServerEvent} (h : ∀ w ∈ fileWrites t, w.2 ≠ 0) : StoresAll t := by
  rintro t₁ fd chunk r t₂ rfl hzero
  have hmem : (chunk, storedCount (n := chunk.length) r) ∈
      fileWrites (t₁ ++ ⟨.sys (.write fd chunk), r⟩ :: t₂) :=
    List.mem_filterMap.mpr ⟨_, List.mem_append_right _ List.mem_cons_self, rfl⟩
  exact absurd hzero (h _ hmem)

theorem eq_nil_of_mutual {xs ys us vs : Marked Kind} (h : xs = ys ++ us) (h' : ys = xs ++ vs) : vs = [] := by
  have hlen := congrArg List.length h
  have hlen' := congrArg List.length h'
  rw [List.length_append] at hlen hlen'
  exact List.length_eq_zero_iff.mp (by omega)

/-- What a write comes to on the client's and on the server's side, when the file has been opened and
the payload comes in these pieces. -/
def writeOutcome {τ : Type} (sys : τ → (c : ServerCall) → τ × ServerSys.Reply c) (fd : Fd) (offset : AgsizeT)
    (buf : Buffer) (chunks : List Bytes) (s : τ) : (AgsizeT × AgerrT) × τ :=
  let stored := storePieces sys fd chunks 0 0 (sys s (.lseek fd offset)).1
  ((if 0 ≤ stored.1.1 then stored.1.2 else buf.size, stored.1.1), stored.2)

section Write
variable {τ : Type} {sys : τ → (c : ServerCall) → τ × ServerSys.Reply c} {mountPoint : Str} {P : Request → Prop}
  {self : ClientConnection}
  {t : List ServerEvent} {q : ServerIo (Child ⊕ ClientConnection)} {s' t' t'' : τ} {s : Fd}

theorem ClientSys.object_kept : KeepsObject dealtClient id :=
  ⟨fun _ => rfl, fun _ => rfl, fun _ => rfl, fun _ _ => rfl⟩

private theorem payloadAnnounced_of_heard {path : CString} {size offset : AgsizeT} {xs : Marked Kind}
    (h : heard t = encOpening path ++ (encSize size ++ encSize offset ++ xs)) : payloadAnnounced t = size.toNat := by
  have hfields : only .field (heard t) = htobe64 (UInt64.ofNat path.1.length) ++
      (htobe64 size ++ (htobe64 offset ++ only .field xs)) := by
    rw [h]
    simp [only_append, encOpening, encCmd, encString, encSize, only_mark]
  rw [payloadAnnounced, hfields]
  simp

private theorem payloadHeard_of_heard {path : CString} {size offset : AgsizeT} {xs : Marked Kind}
    (h : heard t = encOpening path ++ (encSize size ++ encSize offset ++ xs)) : payloadHeard t = only .data xs := by
  rw [payloadHeard, h]
  simp [only_append, encOpening, encCmd, encString, encSize, only_mark]

/-- Over a write whose file is open client and server are tied: when all the payload has come in, to its
outcome, and when not, to any, because the client has not come to an end. -/
theorem tied_writeFile (hsteady : Steady sys mountPoint P) (hf : 0 ≤ s) (hf' : 0 ≤ self.socket_) (host host' : Endian)
    {path : CString} (hp : Addressable path.1) (offset : AgsizeT) (buf : Buffer) {fd : Nat}
    (hopen : sys s' (.open (cstr (self.file path.1)) O_WRONLY) = (t', .ok fd))
    (h : Runs (Child.body host' (.serving self)) t q)
    (hflows : ∀ ev ∈ t, Flows (fun m => m = Kind.data → False) (fun m => m = Kind.data → True) ev)
    (hs : Answered sys s' t t'') (hstores : StoresAll t) (v : List (Event (Sock Kind ClientSys))) :
    ReadsOver dealtClient (dealtServer sys) host host' self (.writeFile path offset buf) v s (script t) s' (heard t)
      (said t) (q, [], t'') (encOpening path ++ encPayload offset buf) ∧
    ((∀ res t₁, TiedOver dealtClient (dealtServer sys) host host' self (.writeFile path offset buf) v s (script t)
      s' (heard t) (said t) (q, [], t'') res t₁) ∨
    (pieces t).flatten = buf.bytes ∧
      TiedOver dealtClient (dealtServer sys) host host' self (.writeFile path offset buf) v s (script t)
        s' (heard t) (said t) (q, [], t'') (writeOutcome sys fd offset buf (pieces t) t').1
        (writeOutcome sys fd offset buf (pieces t) t').2) := by
  have he : Orderly dealtClient True False := Env.replay_prompt _ _ _
  have he' : Orderly (dealtServer sys) False True := Env.replay_prompt _ _ _
  obtain ⟨c, w, hask, hhear⟩ := asks_writeFile he ClientSys.object_kept hf host path offset buf v
  obtain ⟨w', hserve⟩ : ∃ w', ((dealtServer sys).machine (Child ⊕ ClientConnection)).Reaches
      (Child.body host' (.serving self), script t, s') (encOpening path) (encError 0)
      (self.receiveData host' fd >>= again self, w', t') :=
    ((does_pass he' hf' host' (.writeFile path offset buf) s').trans
      ((does_processWrite he' hf' host' path hp hopen).bind (again self))) (script t)
  have hlast {o x} (hx : (dealtClient.party _).Reaches
      (ServerConnection.sendData host offset buf 0 >>= leave, w, s) [] o x) : ¬ (dealtClient.party _).final x := by
    obtain ⟨c₂, w₂, hask₂, hhear₂⟩ := asks_sendData he ClientSys.object_kept hf host offset buf 0 0 w
    exact not_final_asking hask₂ hhear₂ (by simp [encError_ne_nil]) hx
  have hask₂ (w : List (Event (Sock Kind ClientSys))) :=
    asks_sendData he ClientSys.object_kept hf host offset buf 0 0 w
  have hd₂ : (encError 0 ++ if (0 : AgerrT) ≤ 0 then encSize 0 else []) ≠ [] := by simp [encError_ne_nil]
  have agrees {i o x} (hjoin : Joined (A := dealtClient.party (AgsizeT × AgerrT))
      (B := (dealtServer sys).party (Child ⊕ ClientConnection))
      (ServerConnection.writeFile host path offset buf, v, s) (Child.body host' (.serving self), script t, s') i o x
      (heard t) (said t) (q, [], t'')) (hfinal : ∃ a, q = .ret a) :
      ∃ z, unmark (heard t) <+: z ∧ unmark (encOpening path ++ encPayload offset buf) <+: z := by
    obtain ⟨c₂, w₂, hask₂, hhear₂⟩ := hask₂ w
    exact hjoin.agrees_twice hask hserve hhear (encError_ne_nil 0) hask₂ hhear₂ hd₂ nofun hfinal
  have quiet (hquiet : ∀ j u, heard t = encOpening path ++ j → said t = encError 0 ++ u →
      (∃ z, unmark j <+: unmark (encPayload offset buf) ++ z) →
        j <+: encPayload offset buf ∧ u = [] ∧ ∀ a, q ≠ .ret a) :
      ReadsOver dealtClient (dealtServer sys) host host' self (.writeFile path offset buf) v s (script t) s' (heard t)
        (said t) (q, [], t'') (encOpening path ++ encPayload offset buf) ∧
      ∀ res t₁, TiedOver dealtClient (dealtServer sys) host host' self (.writeFile path offset buf) v s (script t)
        s' (heard t) (said t) (q, [], t'') res t₁ := by
    obtain ⟨c₂, w₂, hask₂, hhear₂⟩ := hask₂ w
    refine ⟨fun i o x hjoin hfinal => ?_, fun res t₁ => ⟨w₂, w', Tied.round (A := dealtClient.party _)
      (B := (dealtServer sys).party _) hask hserve hhear (encError_ne_nil 0)
      (fun hx hfinal => absurd hfinal (hlast hx)) fun j u hj hu hy => ?_⟩⟩
    · obtain ⟨z, hz, y, rfl⟩ := agrees hjoin hfinal
      rw [unmark_append, List.append_assoc] at hz
      rcases hjoin.right.along hserve hz (List.prefix_append _ _) with ⟨j, u, -, -, hend⟩ | ⟨j, u, hj, hu, -⟩
      · obtain ⟨hend, -, -⟩ := Party.reaches_final (A := (dealtServer sys).party _) hend hfinal
        obtain ⟨a, ha⟩ := hfinal
        cases hend
        cases ha
      · rw [hj, unmark_append, List.prefix_append_right_inj] at hz
        obtain ⟨a, ha⟩ := hfinal
        exact absurd ha ((hquiet j u hj hu ⟨y, hz⟩).2.2 a)
    · intro i o x hjoin
      obtain ⟨y, hfit, z, rfl⟩ := hjoin.agrees hask₂ hhear₂ hd₂
      obtain ⟨hpre, rfl, hq⟩ := hquiet j u hj hu ⟨z, hfit⟩
      exact hjoin.silent hask₂ hhear₂ hd₂ (fun ⟨a, ha⟩ => hq a ha) hpre
  by_cases hcompat : ∃ z, unmark (heard t) <+: unmark (encOpening path) ++ (unmark (encPayload offset buf) ++ z)
  swap
  · refine (quiet fun j u hj hu hz => ?_).imp_right .inl
    obtain ⟨z, hz⟩ := hz
    refine absurd ⟨z, ?_⟩ hcompat
    rw [hj, unmark_append, List.prefix_append_right_inj]
    exact hz
  obtain ⟨z, hz⟩ := hcompat
  rcases Env.replays_cut hserve rfl h hflows hs (List.prefix_append _ _) hz with
    ⟨t₁, t₂, rfl, ht₁, hsaid₁, hrun₂, hw', hs₂⟩ | ⟨j, u, hj, hu, hreach⟩
  swap
  · refine (quiet fun j' u' hj' hu' _ => ⟨?_, eq_nil_of_mutual hu hu', ?_⟩).imp_right .inl
    · rw [eq_nil_of_mutual hj hj']
      exact List.nil_prefix
    · rintro a rfl
      have hstate := (hreach.of_stuck fun _ => rfl).1
      cases hstate
  obtain rfl : w' = script t₂ := hw'
  rw [Sock.heard_append, ht₁, unmark_append, List.prefix_append_right_inj] at hz
  have hheard₂ {j : Marked Kind} (hj : heard (t₁ ++ t₂) = encOpening path ++ j) : j = heard t₂ := by
    rw [Sock.heard_append, ht₁] at hj
    exact (List.append_cancel_left hj).symm
  have hsaid₂ {u : Marked Kind} (hu : said (t₁ ++ t₂) = encError 0 ++ u) : u = said t₂ := by
    rw [said_append, hsaid₁] at hu
    exact (List.append_cancel_left hu).symm
  have hflows₂ : ∀ ev ∈ t₂, Flows (fun m => m = Kind.data → False) (fun m => m = Kind.data → True) ev :=
    fun ev hev => hflows ev (List.mem_append_right _ hev)
  have hsize := buf.size_toNat
  obtain ⟨w₃, hreceive⟩ := ((does_receiveData he' hf' host' fd (by rw [hsize]; exact buf.addressable) offset t').bind
    (again self)) (script t₂)
  rw [hsize] at hreceive
  have hfields : unmark (encSize buf.size ++ encSize offset) <+: unmark (encPayload offset buf) ++ z := by
    rw [encPayload, unmark_append _ (mark _ _), List.append_assoc]
    exact List.prefix_append _ _
  rcases Env.replays_cut hreceive rfl hrun₂ hflows₂ hs₂ hfields hz with
    ⟨t₃, t₄, rfl, ht₃, hsaid₃, hrun₄, hw₃, hs₄⟩ | ⟨j, u, hj, hu, hreach⟩
  swap
  · refine (quiet fun j' u' hj' hu' _ => ⟨?_, ?_, ?_⟩).imp_right .inl
    · rw [hheard₂ hj', encPayload, hj, List.append_assoc]
      exact List.prefix_append _ _
    · rw [hsaid₂ hu']
      exact (List.nil_eq_append_iff.mp hu).1
    · rintro a rfl
      have hstate := congrArg Prod.fst (hreach.of_stuck fun _ => rfl).1
      exact Prog.bind_ne_ret (storeLoop_finish_ne_ret self self.socket_ fd _ _ _ _) _ _ hstate
  obtain rfl : w₃ = script t₄ := hw₃
  rw [Sock.heard_append, ht₃, encPayload, unmark_append, unmark_append _ (mark _ _), List.append_assoc,
    List.prefix_append_right_inj, unmark_mark] at hz
  obtain ⟨r, hr, hq⟩ : ∃ r, Runs (ClientConnection.storeLoop self.socket_ fd buf.bytes.length buf.bytes.length 0 0 >>=
      self.finishWrite fd) t₄ r ∧ q = r >>= again self := Runs.bind_ret hrun₄
  have hstored : StoresUntil buf.bytes.length t₄ := by
    rintro t₅ fd' chunk r t₆ rfl hzero
    have hlen := hstores (t₁ ++ (t₃ ++ t₅)) fd' chunk r t₆ (by simp only [List.append_assoc]) hzero
    have hheard : heard (t₁ ++ (t₃ ++ t₅)) = encOpening path ++ (encSize buf.size ++ encSize offset ++ heard t₅) := by
      rw [Sock.heard_append, Sock.heard_append, ht₁, ht₃]
    rw [payloadHeard_of_heard hheard, payloadAnnounced_of_heard hheard, hsize] at hlen
    exact hlen
  rcases reaches_store hsteady hf' fd le_rfl 0 0 hr (fun ev hev => hflows₂ ev (List.mem_append_right _ hev)) hs₄ hz
    hstored with ⟨hall, v₄, hgo⟩ | ⟨hheard₄, hsaid₄, hopen₄⟩
  · have hthrough := hreceive.trans (Env.reaches_bind _ hgo (again self))
    have hpieces : pieces (t₁ ++ (t₃ ++ t₄)) = pieces t₄ := by
      have hnone : payloadHeard (t₁ ++ t₃) = [] := by
        rw [payloadHeard, Sock.heard_append, ht₁, ht₃]
        simp [only_append, encOpening, encCmd, encString, encSize, only_mark]
      rw [← List.append_assoc, pieces_append, pieces_eq_nil hnone, List.nil_append]
    rw [hpieces]
    obtain ⟨c₂, w₂, hask₂, hhear₂⟩ := asks_sendData he ClientSys.object_kept hf host offset buf
      (storePieces sys fd (pieces t₄) 0 0 (sys t' (.lseek fd offset)).1).1.1
      (storePieces sys fd (pieces t₄) 0 0 (sys t' (.lseek fd offset)).1).1.2 w
    refine ⟨fun i o x hjoin hfinal => ?_, .inr ⟨hall, w₂, v₄, Tied.round (A := dealtClient.party _)
      (B := (dealtServer sys).party _) hask hserve hhear (encError_ne_nil 0)
      (fun hx hfinal => absurd hfinal (hlast hx)) fun j u hj hu hy => ?_⟩⟩
    · obtain ⟨z, hz, hu⟩ := agrees hjoin hfinal
      exact Party.heard_all (B := (dealtServer sys).party _) hjoin.right (hserve.trans hthrough) hz hu hfinal ⟨_, rfl⟩
    refine Tied.round (A := dealtClient.party _) (B := (dealtServer sys).party _) hask₂ hthrough hhear₂ ?_
      (fun hx _ => (hx.of_stuck fun _ => rfl).1) fun _ _ _ _ _ => Tied.refl (fun _ => rfl) fun _ => rfl
    exact fun hnil => encError_ne_nil _ (List.append_eq_nil_iff.mp (List.append_eq_nil_iff.mp hnil).2).1
  · refine (quiet fun j u hj hu _ => ⟨?_, ?_, ?_⟩).imp_right .inl
    · rw [hheard₂ hj, Sock.heard_append, ht₃, encPayload]
      exact (List.prefix_append_right_inj _).mpr hheard₄
    · rw [hsaid₂ hu, said_append, hsaid₃, hsaid₄, List.append_nil]
    · rw [hq]
      exact Prog.bind_ne_ret hopen₄ _

/-- What a request comes to on the client's and on the server's side, when the payload of a write comes
in these pieces. -/
def Request.comesTo (sys : τ → (c : ServerCall) → τ × ServerSys.Reply c) (self : ClientConnection)
    (chunks : List Bytes) : (r : Request) → τ → r.Result × τ
  | .writeFile path offset buf, s =>
    match sys s (.open (cstr (self.file path.1)) O_WRONLY) with
    | (s', .error err) => ((0, err.neg), s')
    | (s', .ok fd) => writeOutcome sys fd offset buf chunks s'
  | r, s => (dealtServer sys).run (r.remote self) s

/-- All the payload of a write is in these pieces, if the file opens. -/
def Request.Delivered (sys : τ → (c : ServerCall) → τ × ServerSys.Reply c) (self : ClientConnection)
    (chunks : List Bytes) : Request → τ → Prop
  | .writeFile path _ buf, s =>
    (∃ t fd, sys s (.open (cstr (self.file path.1)) O_WRONLY) = (t, .ok fd)) → chunks.flatten = buf.bytes
  | _, _ => True

/-- What the operation sends: of a write no payload, if its file does not open. -/
def Request.sent (sys : τ → (c : ServerCall) → τ × ServerSys.Reply c) (self : ClientConnection) :
    Request → τ → Marked Kind
  | .writeFile path offset buf, s =>
    match sys s (.open (cstr (self.file path.1)) O_WRONLY) with
    | (_, .error _) => encOpening path
    | (_, .ok _) => encOpening path ++ encPayload offset buf
  | r, _ => encCmd r.command ++ r.args

/-- Client and server are tied over every request, whatever the transfers were like, and a pass that is over has read
what the operation sends. -/
theorem tied_request (hsteady : Steady sys self.mountPoint_ P) (hf : 0 ≤ s) (hf' : 0 ≤ self.socket_)
    (host host' : Endian) {r : Request} (hp : P r) (hv : r.Held) (h : Runs (Child.body host' (.serving self)) t q)
    (hflows : ∀ ev ∈ t, Flows (fun m => m = Kind.data → False) (fun m => m = Kind.data → True) ev)
    (hs : Answered sys s' t t'') (hstores : StoresAll t) (v : List (Event (Sock Kind ClientSys))) :
    ReadsOver dealtClient (dealtServer sys) host host' self r v s (script t) s' (heard t) (said t) (q, [], t'')
      (r.sent sys self s') ∧
    ((∀ res t₁, TiedOver dealtClient (dealtServer sys) host host' self r v s (script t) s' (heard t) (said t)
      (q, [], t'') res t₁) ∨
    r.Delivered sys self (pieces t) s' ∧
      TiedOver dealtClient (dealtServer sys) host host' self r v s (script t) s' (heard t) (said t) (q, [], t'')
        (r.comesTo sys self (pieces t) s').1 (r.comesTo sys self (pieces t) s').2) := by
  have he : Orderly dealtClient True False := Env.replay_prompt _ _ _
  have he' : Orderly (dealtServer sys) False True := Env.replay_prompt _ _ _
  have settled (hr : Serves (dealtServer sys) self host' r s') :
      ReadsOver dealtClient (dealtServer sys) host host' self r v s (script t) s' (heard t) (said t) (q, [], t'')
        (encCmd r.command ++ r.args) ∧
      TiedOver dealtClient (dealtServer sys) host host' self r v s (script t) s' (heard t) (said t) (q, [], t'')
        ((dealtServer sys).run (r.remote self) s').1 ((dealtServer sys).run (r.remote self) s').2 :=
    ⟨reads_serves he ClientSys.object_kept hf he' hf' host host' hr v _ _ _ _,
      tied_serves he ClientSys.object_kept hf he' hf' host host' hr v _ _ _ _⟩
  cases r with
  | writeFile path offset buf =>
    rcases hopen : sys s' (.open (cstr (self.file path.1)) O_WRONLY) with ⟨t', err | fd⟩
    · have hrefused : ¬ (Request.writeFile path offset buf).Opens (dealtServer sys) self s' := by
        rintro ⟨s₁, fd, hok⟩
        cases hopen.symm.trans hok
      obtain ⟨hreads, h⟩ := settled (serves he' hf' host' hsteady hp hv trivial hrefused)
      have hrun : (dealtServer sys).run ((Request.writeFile path offset buf).remote self) s' = ((0, err.neg), t') :=
        run_ask (e := dealtServer sys) hopen
      rw [hrun] at h
      simp only [Request.comesTo, Request.sent, hopen]
      refine ⟨hreads, .inr ⟨?_, h⟩⟩
      rintro ⟨t₁, fd, hok⟩
      cases hopen.symm.trans hok
    · simp only [Request.comesTo, Request.sent, hopen]
      refine (tied_writeFile hsteady hf hf' host host' hv offset buf hopen h hflows hs hstores v).imp_right
        fun htied => htied.imp_right ?_
      exact fun ⟨hall, htied⟩ => ⟨fun _ => hall, htied⟩
  | readFile path size offset =>
    by_cases hsize : size.toNat < 2 ^ 63
    · exact (settled (serves he' hf' host' hsteady hp hv hsize id)).imp_right fun htied => .inr ⟨trivial, htied⟩
    rcases hopen : sys s' (.open (cstr (self.file path.1)) O_RDONLY) with ⟨t', err | fd⟩
    · exact (settled (serves_readFile_refused he' hf' host' hv size offset hopen)).imp_right
        fun htied => .inr ⟨trivial, htied⟩
    · refine ⟨reads_large he ClientSys.object_kept hf he' hf' host host' hv (by omega) offset hopen v _ _ _ _ _,
        .inl fun _ _ => ?_⟩
      exact tied_large he ClientSys.object_kept hf he' hf' host host' hv (by omega) offset hopen v _ _ _ _ _ _
  | _ => exact (settled (serves he' hf' host' hsteady hp hv trivial id)).imp_right fun htied => .inr ⟨trivial, htied⟩

end Write
end AgFS
