import AgFS.Session.Serial

/-! Two exchanges of the same requests in which the payloads come in different pieces. -/
namespace AgFS
open Interaction ByteOrder Sock

/-- A write to a file that has been opened for it stores all it is given, and two of them, one behind the
other, are as good as one. -/
structure Seamless {τ : Type} (sys : τ → (c : ServerCall) → τ × ServerSys.Reply c) (Writable : τ → Fd → Prop) :
    Prop where
  opened {s t : τ} {path : Str} {fd : Nat} : sys s (.open path O_WRONLY) = (t, .ok fd) → Writable t fd
  placed {s : τ} {fd : Fd} (offset : AgsizeT) : Writable s fd → Writable (sys s (.lseek fd offset)).1 fd
  kept {s : τ} {fd : Fd} (bs : Bytes) : Writable s fd → Writable (sys s (.write fd bs)).1 fd
  whole {s : τ} {fd : Fd} (bs : Bytes) : Writable s fd → (sys s (.write fd bs)).2 = .all bs.length
  joined {s : τ} {fd : Fd} (as bs : Bytes) : Writable s fd →
    (sys (sys s (.write fd as)).1 (.write fd bs)).1 = (sys s (.write fd (as ++ bs))).1

/-- Results that look the same to the file system: of a write, what `agfs_write` makes of them. -/
def Request.Alike : (r : Request) → r.Result → r.Result → Prop
  | .writeFile _ _ _, res, res' => writeResult res = writeResult res'
  | _, res, res' => res = res'

section
variable {τ : Type} {host host' : Endian} {fd fd' : Fd} {sys : τ → (c : ServerCall) → τ × ServerSys.Reply c}
  {Writable : τ → Fd → Prop} {conn : ClientConnection} {s : τ}

/-- Pieces stored one behind the other, as one. -/
theorem storePieces_seamless (h : Seamless sys Writable) {fd : Fd} {chunks : List Bytes} (hchunks : chunks ≠ [])
    (err : AgerrT) (total : AgsizeT) (hs : Writable s fd) :
    storePieces sys fd chunks err total s =
      ((Int64.ofNat (chunks.getLast hchunks).length, total + UInt64.ofNat chunks.flatten.length),
        (sys (sys s (.write fd chunks.flatten)).1 (.close fd)).1) := by
  induction chunks generalizing err total s with
  | nil => exact absurd rfl hchunks
  | cons chunk rest ih =>
    have hwhole := h.whole chunk hs
    have hkept := h.kept chunk hs
    have hjoined := h.joined chunk rest.flatten hs
    rw [storePieces]
    rcases hwrite : sys s (.write fd chunk) with ⟨s₁, r⟩
    rw [hwrite] at hwhole hkept hjoined
    obtain rfl : r = .all chunk.length := hwhole
    by_cases hrest : rest = []
    · subst hrest
      rw [List.flatten_singleton, hwrite]
      rfl
    · have htotal : total + UInt64.ofNat chunk.length + UInt64.ofNat rest.flatten.length =
          total + UInt64.ofNat (chunk ++ rest.flatten).length := by
        rw [List.length_append, UInt64.ofNat_add, UInt64.add_assoc]
      dsimp only at hjoined ⊢
      rw [ih hrest _ _ hkept, hjoined, List.flatten_cons, htotal, List.getLast_cons hrest]

/-- A payload that comes in some pieces is stored whole, and the last of them is what is counted. -/
theorem writeOutcome_seamless (h : Seamless sys Writable) {fd : Fd} (offset : AgsizeT) (buf : Buffer)
    {chunks : List Bytes} (hwhole : chunks.flatten = buf.bytes) (hchunks : chunks ≠ []) (hs : Writable s fd) :
    0 ≤ Int64.ofNat (chunks.getLast hchunks).length ∧
      writeOutcome sys fd offset buf chunks s =
        ((UInt64.ofNat buf.bytes.length, Int64.ofNat (chunks.getLast hchunks).length),
          (sys (sys (sys s (.lseek fd offset)).1 (.write fd buf.bytes)).1 (.close fd)).1) := by
  have hlen : (chunks.getLast hchunks).length ≤ buf.bytes.length := by
    rw [← hwhole]
    exact (List.sublist_flatten_of_mem (List.getLast_mem hchunks)).length_le
  have hpos : 0 ≤ Int64.ofNat (chunks.getLast hchunks).length := int64_ofNat_nonneg (hlen.trans_lt buf.addressable)
  refine ⟨hpos, ?_⟩
  rw [writeOutcome, storePieces_seamless h hchunks 0 0 (h.placed offset hs), hwhole]
  simp [hpos]

private theorem pieces_empty {buf : Buffer} {chunks : List Bytes} (hwhole : chunks.flatten = buf.bytes)
    (hne : [] ∉ chunks) : chunks = [] ↔ buf.bytes = [] := by
  rw [← hwhole, List.flatten_eq_nil_iff]
  refine ⟨fun h => by simp [h], fun h => List.eq_nil_iff_forall_not_mem.mpr fun c hc => ?_⟩
  exact hne (h c hc ▸ hc)

/-- A write whose payload comes in some pieces has the outcome of one whose payload comes in others. -/
theorem writeOutcome_alike (h : Seamless sys Writable) {fd : Fd} (offset : AgsizeT) (buf : Buffer)
    {chunks chunks' : List Bytes} (hwhole : chunks.flatten = buf.bytes) (hne : [] ∉ chunks)
    (hwhole' : chunks'.flatten = buf.bytes) (hne' : [] ∉ chunks') (hs : Writable s fd) :
    writeResult (writeOutcome sys fd offset buf chunks s).1 = writeResult (writeOutcome sys fd offset buf chunks' s).1 ∧
      (writeOutcome sys fd offset buf chunks s).2 = (writeOutcome sys fd offset buf chunks' s).2 := by
  by_cases hb : buf.bytes = []
  · rw [(pieces_empty hwhole hne).mpr hb, (pieces_empty hwhole' hne').mpr hb]
    exact ⟨rfl, rfl⟩
  obtain ⟨hlast, houtcome⟩ :=
    writeOutcome_seamless h offset buf hwhole (fun hnil => hb ((pieces_empty hwhole hne).mp hnil)) hs
  obtain ⟨hlast', houtcome'⟩ :=
    writeOutcome_seamless h offset buf hwhole' (fun hnil => hb ((pieces_empty hwhole' hne').mp hnil)) hs
  rw [houtcome, houtcome']
  exact ⟨by simp only [writeResult, if_pos hlast, if_pos hlast'], rfl⟩

private theorem comes_alike (h : Seamless sys Writable) {r : Request} {res res' : r.Result} {t t' : τ}
    (hcomes : (remoteService sys conn).Comes s r res t) (hcomes' : (remoteService sys conn).Comes s r res' t') :
    r.Alike res res' ∧ t = t' := by
  obtain ⟨chunks, hwhole, hne, hres⟩ := hcomes
  obtain ⟨chunks', hwhole', hne', hres'⟩ := hcomes'
  cases r with
  | writeFile path offset buf =>
    rw [Request.comesTo] at hres hres'
    rcases hopen : sys s (.open (cstr (conn.file path.1)) O_WRONLY) with ⟨s₁, err | fd⟩
    · simp only [hopen] at hres hres'
      cases hres.symm.trans hres'
      exact ⟨rfl, rfl⟩
    · simp only [hopen] at hres hres'
      have halike := writeOutcome_alike h offset buf hwhole hne hwhole' hne' (h.opened hopen)
      rw [hres, hres'] at halike
      exact halike
  | _ =>
    cases hres.symm.trans hres'
    exact ⟨rfl, rfl⟩

/-- Two exchanges of the same requests, from the same state of the server, on unbroken transfers: however the
payloads are cut, every operation that has returned in both has returned the same, as far as the file system
can tell. -/
theorem exchanges_agree {x : Exchange host host' fd sys conn s} {y : Exchange host host' fd' sys conn s}
    (hseamless : Seamless sys Writable) (hsteady : Steady sys conn.mountPoint_ x.Asks) (hf : 0 ≤ fd) (hf' : 0 ≤ fd')
    (hconn : 0 ≤ conn.socket_)
    (hsame : x.errands.map Errand.request = y.errands.map Errand.request)
    (hheld : ∀ o ∈ x.errands, o.request.Held) (hx : x.Unbroken) (hy : y.Unbroken) :
    List.Forall₂ (Service.Agree Request.Alike) (x.errands.map Errand.asked) (y.errands.map Errand.asked) := by
  have hasked (r : Request) (hr : y.Asks r) : x.Asks r := by
    obtain ⟨o, ho, rfl⟩ := hr
    exact List.mem_map.mp (hsame ▸ List.mem_map_of_mem ho)
  have hheldy : ∀ o ∈ y.errands, o.request.Held := by
    intro o ho
    obtain ⟨o', ho', hrequest⟩ := hasked o.request ⟨o, ho, rfl⟩
    exact hrequest ▸ hheld o' ho'
  have hserial : (remoteService sys conn).Serial s (x.errands.map Errand.asked) :=
    (Exchange.inStep hx hsteady hf hconn hheld).serial (fun _ => rfl) fun _ _ _ => x.performed.done
  have hserial' : (remoteService sys conn).Serial s (y.errands.map Errand.asked) :=
    (Exchange.inStep hy (hsteady.mono hasked) hf' hconn hheldy).serial (fun _ => rfl) fun _ _ _ => y.performed.done
  refine hserial.agree hserial' rfl ?_ ?_
  · rintro s _ r res res' t t' rfl hcomes hcomes'
    exact comes_alike hseamless hcomes hcomes'
  · rw [List.map_map, List.map_map]
    exact hsame

end

/-- The same requests as in `twoPieces`, with the payload in one piece: the server reports another last count. -/
def onePiece : Exchange .little .little 3 roomyDisk rootServer () where
  errands := [writing [⟨.recv .field 3 8, fieldReply 3⟩, ⟨.sys .getSocket, (3 : Fd)⟩,
    ⟨.recv .field 3 8, fieldReply 3⟩] (3, 3), beating, accessing]
  passes := [⟨writeTaken.dropLast ++ [⟨.recv .data 4 3, wholeReply [7, 0, 2]⟩,
    ⟨.sys (.write 5 [7, 0, 2]), .all 3⟩, ⟨.sys (.close 5), ()⟩, ⟨.send .field 4 (htobe64 3), .all _⟩,
    ⟨.send .field 4 (htobe64 3), .all _⟩], .ret (.inl (.serving rootServer))⟩, beatingPass, accessingPass]
  performed := by
    refine @Performed.cons _ _ 3 _ _ ?_ ?_ (fun _ => ⟨_, rfl⟩) (@Performed.cons _ _ 3 _ _ ?_ ?_ (fun _ => ⟨_, rfl⟩)
      (.cons ?_ ?_ (fun h => absurd rfl h) (.nil 3)))
    · repeat apply Runs.step
      exact .refl _
    · simp [writing, writeSent, Answered, ClientSys.object]
    · repeat apply Runs.step
      exact .refl _
    · simp [beating, beatCalls, Answered, ClientSys.object]
    · repeat apply Runs.step
      exact .refl _
    · simp [accessing, Answered, ClientSys.object]
  served := by
    refine @Served.cons _ _ _ _ rootServer _ () _ _ ?_ ?_ (fun _ => rfl) (@Served.cons _ _ _ _ rootServer _ () _ _ ?_ ?_
      (fun _ => rfl) (.cons ?_ ?_ (fun h => absurd rfl h) (.nil rootServer ())))
    · repeat apply Runs.step
      exact .refl _
    · simp [writeTaken, Answered, roomyDisk, ServerSys.roomy]
    · repeat apply Runs.step
      exact .refl _
    · simp [beatingPass, Answered]
    · repeat apply Runs.step
      exact .refl _
    · simp [accessingPass, Answered, roomyDisk, ServerSys.roomy, ServerSys.silent]
  up := by decide
  down := by decide

private theorem onePiece_unbroken : onePiece.Unbroken where
  client := by
    refine List.forall_mem_cons.mpr ⟨?_, List.forall_mem_cons.mpr ⟨beating_flows,
      List.forall_mem_singleton.mpr accessing_flows⟩⟩
    simp [writing, writeSent]
    decide
  server := by
    refine List.forall_mem_cons.mpr ⟨.inr ?_, List.forall_mem_cons.mpr ⟨.inr beatingPass_flows,
      List.forall_mem_singleton.mpr (.inr accessingPass_flows)⟩⟩
    simp [writeTaken]
    decide
  stores := List.forall_mem_cons.mpr ⟨.of_stored (by decide), List.forall_mem_cons.mpr ⟨.of_stored (by decide),
    List.forall_mem_singleton.mpr (.of_stored (by decide))⟩⟩

theorem roomyDisk_seamless : Seamless roomyDisk fun _ fd => 0 ≤ fd where
  opened _ := Int.natCast_nonneg _
  placed _ h := h
  kept _ h := h
  whole _ _ := rfl
  joined _ _ _ := rfl

theorem exchanges_agree_pieces : List.Forall₂ (Service.Agree Request.Alike) (twoPieces.errands.map Errand.asked)
    (onePiece.errands.map Errand.asked) :=
  exchanges_agree roomyDisk_seamless roomyDisk_steady (by decide) (by decide) (by decide) rfl
    twoPieces_held twoPieces_unbroken onePiece_unbroken

end AgFS
