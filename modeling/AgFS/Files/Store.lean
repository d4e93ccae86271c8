import AgFS.Files.ReadThrough
import AgFS.Session.Serial

/-! The server as a store of files: what is read over a connection is what has been written. -/
namespace AgFS
open Interaction ByteOrder Contents Sock

def ServerCall.Leaves : ServerCall → Prop
  | .write _ _ => False
  | .open _ flags => flags = O_RDONLY ∨ flags = O_WRONLY
  | _ => True

/-- A name stands for one file, if for any, and only writes change what files hold. -/
structure Disk.Stable {τ ι : Type} {sys : τ → (c : ServerCall) → τ × ServerSys.Reply c} (disk : Disk sys ι)
    (names : Str → Option ι) : Prop where
  opens {s t : τ} {path : Str} {flags : UInt32} {fd : Nat} : flags = O_RDONLY ∨ flags = O_WRONLY →
    sys s (.open path flags) = (t, .ok fd) → ∃ i, names path = some i ∧ disk.cursor t fd flags = some ⟨i, 0⟩
  leaves (s : τ) {c : ServerCall} (h : c.Leaves) : disk.contents (sys s c).1 = disk.contents s

/-- Requests of the file system: nothing is truncated or created by opening it, and places in files are
numbers of the type `off_t`. -/
def Request.Gentle : Request → Prop
  | .open _ flags => flags = O_RDONLY ∨ flags = O_WRONLY
  | .readFile _ _ offset | .writeFile _ offset _ => offset.toNat < 2 ^ 63
  | _ => True

/-- Files by name: a read returns what a file holds, and a write is laid over it. Both may fail, and then
nothing changes. -/
def fileStore {ι : Type} (place : CString → Option ι) : Service Request Request.Result (ι → Bytes) where
  Comes f
    | .readFile path size offset, res, g => g = f ∧ (res.2 < 0 ∨ ∃ i, place path = some i ∧
        res.1 = slice (f i) offset.toNat size.toNat)
    | .writeFile path offset buf, res, g => (res.2 < 0 ∧ g = f) ∨ ∃ i, place path = some i ∧
        res.1 = buf.size ∧ 0 ≤ res.2 ∧ g i = layOver 0 (f i) offset.toNat buf.bytes ∧ ∀ j ≠ i, g j = f j
    | _, _, g => g = f

section Comes
variable {τ ι : Type} {sys : τ → (c : ServerCall) → τ × ServerSys.Reply c} {conn : ClientConnection} {disk : Disk sys ι}
  {names : Str → Option ι} {s t : τ}

theorem storePieces_contents (htakes : disk.TakesAll) {fd : Fd} {chunks : List Bytes} (hne : [] ∉ chunks)
    (hlong : chunks.flatten.length < 2 ^ 63) {err : AgerrT} (herr : 0 ≤ err) (total : AgsizeT) {c : Cursor ι}
    (hc : disk.cursor s fd O_WRONLY = some c) :
    ∃ last t, storePieces sys fd chunks err total s = ((last, total + UInt64.ofNat chunks.flatten.length), t) ∧
      0 ≤ last ∧ disk.contents t c.file = layOver 0 (disk.contents s c.file) c.offset chunks.flatten ∧
      ∀ j ≠ c.file, disk.contents t j = disk.contents s j := by
  induction chunks generalizing err total s c with
  | nil =>
    refine ⟨err, _, by simp [storePieces], herr, ?_, fun j _ => congrFun (disk.close_keeps s fd) j⟩
    rw [List.flatten_nil, layOver_nil]
    exact congrFun (disk.close_keeps s fd) c.file
  | cons chunk rest ih =>
    obtain ⟨hchunk, hrest⟩ := List.ne_and_not_mem_of_not_mem_cons hne
    obtain ⟨s₁, hwrite, hstored, hothers, hcursor⟩ := htakes hc hchunk.symm
    rw [List.flatten_cons, List.length_append] at hlong
    obtain ⟨last, t, hgo, hlast, hcontents, hsame⟩ := ih hrest (by omega)
      (int64_ofNat_nonneg (n := chunk.length) (by omega))
      (total + UInt64.ofNat chunk.length) hcursor
    refine ⟨last, t, ?_, hlast, ?_, fun j hj => (hsame j hj).trans (hothers j hj)⟩
    · rw [storePieces, hwrite, List.flatten_cons, List.length_append, UInt64.ofNat_add, ← UInt64.add_assoc]
      exact hgo
    · rw [hcontents, hstored, layOver_append, List.flatten_cons]

theorem run_leaves (hstable : disk.Stable names) {α : Type} {p : Prog ServerSys α} (hp : p.Only ServerCall.Leaves)
    (s : τ) : disk.contents ((dealtServer sys).run p s).2 = disk.contents s := by
  induction p generalizing s with
  | ret a => rfl
  | call c k ih => exact (ih _ (hp.2 _) _).trans (hstable.leaves s hp.1)

private theorem examine_leaves (file : Str) (entries : List FileName) :
    (Request.examine file entries).Only ServerCall.Leaves := by
  induction entries with
  | nil => trivial
  | cons entry rest ih => exact ⟨trivial, fun _ => ih.bind fun _ => trivial⟩

private theorem remote_leaves (conn : ClientConnection) {r : Request} (hr : r.Gentle)
    (hread : ∀ p n o, r ≠ .readFile p n o)
    (hwrite : ∀ p o b, r ≠ .writeFile p o b) : (r.remote conn).Only ServerCall.Leaves := by
  cases r with
  | heartbeat => trivial
  | getattr path | access path mask =>
    refine ⟨trivial, fun r => ?_⟩
    cases r <;> trivial
  | «open» path flags =>
    refine ⟨hr, fun r => ?_⟩
    cases r <;> exact ⟨trivial, fun _ => trivial⟩
  | readdir path =>
    refine ⟨trivial, fun found => ⟨trivial, fun directory => ?_⟩⟩
    refine Prog.Only.ite trivial (Prog.Only.ite trivial ⟨trivial, fun _ => ⟨trivial, fun listed => ?_⟩⟩)
    exact (examine_leaves _ _).bind fun _ => trivial
  | readFile path size offset => exact absurd rfl (hread path size offset)
  | writeFile path offset buf => exact absurd rfl (hwrite path offset buf)

/-- What comes of a request on the server's machine is what comes of it in a store of files. -/
theorem comes_fileStore (hstable : disk.Stable names) (htakes : disk.TakesAll) (hdelivers : disk.Delivers)
    {r : Request} (hr : r.Gentle) {res : r.Result} (h : (remoteService sys conn).Comes s r res t) :
    (fileStore fun path => names (cstr (conn.file path.1))).Comes (disk.contents s) r res (disk.contents t) := by
  obtain ⟨chunks, hwhole, hne, hcomes⟩ := h
  have left (hread : ∀ p n o, r ≠ .readFile p n o) (hwrite : ∀ p o b, r ≠ .writeFile p o b)
      (hrun : (dealtServer sys).run (r.remote conn) s = (res, t)) : disk.contents t = disk.contents s := by
    have hleaves := run_leaves hstable (remote_leaves conn hr hread hwrite) s
    rwa [hrun] at hleaves
  cases r with
  | readFile path size offset =>
    change (dealtServer sys).run ((Request.readFile path size offset).remote conn) s = (res, t) at hcomes
    rcases hopen : sys s (.open (cstr (conn.file path.1)) O_RDONLY) with ⟨t₁, err | fd⟩
    · have hkept := hstable.leaves s (c := .open (cstr (conn.file path.1)) O_RDONLY) (.inl rfl)
      have hrefused : (dealtServer sys).run ((Request.readFile path size offset).remote conn) s =
          (([], err.neg), t₁) := run_ask (e := dealtServer sys) hopen
      rw [hopen] at hkept
      cases hrefused.symm.trans hcomes
      exact ⟨hkept, .inl err.neg_lt⟩
    · obtain ⟨i, t', hcursor, hkept, hrun⟩ := run_readFile (e := dealtServer sys) conn path size disk hdelivers hr hopen
      obtain ⟨j, hname, hcursor'⟩ := hstable.opens (.inl rfl) hopen
      cases hcursor.symm.trans hcursor'
      cases hrun.symm.trans hcomes
      exact ⟨hkept, .inr ⟨i, hname, rfl⟩⟩
  | writeFile path offset buf =>
    rw [Request.comesTo] at hcomes
    rcases hopen : sys s (.open (cstr (conn.file path.1)) O_WRONLY) with ⟨t₁, err | fd⟩
    · have hkept := hstable.leaves s (c := .open (cstr (conn.file path.1)) O_WRONLY) (.inr rfl)
      simp only [hopen] at hcomes hkept
      cases hcomes
      exact .inl ⟨err.neg_lt, hkept⟩
    · simp only [hopen] at hcomes
      obtain ⟨hkept, -⟩ := disk.open_keeps (.inr rfl) hopen
      obtain ⟨i, hname, hcursor⟩ := hstable.opens (.inr rfl) hopen
      obtain ⟨hseek, hplace⟩ := disk.lseek_moves hcursor hr
      have hlong : chunks.flatten.length < 2 ^ 63 := by
        rw [hwhole]
        exact buf.addressable
      obtain ⟨last, t₂, hstored, hlast, hcontents, hothers⟩ :=
        storePieces_contents htakes hne hlong (show (0 : AgerrT) ≤ 0 by decide) 0 hplace
      rw [writeOutcome, hstored] at hcomes
      cases hcomes
      rw [hwhole, hseek, hkept] at hcontents
      refine .inr ⟨i, hname, ?_, hlast, hcontents, fun j hj => ?_⟩
      · simp only [if_pos hlast, hwhole, UInt64.zero_add]
        rfl
      · rw [hothers j hj, hseek, hkept]
  | _ => exact left (by rintro _ _ _ ⟨⟩) (by rintro _ _ _ ⟨⟩) hcomes

end Comes

section Reading
variable {ι : Type} {place : CString → Option ι} {before between after : List (Asked Request.Result)}
  {path path' : CString} {offset offset' size : AgsizeT} {buf : Buffer} {f : ι → Bytes}

/-- Between a write to a file and a read from it nothing else is written to this file: the read returns what
has been written. -/
theorem fileStore_reads {n : AgsizeT} {bs : Bytes} {err err' : AgerrT}
    (h : (fileStore place).Serial f (before ++ ⟨.writeFile path offset buf, some (n, err)⟩ ::
      (between ++ ⟨.readFile path' size offset', some (bs, err')⟩ :: after)))
    (hwritten : 0 ≤ err) (hread : 0 ≤ err') (hsame : place path' = place path)
    (hbetween : ∀ call ∈ between, ∀ p o b, call.request = .writeFile p o b → place p ≠ place path)
    (hfrom : offset.toNat ≤ offset'.toNat) (hto : offset'.toNat + size.toNat ≤ offset.toNat + buf.bytes.length) :
    bs = slice buf.bytes (offset'.toNat - offset.toNat) size.toNat := by
  obtain ⟨g, g', -, hwrite, hrest⟩ := h.keeps (I := fun _ => True) (P := fun _ => True) (fun _ _ _ => trivial) trivial
    fun _ _ => trivial
  rcases hwrite with ⟨hfailed, -⟩ | ⟨i, hplace, -, -, hstored, -⟩
  · exact absurd hwritten (Int64.not_le.mpr hfailed)
  have kept {s t : ι → Bytes} {r : Request} {res : r.Result} (hr : ∀ p o b, r = .writeFile p o b → place p ≠ place path)
      (hs : s i = g' i) (hcomes : (fileStore place).Comes s r res t) : t i = g' i := by
    cases r with
    | writeFile p o b =>
      rcases hcomes with ⟨-, rfl⟩ | ⟨j, hj, -, -, -, hothers⟩
      · exact hs
      · refine (hothers i fun hij => hr p o b rfl ?_).trans hs
        rw [hj, hplace, hij]
    | readFile =>
      obtain ⟨rfl, -⟩ := hcomes
      exact hs
    | _ =>
      obtain rfl := hcomes
      exact hs
  obtain ⟨u, u', hu, hcomes, -⟩ := hrest.keeps (I := fun u => u i = g' i)
    (P := fun r => ∀ p o b, r = .writeFile p o b → place p ≠ place path) kept rfl hbetween
  obtain ⟨-, hfailed | ⟨j, hj, hbs⟩⟩ := hcomes
  · exact absurd hread (Int64.not_le.mpr hfailed)
  · rw [hsame, hplace] at hj
    cases hj
    rw [← slice_layOver 0 hfrom hto (g i), ← hstored, ← hu]
    exact hbs

end Reading

section Exchanges
variable {τ ι : Type} {host host' : Endian} {fd : Fd} {sys : τ → (c : ServerCall) → τ × ServerSys.Reply c}
  {conn : ClientConnection} {s : τ} {disk : Disk sys ι} {names : Str → Option ι}

theorem InStep.fileStore {ops : List Errand} {us : List Pass} (h : InStep host sys conn s ops us)
    (hdone : ∀ ops₁ o ops₂, ops = ops₁ ++ o :: ops₂ → ops₂ ≠ [] → o.Done) (hstable : disk.Stable names)
    (htakes : disk.TakesAll) (hdelivers : disk.Delivers) (hgentle : ∀ o ∈ ops, o.request.Gentle) :
    (fileStore fun path => names (cstr (conn.file path.1))).Serial (disk.contents s) (ops.map Errand.asked) := by
  refine (h.serial (fun _ => rfl) hdone).refine (P := Request.Gentle)
    (fun hr => comes_fileStore hstable htakes hdelivers hr) fun call hcall => ?_
  obtain ⟨o, ho, rfl⟩ := List.mem_map.mp hcall
  exact hgentle o ho

/-- As long as the transfers are unbroken, a client sees a store of files: every operation that has returned
has returned what comes of its request there, one request after the other. -/
theorem exchange_fileStore {x : Exchange host host' fd sys conn s} (hsteady : Steady sys conn.mountPoint_ x.Asks)
    (hstable : disk.Stable names) (htakes : disk.TakesAll) (hdelivers : disk.Delivers) (hf : 0 ≤ fd)
    (hconn : 0 ≤ conn.socket_)
    (hheld : ∀ o ∈ x.errands, o.request.Held ∧ o.request.Gentle) (h : x.Unbroken) :
    (fileStore fun path => names (cstr (conn.file path.1))).Serial (disk.contents s) (x.errands.map Errand.asked) :=
  (Exchange.inStep h hsteady hf hconn fun o ho => (hheld o ho).1).fileStore (fun _ _ _ => x.performed.done) hstable
    htakes hdelivers fun o ho => (hheld o ho).2

/-- Across a connection a client reads what it has written, whatever it and the server do in between that is
not a write to the file. -/
theorem exchange_reads_back {x : Exchange host host' fd sys conn s} (hsteady : Steady sys conn.mountPoint_ x.Asks)
    (hstable : disk.Stable names) (htakes : disk.TakesAll) (hdelivers : disk.Delivers) (hf : 0 ≤ fd)
    (hconn : 0 ≤ conn.socket_)
    (hheld : ∀ o ∈ x.errands, o.request.Held ∧ o.request.Gentle) (h : x.Unbroken)
    {before between after : List (Asked Request.Result)} {path path' : CString} {offset offset' size n : AgsizeT}
    {buf : Buffer} {bs : Bytes} {err err' : AgerrT}
    (hasked : x.errands.map Errand.asked = before ++ ⟨.writeFile path offset buf, some (n, err)⟩ ::
      (between ++ ⟨.readFile path' size offset', some (bs, err')⟩ :: after))
    (hwritten : 0 ≤ err) (hread : 0 ≤ err')
    (hsame : names (cstr (conn.file path'.1)) = names (cstr (conn.file path.1)))
    (hbetween : ∀ call ∈ between, ∀ p o b, call.request = .writeFile p o b →
      names (cstr (conn.file p.1)) ≠ names (cstr (conn.file path.1)))
    (hfrom : offset.toNat ≤ offset'.toNat) (hto : offset'.toNat + size.toNat ≤ offset.toNat + buf.bytes.length) :
    bs = slice buf.bytes (offset'.toNat - offset.toNat) size.toNat := by
  have hstore := (Exchange.inStep h hsteady hf hconn fun o ho => (hheld o ho).1).fileStore
    (fun _ _ _ => x.performed.done) hstable htakes hdelivers fun o ho => (hheld o ho).2
  rw [hasked] at hstore
  exact fileStore_reads hstore hwritten hread hsame hbetween hfrom hto

end Exchanges

/-- One file that opens under every name, in a directory that is empty. -/
def filed : Bytes × Nat → (c : ServerCall) → (Bytes × Nat) × ServerSys.Reply c
  | s, .entries _ => (s, .ok .empty)
  | s, c => oneFile s c

theorem filed_steady {mountPoint : Str} {P : Request → Prop} : Steady filed mountPoint P where
  fileExists _ _ := ⟨false, rfl⟩
  isDirectory _ _ := ⟨false, rfl⟩
  entries _ _ t _ := ⟨_, t, rfl, rfl⟩
  write _ _ _ h _ _ hc := by
    cases hc
    exact List.length_pos_iff.mpr h

def filed_disk : Disk filed Unit where
  contents s _ := s.1
  cursor s _ _ := some ⟨(), s.2⟩
  open_keeps := by
    intro s t path flags fd _ h
    cases h
    exact ⟨rfl, (), rfl⟩
  lseek_moves := fun _ _ => ⟨rfl, rfl⟩
  close_keeps := fun _ _ => rfl

theorem filed_stable : filed_disk.Stable fun _ => some () where
  opens _ h := by
    cases h
    exact ⟨(), rfl, rfl⟩
  leaves s c h := by
    cases c with
    | write => exact h.elim
    | _ => rfl

theorem filed_takesAll : filed_disk.TakesAll := by
  intro s fd c bs hc _
  cases hc
  exact ⟨_, rfl, rfl, fun j hj => absurd rfl hj, rfl⟩

theorem filed_delivers : filed_disk.Delivers := by
  intro s fd c n hc
  cases hc
  obtain ⟨t, bs, hbs, hread, hrest⟩ := @oneFile_delivers s fd _ n rfl
  exact ⟨t, bs, hbs, hread, hrest⟩

def reading : Errand where
  request := .readFile storedFile 2 1
  calls := [⟨.sys .lock, ()⟩,
    ⟨.sys .getSocket, (3 : Fd)⟩, ⟨.send .command 3 (htobe16 cmd.READ), .all _⟩,
    ⟨.sys .getSocket, (3 : Fd)⟩, ⟨.send .field 3 (htobe64 1), .all _⟩, ⟨.send .text 3 [0x61], .all _⟩,
    ⟨.sys .getSocket, (3 : Fd)⟩, ⟨.send .field 3 (htobe64 2), .all _⟩,
    ⟨.sys .getSocket, (3 : Fd)⟩, ⟨.send .field 3 (htobe64 1), .all _⟩,
    ⟨.sys .getSocket, (3 : Fd)⟩, ⟨.recv .field 3 8, fieldReply 2⟩,
    ⟨.sys .getSocket, (3 : Fd)⟩, ⟨.recv .field 3 8, fieldReply 2⟩,
    ⟨.malloc 2, some (.zeros 2)⟩, ⟨.sys .getSocket, (3 : Fd)⟩,
    ⟨.recv .data 3 2, wholeReply [0, 2]⟩, ⟨.sys .unlock, ()⟩]
  left := .ret (([0, 2], 2) : Bytes × AgerrT)

def readingPass : Pass where
  calls := [⟨.recv .command 4 2, commandReply cmd.READ⟩,
    ⟨.recv .field 4 8, fieldReply 1⟩, ⟨.malloc 2, some (.zeros 2)⟩,
    ⟨.recv .text 4 1, wholeReply [0x61]⟩, ⟨.recv .field 4 8, fieldReply 2⟩,
    ⟨.recv .field 4 8, fieldReply 1⟩,
    ⟨.sys (.open [0x2F, 0x61] O_RDONLY), Except.ok 5⟩, ⟨.sys (.lseek 5 1), Except.ok ()⟩,
    ⟨.malloc 2, some (.zeros 2)⟩, ⟨.sys (.read 5 2), wholeReply [0, 2]⟩,
    ⟨.send .field 4 (htobe64 2), .all _⟩, ⟨.send .field 4 (htobe64 2), .all _⟩,
    ⟨.send .data 4 [0, 2], .all _⟩]
  left := .ret (.inl (.serving rootServer))

/-- Passes for a write, a heartbeat and a read. -/
theorem served_writeBeatRead :
    Served .little filed rootServer ([], 0) [writingPass writeStored, beatingPass, readingPass] := by
  refine @Served.cons _ _ _ _ rootServer _ ([7, 0, 2], 3) _ _ ?_ ?_ (fun _ => rfl)
    (@Served.cons _ _ _ _ rootServer _ ([7, 0, 2], 3) _ _ ?_ ?_ (fun _ => rfl)
      (.cons ?_ ?_ (fun h => absurd rfl h) (.nil rootServer ([7, 0, 2], 3))))
  · repeat apply Runs.step
    exact .refl _
  · simp [writingPass, writeTaken, writeStored, Answered, filed, oneFile, layOver, padded]
  · repeat apply Runs.step
    exact .refl _
  · simp [beatingPass, Answered]
  · repeat apply Runs.step
    exact .refl _
  · simp [readingPass, Answered, filed, oneFile, slice]

/-- Three bytes are written to `/a`, in two pieces, and two of them are read again after a heartbeat. -/
def writeThenRead : Exchange .little .little 3 filed rootServer ([], 0) where
  errands := [writing writeAnswered (3, 2), beating, reading]
  passes := [writingPass writeStored, beatingPass, readingPass]
  performed := by
    refine @Performed.cons _ _ 3 _ _ ?_ ?_ (fun _ => ⟨_, rfl⟩) (@Performed.cons _ _ 3 _ _ ?_ ?_ (fun _ => ⟨_, rfl⟩)
      (.cons ?_ ?_ (fun h => absurd rfl h) (.nil 3)))
    · repeat apply Runs.step
      exact .refl _
    · simp [writing, writeSent, writeAnswered, Answered, ClientSys.object]
    · repeat apply Runs.step
      exact .refl _
    · simp [beating, beatCalls, Answered, ClientSys.object]
    · repeat apply Runs.step
      exact .refl _
    · simp [reading, Answered, ClientSys.object]
  served := served_writeBeatRead
  up := by decide
  down := by decide

private theorem writeThenRead_held : ∀ o ∈ writeThenRead.errands, o.request.Held ∧ o.request.Gentle := by
  refine List.forall_mem_cons.mpr ⟨⟨storedFile_addressable, ?_⟩, List.forall_mem_cons.mpr ⟨⟨trivial, trivial⟩,
    List.forall_mem_singleton.mpr ⟨storedFile_addressable, ?_⟩⟩⟩
  · exact show (0 : AgsizeT).toNat < 2 ^ 63 by decide
  · exact show (1 : AgsizeT).toNat < 2 ^ 63 by decide

private theorem reading_flows : ∀ ev ∈ reading.calls,
    Flows (fun m => m = Kind.data → True) (fun m => m = Kind.data → False) ev := by
  simp [reading]
  decide

theorem readingPass_flows : ∀ ev ∈ readingPass.calls,
    Flows (fun m => m = Kind.data → False) (fun m => m = Kind.data → True) ev := by
  simp [readingPass]
  decide

private theorem writeThenRead_unbroken : writeThenRead.Unbroken where
  client := List.forall_mem_cons.mpr ⟨writing_flows, List.forall_mem_cons.mpr ⟨beating_flows,
    List.forall_mem_singleton.mpr reading_flows⟩⟩
  server := List.forall_mem_cons.mpr ⟨.inr writingPass_flows, List.forall_mem_cons.mpr ⟨.inr beatingPass_flows,
    List.forall_mem_singleton.mpr (.inr readingPass_flows)⟩⟩
  stores := List.forall_mem_cons.mpr ⟨.of_stored (by decide), List.forall_mem_cons.mpr ⟨.of_stored (by decide),
    List.forall_mem_singleton.mpr (.of_stored (by decide))⟩⟩

theorem exchange_fileStore_writeThenRead :
    (fileStore fun _ => some ()).Serial (filed_disk.contents ([], 0)) (writeThenRead.errands.map Errand.asked) :=
  exchange_fileStore filed_steady filed_stable filed_takesAll filed_delivers (by decide) (by decide)
    writeThenRead_held writeThenRead_unbroken

theorem exchange_reads_back_writeThenRead : ([0, 2] : Bytes) = slice [7, 0, 2] 1 2 := by
  have hasked : writeThenRead.errands.map Errand.asked =
      [] ++ ⟨.writeFile storedFile 0 threeBytes, some (3, 2)⟩ ::
        ([⟨.heartbeat, some (0 : AgerrT)⟩] ++ ⟨.readFile storedFile 2 1, some ([0, 2], 2)⟩ :: []) := rfl
  exact exchange_reads_back filed_steady filed_stable filed_takesAll filed_delivers (by decide) (by decide)
    writeThenRead_held writeThenRead_unbroken hasked (by decide) (by decide) rfl
    (List.forall_mem_singleton.mpr nofun) (by decide) (by decide)

end AgFS
