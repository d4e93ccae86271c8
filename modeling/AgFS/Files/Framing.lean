import AgFS.Session.History

/-! File data and commands on the way to the server: where a request ends and the next one begins. -/
namespace AgFS
open Interaction ByteOrder Sock

section
variable {τ : Type} {host host' : Endian} {fd : Fd} {sys : τ → (c : ServerCall) → τ × ServerSys.Reply c}
  {self conn : ClientConnection} {s : τ} {ops : List Errand} {us : List Pass}

private theorem answered_split {σ : Type} {L : Signature} {sys : σ → (c : L.Call) → σ × L.Reply c} {s s' : σ}
    {t u : List (Event (Sock Kind L))} (h : Answered sys s (t ++ u) s') : ∃ m, Answered sys s t m := by
  induction t generalizing s with
  | nil => exact ⟨s, rfl⟩
  | cons ev t ih =>
    obtain ⟨call, r⟩ := ev
    cases call with
    | sys c =>
      obtain ⟨m, hm⟩ := ih h.2
      exact ⟨m, h.1, hm⟩
    | _ => exact ih h

/-- What the client has done up to some call of an operation. -/
theorem Performed.cut {ops₁ ops₂ : List Errand} {o : Errand} {t₁ t₂ : List ClientEvent}
    (h : Performed host fd (ops₁ ++ o :: ops₂)) (ht : o.calls = t₁ ++ t₂) :
    ∃ left, Performed host fd (ops₁ ++ [⟨o.request, t₁, left⟩]) := by
  induction ops₁ generalizing fd with
  | nil =>
    cases h with
    | cons runs answered done rest =>
      rw [ht] at runs answered
      obtain ⟨left, hleft, -⟩ := runs.split
      obtain ⟨m, hm⟩ := answered_split answered
      exact ⟨left, .cons hleft hm (fun hne => absurd rfl hne) (.nil m)⟩
  | cons o' ops₁ ih =>
    cases h with
    | cons runs answered done rest =>
      obtain ⟨left, hleft⟩ := ih rest
      exact ⟨left, .cons runs answered (fun _ => done (by simp)) hleft⟩

/-- Of two elements of a list, one lies before the other, or they are one. -/
theorem cut_cases {α : Type} {as bs cs ds : List α} {a b : α} (h : as ++ a :: bs = cs ++ b :: ds) :
    (cs = as ∧ b = a ∧ ds = bs) ∨ (∃ mid, as = cs ++ b :: mid) ∨ ∃ mid, bs = mid ++ b :: ds := by
  rcases List.append_eq_append_iff.mp h with ⟨mid, rfl, hmid⟩ | ⟨mid, rfl, hmid⟩
  all_goals
    rcases List.cons_eq_append_iff.mp hmid with ⟨rfl, htail⟩ | ⟨mid, rfl, htail⟩
  · obtain ⟨rfl, rfl⟩ := List.cons.inj htail
    exact .inl ⟨List.append_nil _, rfl, rfl⟩
  · exact .inr (.inr ⟨mid, htail⟩)
  · obtain ⟨rfl, rfl⟩ := List.cons.inj htail
    exact .inl ⟨(List.append_nil _).symm, rfl, rfl⟩
  · exact .inr (.inl ⟨mid, rfl⟩)

/-- The exchange without what the client has done after some call, when it has sent nothing after it. -/
theorem Exchange.exists_cut {x : Exchange host host' fd sys conn s} {ops₁ ops₂ : List Errand} {o : Errand}
    {t₁ t₂ : List ClientEvent} (hx : x.errands = ops₁ ++ o :: ops₂) (ht : o.calls = t₁ ++ t₂) (hsaid : said t₂ = [])
    (hasked : askedBy ops₂ = []) :
    ∃ (y : Exchange host host' fd sys conn s) (left : ClientIo o.request.Result),
      y.errands = ops₁ ++ [⟨o.request, t₁, left⟩] ∧ y.passes = x.passes := by
  have hperformed := x.performed
  rw [hx] at hperformed
  obtain ⟨left, hcut⟩ := hperformed.cut ht
  have hasked' : askedBy (ops₁ ++ [⟨o.request, t₁, left⟩]) = askedBy x.errands := by
    have hbytes : said o.calls = said t₁ := by rw [ht, said_append, hsaid, List.append_nil]
    rw [hx, askedBy, askedBy, List.flatMap_append, List.flatMap_append, List.flatMap_cons, List.flatMap_cons, hbytes]
    exact congrArg _ (congrArg _ hasked.symm)
  have htaken : unmark (takenBy (ops₁ ++ [⟨o.request, t₁, left⟩])) <+: unmark (takenBy x.errands) := by
    refine List.IsPrefix.map _ ?_
    rw [hx, takenBy, takenBy, List.flatMap_append, List.flatMap_append, List.flatMap_cons, List.flatMap_cons, ht,
      Sock.heard_append, List.flatMap_nil, List.append_nil, List.append_assoc]
    exact (List.prefix_append_right_inj _).mpr (List.prefix_append _ _)
  exact ⟨⟨_, x.passes, hcut, x.served, hasked' ▸ x.up, htaken.trans x.down⟩, left, rfl, rfl⟩

end

abbrev wholeReply (bs : Bytes) : ReadReply bs.length := .got bs le_rfl

abbrev commandReply (c : CmdT) : ReadReply 2 := .got (htobe16 c) (htobe16_length c).le

abbrev fieldReply (k : UInt64) : ReadReply 8 := .got (htobe64 k) (htobe64_length k).le

abbrev storedFile : CString := ⟨[0x61], by decide⟩

/-- `writeFile` of three bytes to `/a`, as far as the bytes have been sent. -/
def writeSent : List ClientEvent :=
  [⟨.sys .lock, ()⟩,
    ⟨.sys .getSocket, (3 : Fd)⟩, ⟨.send .command 3 (htobe16 cmd.WRITE), .all _⟩,
    ⟨.sys .getSocket, (3 : Fd)⟩, ⟨.send .field 3 (htobe64 1), .all _⟩, ⟨.send .text 3 [0x61], .all _⟩,
    ⟨.sys .getSocket, (3 : Fd)⟩, ⟨.recv .field 3 8, fieldReply 0⟩,
    ⟨.sys .getSocket, (3 : Fd)⟩, ⟨.send .field 3 (htobe64 3), .all _⟩,
    ⟨.sys .getSocket, (3 : Fd)⟩, ⟨.send .field 3 (htobe64 0), .all _⟩,
    ⟨.sys .getSocket, (3 : Fd)⟩, ⟨.send .data 3 [7, 0, 2], .all _⟩, ⟨.sys .getSocket, (3 : Fd)⟩]

/-- A pass for this write, until one byte of the payload is in. -/
def writeTaken : List ServerEvent :=
  [⟨.recv .command 4 2, commandReply cmd.WRITE⟩,
    ⟨.recv .field 4 8, fieldReply 1⟩, ⟨.malloc 2, some (.zeros 2)⟩,
    ⟨.recv .text 4 1, wholeReply [0x61]⟩, ⟨.sys (.open [0x2F, 0x61] O_WRONLY), Except.ok 5⟩,
    ⟨.send .field 4 (htobe64 0), .all _⟩, ⟨.recv .field 4 8, fieldReply 3⟩,
    ⟨.recv .field 4 8, fieldReply 0⟩, ⟨.sys (.lseek 5 0), Except.ok ()⟩,
    ⟨.malloc 3, some (.zeros 3)⟩, ⟨.recv .data 4 3, .got [7] (Nat.le_add_left 1 2)⟩]

abbrev threeBytes : Buffer := ⟨[7, 0, 2], by decide⟩

def writing (answer : List ClientEvent) (res : AgsizeT × AgerrT) : Errand :=
  ⟨.writeFile storedFile 0 threeBytes, writeSent ++ answer ++ [⟨.sys .unlock, ()⟩], .ret res⟩

/-- A pass that goes on like this when the first byte of the payload is in. -/
def writingPass (rest : List ServerEvent) : Pass := ⟨writeTaken ++ rest, .ret (.inl (.serving rootServer))⟩

def writeAnswered : List ClientEvent :=
  [⟨.recv .field 3 8, fieldReply 2⟩, ⟨.sys .getSocket, (3 : Fd)⟩, ⟨.recv .field 3 8, fieldReply 3⟩]

/-- The rest of a pass for the write: the file takes the three bytes in two pieces. -/
def writeStored : List ServerEvent :=
  [⟨.sys (.write 5 [7]), .all 1⟩, ⟨.recv .data 4 2, wholeReply [0, 2]⟩, ⟨.sys (.write 5 [0, 2]), .all 2⟩,
    ⟨.sys (.close 5), ()⟩, ⟨.send .field 4 (htobe64 2), .all _⟩, ⟨.send .field 4 (htobe64 3), .all _⟩]

/-- A heartbeat that is answered. -/
def beatCalls : List ClientEvent :=
  [⟨.sys .lock, ()⟩, ⟨.sys .getSocket, (3 : Fd)⟩, ⟨.send .command 3 (htobe16 cmd.HEARTBEAT), .all _⟩,
    ⟨.sys .getSocket, (3 : Fd)⟩, ⟨.recv .command 3 2, commandReply cmd.HEARTBEAT⟩, ⟨.sys .unlock, ()⟩]

def beating : Errand := ⟨.heartbeat, beatCalls, .ret (0 : AgerrT)⟩

def beatingPass : Pass where
  calls := [⟨.recv .command 4 2, commandReply cmd.HEARTBEAT⟩, ⟨.send .command 4 (htobe16 cmd.HEARTBEAT), .all _⟩]
  left := .ret (.inl (.serving rootServer))

/-- `access` to `/a`, which the server does not know. -/
def accessing : Errand where
  request := .access storedFile F_OK
  calls := [⟨.sys .lock, ()⟩, ⟨.sys .getSocket, (3 : Fd)⟩, ⟨.send .command 3 (htobe16 cmd.ACCESS), .all _⟩,
    ⟨.sys .getSocket, (3 : Fd)⟩, ⟨.send .field 3 (htobe64 1), .all _⟩, ⟨.send .text 3 [0x61], .all _⟩,
    ⟨.sys .getSocket, (3 : Fd)⟩, ⟨.send .field 3 (htobe32 0), .all _⟩, ⟨.scratch 8, Block.zeros 8⟩,
    ⟨.sys .getSocket, (3 : Fd)⟩, ⟨.recv .field 3 8, fieldReply (-1 : AgerrT).toUInt64⟩, ⟨.sys .unlock, ()⟩]
  left := .ret (-1 : AgerrT)

def accessingPass : Pass where
  calls := [⟨.recv .command 4 2, commandReply cmd.ACCESS⟩, ⟨.recv .field 4 8, fieldReply 1⟩,
    ⟨.malloc 2, some (.zeros 2)⟩, ⟨.recv .text 4 1, wholeReply [0x61]⟩, ⟨.scratch 4, Block.zeros 4⟩,
    ⟨.recv .field 4 4, .got (htobe32 0) (by decide)⟩, ⟨.sys (.access [0x2F, 0x61] 0), .error .ENOENT⟩,
    ⟨.send .field 4 (htobe64 (-1 : AgerrT).toUInt64), .all _⟩]
  left := .ret (.inl (.serving rootServer))

def roomyDisk : Unit → (c : ServerCall) → Unit × ServerSys.Reply c
  | s, c => (s, ServerSys.roomy c)

theorem roomyDisk_steady {mountPoint : Str} {P : Request → Prop} : Steady roomyDisk mountPoint P where
  fileExists _ _ := ⟨false, rfl⟩
  isDirectory _ _ := ⟨false, rfl⟩
  entries _ _ t _ := ⟨_, t, rfl, rfl⟩
  write _ _ _ h _ _ hc := by
    cases hc
    exact List.length_pos_iff.mpr h

/-- Three bytes are written to `/a`, in two pieces; then come a heartbeat and `access`. -/
def twoPieces : Exchange .little .little 3 roomyDisk rootServer () where
  errands := [writing writeAnswered (3, 2), beating, accessing]
  passes := [writingPass writeStored, beatingPass, accessingPass]
  performed := by
    refine @Performed.cons _ _ 3 _ _ ?_ ?_ (fun _ => ⟨_, rfl⟩) (@Performed.cons _ _ 3 _ _ ?_ ?_ (fun _ => ⟨_, rfl⟩)
      (.cons ?_ ?_ (fun h => absurd rfl h) (.nil 3)))
    · repeat apply Runs.step
      exact .refl _
    · simp [writing, writeSent, writeAnswered, Answered, ClientSys.object]
    · repeat apply Runs.step
      exact .refl _
    · simp [beating, beatCalls, Answered, ClientSys.object]
    · repeat apply Runs.step
      exact .refl _
    · simp [accessing, Answered, ClientSys.object]
  served := by
    refine @Served.cons _ _ _ _ rootServer _ () _ _ ?_ ?_ (fun _ => rfl) (@Served.cons _ _ _ _ rootServer _ () _ _ ?_ ?_
      (fun _ => rfl) (.cons ?_ ?_ (fun h => absurd rfl h) (.nil rootServer ())))
    · repeat apply Runs.step
      exact .refl _
    · simp [writingPass, writeTaken, writeStored, Answered, roomyDisk, ServerSys.roomy]
    · repeat apply Runs.step
      exact .refl _
    · simp [beatingPass, Answered]
    · repeat apply Runs.step
      exact .refl _
    · simp [accessingPass, Answered, roomyDisk, ServerSys.roomy, ServerSys.silent]
  up := by decide
  down := by decide

theorem storedFile_addressable : Addressable storedFile.1 := show [(0x61 : UInt8)].length < 2 ^ 63 by decide

theorem twoPieces_held : ∀ o ∈ twoPieces.errands, o.request.Held :=
  List.forall_mem_cons.mpr ⟨storedFile_addressable, List.forall_mem_cons.mpr ⟨trivial,
    List.forall_mem_singleton.mpr storedFile_addressable⟩⟩

theorem writing_flows : ∀ ev ∈ (writing writeAnswered (3, 2)).calls,
    Flows (fun m => m = Kind.data → True) (fun m => m = Kind.data → False) ev := by
  simp [writing, writeSent, writeAnswered]
  decide

theorem beating_flows : ∀ ev ∈ beating.calls,
    Flows (fun m => m = Kind.data → True) (fun m => m = Kind.data → False) ev := by
  simp [beating, beatCalls]
  decide

theorem accessing_flows : ∀ ev ∈ accessing.calls,
    Flows (fun m => m = Kind.data → True) (fun m => m = Kind.data → False) ev := by
  simp [accessing]
  decide

theorem writingPass_flows : ∀ ev ∈ (writingPass writeStored).calls,
    Flows (fun m => m = Kind.data → False) (fun m => m = Kind.data → True) ev := by
  simp [writingPass, writeTaken, writeStored]
  decide

theorem beatingPass_flows : ∀ ev ∈ beatingPass.calls,
    Flows (fun m => m = Kind.data → False) (fun m => m = Kind.data → True) ev := by
  simp [beatingPass]
  decide

theorem accessingPass_flows : ∀ ev ∈ accessingPass.calls,
    Flows (fun m => m = Kind.data → False) (fun m => m = Kind.data → True) ev := by
  simp [accessingPass]
  decide

theorem twoPieces_unbroken : twoPieces.Unbroken where
  client := List.forall_mem_cons.mpr ⟨writing_flows, List.forall_mem_cons.mpr ⟨beating_flows,
    List.forall_mem_singleton.mpr accessing_flows⟩⟩
  server := List.forall_mem_cons.mpr ⟨.inr writingPass_flows, List.forall_mem_cons.mpr ⟨.inr beatingPass_flows,
    List.forall_mem_singleton.mpr (.inr accessingPass_flows)⟩⟩
  stores := List.forall_mem_cons.mpr ⟨.of_stored (by decide), List.forall_mem_cons.mpr ⟨.of_stored (by decide),
    List.forall_mem_singleton.mpr (.of_stored (by decide))⟩⟩

end AgFS
