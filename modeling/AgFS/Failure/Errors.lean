import AgFS.Failure.Excess
import AgFS.Failure.Refusals

/-! Whether the error of a system call on the server is the one that the client returns. -/
namespace AgFS
open Interaction ByteOrder Sock

/-- What the transport does for an operation: every read of a field delivers all its bytes, and
no write of file data fails. -/
structure Transfers (t : List ClientEvent) : Prop where
  whole : ∀ fd n r, (⟨.recv .field fd n, r⟩ : ClientEvent) ∈ t → (ReadReply.bytes r).length = n
  written : none ∉ dataSent t

/-- A connection between an operation and its handler that loses nothing: the client hears what
the server has said. -/
structure Reliable (t : List ClientEvent) (t' : List ServerEvent) : Prop extends Transfers t where
  heard : unmark (heard t) <+: saidBytes t'

/-- A program of the client that has returned a result with the given error. -/
def Request.Fails (r : Request) (q : ClientIo r.Result) (err : AgerrT) : Prop :=
  ∃ res, q = .ret res ∧ r.error res = err

private theorem errorBytes_length (err : AgerrT) : (errorBytes err).length = 8 := htobe64_length _

private theorem errorBytes_inj {err err' : AgerrT} (h : errorBytes err = errorBytes err') : err = err' := by
  have hsame := congrArg be64toh h
  rw [errorBytes, errorBytes, be64toh_htobe64, be64toh_htobe64] at hsame
  exact congrArg UInt64.toInt64 hsame

theorem errorBytes_prefix {err err' : AgerrT} {bs bs' : Bytes}
    (h : errorBytes err ++ bs <+: errorBytes err' ++ bs') : err = err' ∧ bs <+: bs' := by
  obtain ⟨rest, hrest⟩ := h
  rw [List.append_assoc] at hrest
  obtain ⟨herr, hbs⟩ := List.append_inj hrest ((errorBytes_length err).trans (errorBytes_length err').symm)
  exact ⟨errorBytes_inj herr, rest, hbs⟩

section Client
variable {host : Endian} {t u : List ClientEvent} {α β : Type}

theorem unmark_heard (t : List ClientEvent) : unmark (heard t) = (replies t).flatMap fun a => a.2.getD [] := by
  induction t with
  | nil => rfl
  | cons ev t ih =>
    obtain ⟨call, r⟩ := ev
    cases call with
    | recv m fd n =>
      rw [replies_recv, List.flatMap_cons, answerOf_getD, ← ih]
      exact (unmark_append _ _).trans (congrArg (· ++ _) (unmark_mark _ _))
    | _ => exact ih

private theorem Transfers.rest (h : Transfers t) (hsub : u ⊆ t) (hsent : dataSent t = dataSent u) : Transfers u :=
  ⟨fun fd n r hmem => h.whole fd n r (hsub hmem), hsent ▸ h.written⟩

private theorem SameAnswers.heard (h : SameAnswers t u) : unmark (Sock.heard t) = unmark (Sock.heard u) := by
  rw [unmark_heard, unmark_heard, h.replies]

private theorem SameAnswers.transfers (h : SameAnswers t u) (ht : Transfers t) : Transfers u := ht.rest h.subset h.sent

theorem hears_error {old err : AgerrT} {bs : Bytes} {f : Int32 × AgerrT → ClientIo β} {q : ClientIo β}
    (h : Runs (ServerConnection.socket_ >>= fun fd => agfsReadError host fd old >>= f) t q) (hq : Finished q)
    (ht : Transfers t) (hheard : unmark (heard t) <+: errorBytes err ++ bs) :
    ∃ n u, Transfers u ∧ unmark (heard u) <+: bs ∧ Runs (f (n, err)) u q := by
  obtain ⟨r, u, hread, hrest⟩ := pass_readError h hq
  obtain ⟨fd, hmem⟩ := hread.mem
  have hwhole : r.bytes.length = 8 := ht.whole fd 8 r hmem
  have hfield : overlay (host.store 8 old.toUInt64.toNat) r.bytes = r.bytes :=
    overlay_full ((host.store_length 8 _).trans hwhole.symm).le
  have htold : r.bytes = errorBytes (be64toh r.bytes).toInt64 := by
    rw [errorBytes, UInt64.toUInt64_toInt64, htobe64_be64toh hwhole]
  rw [unmark_heard, hread.replies, List.flatMap_cons, ← unmark_heard, answerOf_getD, htold] at hheard
  obtain ⟨rfl, hbs⟩ := errorBytes_prefix hheard
  rw [fieldOf, answerOf_getD, hfield] at hrest
  exact ⟨r.int, u, ht.rest hread.subset hread.sent, hbs, hrest⟩

theorem sends_buffer {buf : Buffer} {err : AgerrT} {f : AgsizeT × Except Errno AgerrT → ClientIo β} {q : ClientIo β}
    (h : Runs (ServerConnection.sendBuffer buf.bytes.length buf.bytes 0 err >>= f) t q) (hq : Finished q)
    (ht : Transfers t) :
    ∃ total last u, unmark (heard t) = unmark (heard u) ∧ Transfers u ∧ Runs (f (total, .ok last)) u q := by
  obtain ⟨t₁, u, ⟨total, result⟩, rfl, hloop, hrest⟩ :=
    finished_rest (fun _ => id) (steadfast_sendBuffer _ _ _ _) h hq
  have hsent : dataSent (t₁ ++ u) = dataSent t₁ ++ dataSent u := List.filterMap_append
  have hwritten := ht.written
  rw [hsent, List.mem_append, not_or] at hwritten
  cases result with
  | error e => exact absurd (sendBuffer_sent hloop).2 hwritten.1
  | ok last =>
    refine ⟨total, last, u, ?_, ⟨fun fd n r hmem => ht.whole fd n r (List.mem_append_right _ hmem), hwritten.2⟩, hrest⟩
    rw [unmark_heard, replies_append, (sendBuffer_total hloop).1, List.nil_append, ← unmark_heard]

end Client

section Operations
variable {host : Endian} {t : List ClientEvent} {err : AgerrT} {bs : Bytes}

/-! An operation that first hears a negative error fails with it. -/

private theorem getattr_fails {path : CString} {q : ClientIo (Stat × AgerrT)}
    (h : Runs (ServerConnection.getattr host path) t q) (hq : Finished q) (ht : Transfers t) (herr : err < 0)
    (hheard : unmark (heard t) <+: errorBytes err ++ bs) : (Request.getattr path).Fails q err := by
  obtain ⟨u, hu, h₁⟩ := pass_request h hq
  rw [hu.heard] at hheard
  obtain ⟨n, v, -, -, h₂⟩ := hears_error h₁ hq (hu.transfers ht) hheard
  change Runs (if 0 ≤ err then _ else _) v q at h₂
  rw [if_neg (Int64.not_le.mpr herr)] at h₂
  obtain ⟨-, rfl⟩ := Runs.ret_iff.mp h₂
  exact ⟨_, rfl, rfl⟩

private theorem readdir_fails {path : CString} {q : ClientIo (List (Str × Stat) × AgerrT)}
    (h : Runs (ServerConnection.readdir host path) t q) (hq : Finished q) (ht : Transfers t) (herr : err < 0)
    (hheard : unmark (heard t) <+: errorBytes err ++ bs) : (Request.readdir path).Fails q err := by
  obtain ⟨u, hu, h₁⟩ := pass_request h hq
  rw [hu.heard] at hheard
  obtain ⟨n, v, -, -, h₂⟩ := hears_error h₁ hq (hu.transfers ht) hheard
  change Runs (if 0 ≤ err then _ else _) v q at h₂
  rw [if_neg (Int64.not_le.mpr herr)] at h₂
  obtain ⟨-, rfl⟩ := Runs.ret_iff.mp h₂
  exact ⟨_, rfl, rfl⟩

private theorem unanswered_writeMask (fd : Fd) (m : AgmaskT) : (agfsWriteMask fd m : ClientIo _).Only Unanswered :=
  ⟨trivial, fun _ => trivial⟩

private theorem open_fails {path : CString} {flags : AgmaskT} {q : ClientIo AgerrT}
    (h : Runs (ServerConnection.open host path flags) t q) (hq : Finished q) (ht : Transfers t)
    (hheard : unmark (heard t) <+: errorBytes err ++ bs) : (Request.open path flags).Fails q err := by
  obtain ⟨u, hu, h₁⟩ := pass_request h hq
  obtain ⟨_, v, hv, h₂⟩ := pass_send (fun fd => unanswered_writeMask fd flags) h₁ hq
  have hw := hu.trans hv
  rw [hw.heard] at hheard
  obtain ⟨n, w, -, -, h₃⟩ := hears_error h₂ hq (hw.transfers ht) hheard
  obtain ⟨-, rfl⟩ := Runs.ret_iff.mp h₃
  exact ⟨_, rfl, rfl⟩

private theorem access_fails {path : CString} {mask : AgmaskT} {q : ClientIo AgerrT}
    (h : Runs (ServerConnection.access host path mask) t q) (hq : Finished q) (ht : Transfers t)
    (hheard : unmark (heard t) <+: errorBytes err ++ bs) : (Request.access path mask).Fails q err := by
  obtain ⟨u, hu, h₁⟩ := pass_request h hq
  obtain ⟨_, v, hv, h₂⟩ := pass_send (fun fd => unanswered_writeMask fd mask) h₁ hq
  have hscratch : (scratch 8 : ClientIo _).Only Unanswered := ⟨trivial, fun _ => trivial⟩
  obtain ⟨block, w, hw, h₃⟩ := pass hscratch h₂ hq
  have hx := hu.trans (hv.trans hw)
  rw [hx.heard] at hheard
  obtain ⟨n, x, -, -, h₄⟩ := hears_error h₃ hq (hx.transfers ht) hheard
  obtain ⟨-, rfl⟩ := Runs.ret_iff.mp h₄
  exact ⟨_, rfl, rfl⟩

private theorem readFile_fails {path : CString} {size offset : AgsizeT} {q : ClientIo (Bytes × AgerrT)}
    (h : Runs (ServerConnection.readFile host path size offset) t q) (hq : Finished q) (ht : Transfers t)
    (herr : err < 0) (hheard : unmark (heard t) <+: errorBytes err ++ bs) :
    (Request.readFile path size offset).Fails q err := by
  obtain ⟨u, hu, h₁⟩ := pass_request h hq
  obtain ⟨_, v, hv, h₂⟩ := pass_send (fun fd => unanswered_writeSize fd size) h₁ hq
  obtain ⟨_, w, hw, h₃⟩ := pass_send (fun fd => unanswered_writeSize fd offset) h₂ hq
  have hx := hu.trans (hv.trans hw)
  rw [hx.heard] at hheard
  obtain ⟨n, x, -, -, h₄⟩ := hears_error h₃ hq (hx.transfers ht) hheard
  change Runs (if 0 ≤ err then _ else _) x q at h₄
  rw [if_neg (Int64.not_le.mpr herr)] at h₄
  obtain ⟨-, rfl⟩ := Runs.ret_iff.mp h₄
  exact ⟨_, rfl, rfl⟩

private theorem writeFile_fails {path : CString} {offset : AgsizeT} {buf : Buffer} {q : ClientIo (AgsizeT × AgerrT)}
    (h : Runs (ServerConnection.writeFile host path offset buf) t q) (hq : Finished q) (ht : Transfers t)
    (herr : err < 0)
    (hheard : unmark (heard t) <+: errorBytes err ∨ unmark (heard t) <+: errorBytes 0 ++ errorBytes err) :
    (Request.writeFile path offset buf).Fails q err := by
  obtain ⟨u, hu, h₁⟩ := pass_request h hq
  rw [hu.heard] at hheard
  obtain hheard | hheard := hheard
  · rw [← List.append_nil (errorBytes err)] at hheard
    obtain ⟨n, v, -, -, h₂⟩ := hears_error h₁ hq (hu.transfers ht) hheard
    change Runs (if err < 0 then _ else _) v q at h₂
    rw [if_pos herr] at h₂
    obtain ⟨-, rfl⟩ := Runs.ret_iff.mp h₂
    exact ⟨_, rfl, rfl⟩
  · -- the file has been opened, and what fails is a write of the data
    obtain ⟨n, v, hv, hrest, h₂⟩ := hears_error h₁ hq (hu.transfers ht) hheard
    obtain ⟨_, w₁, hw₁, h₃⟩ := pass_send (fun fd => unanswered_writeSize fd buf.size) h₂ hq
    obtain ⟨_, w₂, hw₂, h₄⟩ := pass_send (fun fd => unanswered_writeSize fd offset) h₃ hq
    have hw := hw₁.trans hw₂
    obtain ⟨total, last, x, hx, hxt, h₅⟩ := sends_buffer h₄ hq (hw.transfers hv)
    rw [hw.heard, hx, ← List.append_nil (errorBytes err)] at hrest
    obtain ⟨n', y, -, -, h₆⟩ := hears_error h₅ hq hxt hrest
    change Runs (if 0 ≤ err then _ else _) y q at h₆
    rw [if_neg (Int64.not_le.mpr herr)] at h₆
    obtain ⟨-, rfl⟩ := Runs.ret_iff.mp h₆
    exact ⟨_, rfl, rfl⟩

private theorem perform_fails {r : Request} {q : ClientIo r.Result} {t' : List ServerEvent} (hr : r ≠ .heartbeat)
    (h : Runs (r.perform host) t q) (hq : Finished q) (hreliable : Reliable t t') (herr : err < 0)
    (hword : r.Says (saidBytes t') err) : r.Fails q err := by
  have ht := hreliable.toTransfers
  have hheard := hreliable.heard
  obtain hsaid | ⟨path, offset, buf, rfl, hsaid⟩ := hword
  · rw [hsaid] at hheard
    rw [← List.append_nil (errorBytes err)] at hheard
    cases r with
    | heartbeat => exact absurd rfl hr
    | getattr path => exact getattr_fails h hq ht herr hheard
    | access path mask => exact access_fails h hq ht hheard
    | readdir path => exact readdir_fails h hq ht herr hheard
    | readFile path size offset => exact readFile_fails h hq ht herr hheard
    | writeFile path offset buf => exact writeFile_fails h hq ht herr (.inl (by rwa [List.append_nil] at hheard))
    | «open» path flags => exact open_fails h hq ht hheard
  · rw [hsaid] at hheard
    exact writeFile_fails h hq ht herr (.inr hheard)

end Operations

/-- The error of a system call that decides about a request is the one that the operation
fails with. -/
def ErrorKept (r : Request) (q : ClientIo r.Result) (e : Errno) : Prop := r.Fails q e.neg

/-- In every run of an operation and its handler over a connection that loses nothing, the client returns
the error of the call that has failed exactly when the handler sends it. -/
theorem errorKept_iff {host host' : Endian} {self : ClientConnection} {r : Request} {t : List ClientEvent}
    {t' : List ServerEvent} {q : ClientIo r.Result} {e : Errno} (hr : Runs (r.perform host) t q) (hq : Finished q)
    (hh : Runs (r.handler host' self) t' (.ret ())) (hreliable : Reliable t t')
    (hfail : r.Refused (systemCalls t') e) : ErrorKept r q e ↔ r.Tells (systemCalls t') e := by
  obtain ⟨err, hneg, hword, htells⟩ := handler_told hh hfail
  have hheartbeat : r ≠ .heartbeat := by
    rintro rfl
    exact hfail
  obtain ⟨res, rfl, herr⟩ := perform_fails hheartbeat hr hq hreliable hneg hword
  rw [← htells]
  constructor
  · rintro ⟨res', hres, herr'⟩
    cases hres
    exact herr.symm.trans herr'
  · rintro rfl
    exact ⟨res, rfl, herr⟩

def refusedAccess : List ClientEvent :=
  [⟨.sys .lock, ()⟩,
    ⟨.sys .getSocket, (3 : Fd)⟩, ⟨.send .command 3 (htobe16 cmd.ACCESS), .all _⟩,
    ⟨.sys .getSocket, (3 : Fd)⟩, ⟨.send .field 3 (htobe64 1), .all _⟩, ⟨.send .text 3 [0x2F], .all _⟩,
    ⟨.sys .getSocket, (3 : Fd)⟩, ⟨.send .field 3 (htobe32 0), .all _⟩,
    ⟨.scratch 8, Block.zeros 8⟩, ⟨.sys .getSocket, (3 : Fd)⟩,
    ⟨.recv .field 3 8, .got (errorBytes (-1)) (Nat.le_refl _)⟩, ⟨.sys .unlock, ()⟩]

/-- The handler, where the mount `/s` has vanished. -/
def refusingAccess : List ServerEvent :=
  [⟨.recv .field 4 8, .got (htobe64 1) (Nat.le_refl _)⟩, ⟨.malloc 2, some (.zeros 2)⟩,
    ⟨.recv .text 4 1, .got [0x2F] (Nat.le_refl _)⟩,
    ⟨.scratch 4, Block.zeros 4⟩, ⟨.recv .field 4 4, .got (htobe32 0) (Nat.le_refl _)⟩,
    ⟨.sys (.access [0x2F, 0x73, 0x2F] 0), .error .ENOENT⟩, ⟨.send .field 4 (errorBytes (-1)), .all _⟩]

private theorem runs_refusedAccess :
    Runs ((Request.access root 0).perform .little) refusedAccess (.ret (-1 : AgerrT)) := by
  repeat apply Runs.step
  exact .refl _

private theorem runs_refusingAccess :
    Runs ((Request.access root 0).handler .little ⟨[0x2F, 0x73], 4, 0⟩) refusingAccess (.ret ()) := by
  repeat apply Runs.step
  exact .refl _

private theorem reliable_refusedAccess : Reliable refusedAccess refusingAccess where
  whole := by
    intro fd n r hmem
    obtain ⟨⟨rfl, rfl⟩, hr⟩ : (fd = 3 ∧ n = 8) ∧ HEq r (ReadReply.got (n := 8) (errorBytes (-1)) (Nat.le_refl _)) := by
      simpa [refusedAccess] using hmem
    cases hr
    rfl
  written := by decide
  heard := List.prefix_rfl

private theorem refused_refusingAccess : (Request.access root 0).Refused (systemCalls refusingAccess) .ENOENT :=
  ⟨_, _, List.mem_cons_self⟩

theorem errorKept_iff_access :
    ErrorKept (.access root 0) (.ret (-1 : AgerrT)) .ENOENT ↔
      (Request.access root 0).Tells (systemCalls refusingAccess) .ENOENT :=
  errorKept_iff runs_refusedAccess (.inl ⟨_, rfl⟩) runs_refusingAccess reliable_refusedAccess refused_refusingAccess

theorem not_errorKept_access :
    Runs ((Request.access root 0).perform .little) refusedAccess (.ret (-1 : AgerrT)) ∧
      Runs ((Request.access root 0).handler .little ⟨[0x2F, 0x73], 4, 0⟩) refusingAccess (.ret ()) ∧
      Reliable refusedAccess refusingAccess ∧
      (Request.access root 0).Refused (systemCalls refusingAccess) .ENOENT ∧
      ¬ ErrorKept (.access root 0) (.ret (-1 : AgerrT)) .ENOENT := by
  refine ⟨runs_refusedAccess, runs_refusingAccess, reliable_refusedAccess, refused_refusingAccess, ?_⟩
  rintro ⟨res, hres, herr⟩
  cases hres
  exact absurd herr (by decide)

end AgFS
