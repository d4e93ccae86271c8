import AgFS.Admission.Admission
import AgFS.Basis.Pieces
import AgFS.Resources.Descriptors
import AgFS.Session.Serving

/-! The payload of a write on its way from the socket to the file. -/
namespace AgFS
open Interaction Contents Sock

/-- How many bytes a write has stored. -/
def storedCount {n : Nat} : WriteReply n → Nat
  | .fail _ => 0
  | .wrote count _ => count

/-- What each write to a file was given, and how much of it the file has taken. -/
def fileWrites (t : List ServerEvent) : List (Bytes × Nat) :=
  t.filterMap fun
    | ⟨.sys (.write _ bs), r⟩ => some (bs, storedCount (n := bs.length) r)
    | _ => none

def payloadHeard (t : List ServerEvent) : Bytes := only .data (heard t)

def fieldsSaid (t : List ServerEvent) : List Bytes :=
  t.filterMap fun
    | ⟨.send .field _ bs, _⟩ => some bs
    | _ => none

def ReadFails (t : List ServerEvent) : Prop :=
  ∃ fd n err, (⟨.recv .data fd n, .fail err⟩ : ServerEvent) ∈ t

/-- One round of the loop of `processWrite`, of which `left` bytes are to come. -/
inductive StoreRound (socket fd : Fd) (fuel left : Nat) (total : AgsizeT) :
    List ServerEvent → ClientConnection.Stored → Prop
  | fails (e : Errno) :
    StoreRound socket fd fuel left total [⟨.recv .data socket left, .fail e⟩] (.ended (-1) total)
  | ends (h : [].length ≤ left) :
    StoreRound socket fd fuel left total [⟨.recv .data socket left, .got [] h⟩] (.ended 0 total)
  | refuses {chunk : Bytes} {hchunk : chunk.length ≤ left} {r : WriteReply chunk.length}
      {rest : List ServerEvent} {err : AgerrT} (hne : chunk ≠ []) (hr : storedCount r = 0)
      (hrest : ∀ ev ∈ rest, ev.call = .sys .errno) :
    StoreRound socket fd fuel left total
      (⟨.recv .data socket left, .got chunk hchunk⟩ :: ⟨.sys (.write fd chunk), r⟩ :: rest) (.refused err)
  | stores {chunk : Bytes} {hchunk : chunk.length ≤ left} {count : Nat} {hcount : count ≤ chunk.length}
      {rest : List ServerEvent} {stored : ClientConnection.Stored} (hne : chunk ≠ []) (hpos : count ≠ 0)
      (hrest : Runs (ClientConnection.storeLoop socket fd fuel (left - chunk.length) (Int64.ofNat count)
        (total + UInt64.ofNat count)) rest (.ret stored)) :
    StoreRound socket fd fuel left total
      (⟨.recv .data socket left, .got chunk hchunk⟩ ::
        ⟨.sys (.write fd chunk), WriteReply.wrote count hcount⟩ :: rest) stored

/-- What the loop has done when it ends. -/
structure Storing (left : Nat) (total : AgsizeT) (t : List ServerEvent)
    (stored : ClientConnection.Stored) : Prop where
  said : fieldsSaid t = []
  payload : payloadHeard t = (fileWrites t).flatMap Prod.fst
  short : (payloadHeard t).length ≤ left
  count {e : AgerrT} {n : AgsizeT} : stored = .ended e n →
    n = total + UInt64.ofNat (keptLength (fileWrites t))
  error {e : AgerrT} {n : AgsizeT} : stored = .ended e n → (0 ≤ e ↔ ¬ ReadFails t)

section Traces
variable {t u : List ServerEvent} {fd : Fd} {n : Nat}

theorem fileWrites_append (t u : List ServerEvent) :
    fileWrites (t ++ u) = fileWrites t ++ fileWrites u := List.filterMap_append

theorem payloadHeard_append (t u : List ServerEvent) :
    payloadHeard (t ++ u) = payloadHeard t ++ payloadHeard u := by
  rw [payloadHeard, heard_append, only_append]
  rfl

theorem payloadHeard_recv (r : ReadReply n) :
    payloadHeard (⟨.recv .data fd n, r⟩ :: t) = r.bytes ++ payloadHeard t := by
  rw [payloadHeard, heard, only_append, only_mark, if_pos rfl]
  rfl

theorem fileWrites_kept (t : List ServerEvent) : ∀ w ∈ fileWrites t, w.2 ≤ w.1.length := by
  intro w hw
  obtain ⟨ev, -, hev⟩ := List.mem_filterMap.mp hw
  obtain ⟨call, r⟩ := ev
  cases call with
  | sys c =>
    cases c with
    | write fd bs =>
      cases hev
      cases r with
      | fail err => exact Nat.zero_le _
      | wrote count hcount => exact hcount
    | _ => cases hev
  | _ => cases hev

theorem readFails_append : ReadFails (t ++ u) ↔ ReadFails t ∨ ReadFails u := by
  simp only [ReadFails, List.mem_append, exists_or]

private theorem not_readFails_nil : ¬ ReadFails [] := by
  rintro ⟨_, _, _, h⟩
  cases h

theorem readFails_cons {ev : ServerEvent} (h : ∀ fd n err, ev ≠ ⟨.recv .data fd n, .fail err⟩) :
    ReadFails (ev :: t) ↔ ReadFails t := by
  constructor
  · rintro ⟨fd, n, err, hmem⟩
    exact ⟨fd, n, err, (List.mem_cons.mp hmem).resolve_left fun heq => h fd n err heq.symm⟩
  · rintro ⟨fd, n, err, hmem⟩
    exact ⟨fd, n, err, List.mem_cons_of_mem _ hmem⟩

end Traces

section Loop
variable {socket fd : Fd} {fuel left : Nat} {err : AgerrT} {total : AgsizeT} {t : List ServerEvent}
  {stored : ClientConnection.Stored}

private theorem storeLoop_round
    (h : Runs (ClientConnection.storeLoop socket fd (fuel + 1) left err total) t (.ret stored))
    (hleft : left ≠ 0) : StoreRound socket fd fuel left total t stored := by
  rw [ClientConnection.storeLoop, if_neg hleft] at h
  obtain ⟨r, u, rfl, h₁⟩ := Sock.runs_recv.mp h
  cases r with
  | fail e =>
    obtain ⟨rfl, hret⟩ := Runs.ret_iff.mp h₁
    cases hret
    exact .fails e
  | got chunk hchunk =>
    dsimp only at h₁
    by_cases hne : chunk = []
    · subst hne
      obtain ⟨rfl, hret⟩ := Runs.ret_iff.mp h₁
      cases hret
      exact .ends hchunk
    rw [if_neg hne] at h₁
    obtain ⟨r, v, rfl, h₂⟩ := Sock.runs_sys.mp h₁
    cases r with
    | fail e =>
      obtain ⟨rfl, hret⟩ := Runs.ret_iff.mp h₂
      cases hret
      exact .refuses hne rfl (List.forall_mem_nil _)
    | wrote count hcount =>
      dsimp only at h₂
      by_cases hzero : count = 0
      · rw [if_pos hzero] at h₂
        obtain ⟨t₁, t₂, e, rfl, hstale, h₃⟩ := Runs.bind_ret_iff.mp h₂
        obtain ⟨rfl, hret⟩ := Runs.ret_iff.mp h₃
        cases hret
        obtain ⟨r, w, rfl, h₄⟩ := Sock.runs_sys.mp hstale
        have hw : w = [] := by cases r <;> exact (Runs.ret_iff.mp h₄).1
        refine .refuses hne hzero fun ev hev => ?_
        rw [List.append_nil, hw] at hev
        rw [List.mem_singleton.mp hev]
      · rw [if_neg hzero] at h₂
        exact .stores hne hzero h₂

private theorem storing_ended (left : Nat) (herr : 0 ≤ err) : Storing left total [] (.ended err total) where
  said := rfl
  payload := rfl
  short := Nat.zero_le _
  count h := by
    cases h
    exact (UInt64.add_zero total).symm
  error h := by
    cases h
    exact iff_of_true herr not_readFails_nil

theorem Storing.stores {chunk : Bytes} {hchunk : chunk.length ≤ left} {count : Nat}
    {hcount : count ≤ chunk.length}
    (h : Storing (left - chunk.length) (total + UInt64.ofNat count) t stored) :
    Storing left total (⟨.recv .data socket left, .got chunk hchunk⟩ ::
      ⟨.sys (.write fd chunk), WriteReply.wrote count hcount⟩ :: t) stored where
  said := h.said
  payload := by
    rw [payloadHeard_recv]
    exact congrArg (chunk ++ ·) h.payload
  short := by
    have hshort := h.short
    rw [payloadHeard_recv, List.length_append]
    change chunk.length + (payloadHeard t).length ≤ left
    omega
  count hended := by
    rw [h.count hended, UInt64.add_assoc, ← UInt64.ofNat_add]
    rfl
  error hended := by
    rw [h.error hended, readFails_cons, readFails_cons]
    · rintro _ _ _ ⟨⟩
    · rintro _ _ _ ⟨⟩

private theorem storing_refused {chunk : Bytes} {hchunk : chunk.length ≤ left} {r : WriteReply chunk.length}
    {rest : List ServerEvent} (hrest : ∀ ev ∈ rest, ev.call = .sys .errno) :
    Storing left total (⟨.recv .data socket left, .got chunk hchunk⟩ ::
      ⟨.sys (.write fd chunk), r⟩ :: rest) (.refused err) := by
  have hsilent : fileWrites rest = [] ∧ payloadHeard rest = [] ∧ fieldsSaid rest = [] := by
    induction rest with
    | nil => exact ⟨rfl, rfl, rfl⟩
    | cons ev rest ih =>
      obtain ⟨hev, htail⟩ := List.forall_mem_cons.mp hrest
      obtain ⟨call, r⟩ := ev
      obtain rfl : call = .sys .errno := hev
      exact ih htail
  have hpayload : payloadHeard (⟨.recv .data socket left, .got chunk hchunk⟩ ::
      ⟨.sys (.write fd chunk), r⟩ :: rest) = chunk := by
    rw [payloadHeard_recv]
    change chunk ++ payloadHeard rest = chunk
    rw [hsilent.2.1, List.append_nil]
  refine ⟨hsilent.2.2, ?_, ?_, ?_, ?_⟩
  · rw [hpayload]
    change chunk = chunk ++ (fileWrites rest).flatMap Prod.fst
    rw [hsilent.1, List.flatMap_nil, List.append_nil]
  · rw [hpayload]
    exact hchunk
  · rintro _ _ ⟨⟩
  · rintro _ _ ⟨⟩

theorem storeLoop_storing
    (h : Runs (ClientConnection.storeLoop socket fd fuel left err total) t (.ret stored))
    (hlong : left < 2 ^ 63) (herr : 0 ≤ err) : Storing left total t stored := by
  induction fuel generalizing left err total t with
  | zero =>
    obtain ⟨rfl, hret⟩ := Runs.ret_iff.mp h
    cases hret
    exact storing_ended left herr
  | succ fuel ih =>
    by_cases hleft : left = 0
    · subst hleft
      obtain ⟨rfl, hret⟩ := Runs.ret_iff.mp h
      cases hret
      exact storing_ended 0 herr
    cases storeLoop_round h hleft with
    | fails e =>
      refine ⟨rfl, rfl, Nat.zero_le _, ?_, ?_⟩
      · rintro _ _ ⟨⟩
        exact (UInt64.add_zero total).symm
      · rintro _ _ ⟨⟩
        exact iff_of_false (by decide) (not_not_intro ⟨_, _, e, List.mem_singleton_self _⟩)
    | ends hnil =>
      refine ⟨rfl, rfl, Nat.zero_le _, ?_, ?_⟩
      · rintro _ _ ⟨⟩
        exact (UInt64.add_zero total).symm
      · rintro _ _ ⟨⟩
        refine iff_of_true (by decide) ?_
        rw [readFails_cons (by rintro _ _ _ ⟨⟩)]
        exact not_readFails_nil
    | refuses _ _ hrest => exact storing_refused hrest
    | @stores chunk hchunk count hcount _ _ _ _ hrest =>
      have hlast : 0 ≤ Int64.ofNat count := int64_ofNat_nonneg (by omega)
      exact (ih hrest (by omega) hlast).stores

end Loop
end AgFS
