import AgFS.Model.Agfsio

/-! The buffer of a string that is received, for every length it may be announced with. -/
namespace AgFS
open Interaction ByteOrder

variable {L : Signature} {host : Endian} {fd : Fd} {str : Str}

/-- The length that is read when the read of its field is answered so. -/
def announced (host : Endian) (r : ReadReply 8) : AgsizeT :=
  be64toh (overlay (host.store 8 0) r.bytes)

/-- Where a call has asked for memory it was given some, more bytes than the index of the
terminator and than what the next read may store, or it returns an error. In no case does it
store anything outside. -/
def BufferSafe (L : Signature) (host : Endian) (fd : Fd) (str : Str) (r : ReadReply 8)
    (grants : Nat → Bool) : Prop :=
  ∀ t q, Runs (agfsReadString host fd str : Io L _) (⟨.recv .field fd 8, r⟩ :: t) q →
    (∀ n block, ⟨.malloc n, block⟩ ∈ t → Option.isSome block = grants n) →
    (∀ n block, ⟨.malloc n, block⟩ ∈ t →
      (Option.isSome block ∧ (announced host r).toNat < n ∧
        ∀ count reply, ⟨.recv .text fd count, reply⟩ ∈ t → count < n) ∨
      ∃ err, err < 0 ∧ q = .ret (err, str)) ∧
    ∀ k, q ≠ .call (.abort .undefinedBehaviour) k

theorem succ_toNat_le_iff (n : AgsizeT) : (n + 1).toNat ≤ n.toNat ↔ n = 0xFFFFFFFFFFFFFFFF := by
  have hlt := n.toNat_lt
  rw [UInt64.toNat_add, ← UInt64.toNat_inj]
  change (n.toNat + 1) % 2 ^ 64 ≤ n.toNat ↔ n.toNat = 18446744073709551615
  omega

theorem announced_cases {r : ReadReply 8} {t : List (Event (Sock Kind L))} {q : Io L (Int32 × Str)}
    (h : Runs (agfsReadString host fd str : Io L _) (⟨.recv .field fd 8, r⟩ :: t) q) :
    (r.int < 0 ∧ t = [] ∧ q = .ret (r.int, str)) ∨
      (¬ r.int < 0 ∧ t = [] ∧ ∃ k, q = .call (.malloc (announced host r + 1).toNat) k) ∨
      (¬ r.int < 0 ∧ t = [⟨.malloc (announced host r + 1).toNat, none⟩] ∧
        q = Sock.abort .undefinedBehaviour) ∨
      (¬ r.int < 0 ∧ ∃ block u, t = ⟨.malloc (announced host r + 1).toNat, some block⟩ :: u ∧
        ((u = [] ∧ ∃ k, q = .call (.recv .text fd (announced host r).toNat) k) ∨
          ∃ reply, u = [⟨.recv .text fd (announced host r).toNat, reply⟩] ∧
            if block.1.length ≤ (announced host r).toNat then q = Sock.abort .undefinedBehaviour
            else ∃ a, q = .ret a)) := by
  cases h with
  | step _ h =>
    change Runs (if r.int < 0 then .ret (r.int, str) else
      Sock.malloc (announced host r + 1).toNat >>= _) t q at h
    by_cases hneg : r.int < 0
    · rw [if_pos hneg] at h
      obtain ⟨ht, hq⟩ := Runs.ret_iff.mp h
      exact .inl ⟨hneg, ht, hq⟩
    · rw [if_neg hneg] at h
      rcases Runs.call_cases h with ⟨rfl, rfl⟩ | ⟨block, u, rfl, hblock⟩
      · exact .inr (.inl ⟨hneg, rfl, _, rfl⟩)
      · cases block with
        | none =>
          obtain ⟨rfl, rfl⟩ := Sock.runs_abort hblock
          exact .inr (.inr (.inl ⟨hneg, rfl, rfl⟩))
        | some block =>
          refine .inr (.inr (.inr ⟨hneg, block, u, rfl, ?_⟩))
          rcases Runs.call_cases hblock with ⟨rfl, rfl⟩ | ⟨reply, v, rfl, hreply⟩
          · exact .inl ⟨rfl, _, rfl⟩
          · refine .inr ⟨reply, ?_⟩
            change Runs (if block.1.length ≤ (announced host r).toNat then _ else
              if reply.int < 0 then .ret _ else .ret _) v q at hreply
            by_cases hshort : block.1.length ≤ (announced host r).toNat
            · rw [if_pos hshort, Sock.abort_bind] at hreply
              obtain ⟨rfl, rfl⟩ := Sock.runs_abort hreply
              rw [if_pos hshort]
              exact ⟨rfl, rfl⟩
            · rw [if_neg hshort] at hreply ⊢
              split at hreply
              · obtain ⟨rfl, rfl⟩ := Runs.ret_iff.mp hreply
                exact ⟨rfl, _, rfl⟩
              · obtain ⟨rfl, rfl⟩ := Runs.ret_iff.mp hreply
                exact ⟨rfl, _, rfl⟩

theorem runs_to_malloc (L : Signature) (fd : Fd) (str : Str) {r : ReadReply 8} (hneg : ¬ r.int < 0)
    (block : Option (Block (announced host r + 1).toNat)) :
    ∃ c k, Runs (agfsReadString host fd str : Io L _)
      [⟨.recv .field fd 8, r⟩, ⟨.malloc (announced host r + 1).toNat, block⟩] (.call c k) := by
  cases block with
  | none =>
    refine ⟨.abort .undefinedBehaviour, ?_⟩
    apply Exists.intro
    apply Runs.step
    change Runs (if r.int < 0 then _ else Sock.malloc _ >>= _) _ _
    rw [if_neg hneg]
    apply Runs.step
    exact .refl _
  | some block =>
    refine ⟨.recv .text fd (announced host r).toNat, ?_⟩
    apply Exists.intro
    apply Runs.step
    change Runs (if r.int < 0 then _ else Sock.malloc _ >>= _) _ _
    rw [if_neg hneg]
    apply Runs.step
    exact .refl _

private theorem BufferSafe.fits {r : ReadReply 8} {grants : Nat → Bool} (h : BufferSafe L host fd str r grants)
    (hneg : ¬ r.int < 0) :
    announced host r ≠ 0xFFFFFFFFFFFFFFFF ∧ grants (announced host r + 1).toNat = true := by
  obtain ⟨block, hblock⟩ : ∃ block : Option (Block (announced host r + 1).toNat),
      block.isSome = grants (announced host r + 1).toNat := by
    cases grants (announced host r + 1).toNat with
    | false => exact ⟨none, rfl⟩
    | true => exact ⟨some (Block.zeros _), rfl⟩
  obtain ⟨c, k, hrun⟩ := runs_to_malloc L fd str hneg block
  have hgrants (n : Nat) (block' : Option (Block n))
      (hmem : (⟨.malloc n, block'⟩ : Event (Sock Kind L)) ∈ [⟨.malloc (announced host r + 1).toNat, block⟩]) :
      block'.isSome = grants n := by
    cases List.mem_singleton.mp hmem
    exact hblock
  rcases (h _ _ hrun hgrants).1 _ block (List.mem_singleton_self _) with ⟨hsome, hlt, -⟩ | ⟨err, -, hret⟩
  · refine ⟨fun hmax => ?_, hblock.symm.trans hsome⟩
    exact Nat.not_le_of_lt hlt ((succ_toNat_le_iff _).mpr hmax)
  · cases hret

private theorem bufferSafe_of_fits {r : ReadReply 8} {grants : Nat → Bool}
    (h : ¬ r.int < 0 → announced host r ≠ 0xFFFFFFFFFFFFFFFF ∧ grants (announced host r + 1).toNat = true) :
    BufferSafe L host fd str r grants := by
  intro t q hrun hgrants
  have hroom (hneg : ¬ r.int < 0) : (announced host r).toNat < (announced host r + 1).toNat :=
    Nat.lt_of_not_le fun hle => (h hneg).1 ((succ_toNat_le_iff _).mp hle)
  rcases announced_cases hrun with ⟨-, rfl, rfl⟩ | ⟨-, rfl, k, rfl⟩ | ⟨hneg, rfl, rfl⟩ | ⟨hneg, block, u, rfl, hu⟩
  · exact ⟨nofun, nofun⟩
  · exact ⟨nofun, nofun⟩
  · have hnone := hgrants _ none (List.mem_singleton_self _)
    rw [(h hneg).2] at hnone
    cases hnone
  · have hsize : block.1.length = (announced host r + 1).toNat := block.2
    have hlarge : ¬ block.1.length ≤ (announced host r).toNat := by
      rw [hsize]
      exact Nat.not_le_of_lt (hroom hneg)
    rcases hu with ⟨rfl, k, rfl⟩ | ⟨reply, rfl, hend⟩
    · refine ⟨fun n block' hmem => .inl ?_, nofun⟩
      cases List.mem_singleton.mp hmem
      exact ⟨rfl, hroom hneg, fun count reply hmem => by simp at hmem⟩
    · rw [if_neg hlarge] at hend
      obtain ⟨a, rfl⟩ := hend
      refine ⟨fun n block' hmem => .inl ?_, nofun⟩
      obtain hmem | hmem := List.mem_cons.mp hmem
      · cases hmem
        refine ⟨rfl, hroom hneg, fun count reply' hmem => ?_⟩
        obtain hmem | hmem := List.mem_cons.mp hmem
        · cases hmem
        · cases List.mem_singleton.mp hmem
          exact hroom hneg
      · cases List.mem_singleton.mp hmem

/-- A call is safe exactly when the read of the length fails, or the length is not the largest
there is and the memory for it is granted. -/
theorem bufferSafe_iff (r : ReadReply 8) (grants : Nat → Bool) :
    BufferSafe L host fd str r grants ↔
      (r.int < 0 ∨ announced host r ≠ 0xFFFFFFFFFFFFFFFF ∧ grants (announced host r + 1).toNat = true) := by
  constructor
  · intro h
    exact or_iff_not_imp_left.mpr h.fits
  · intro h
    exact bufferSafe_of_fits h.resolve_left

/-- For a string of `2 ^ 64 - 1` bytes no memory is asked for at all. -/
theorem not_bufferSafe_largest :
    ¬ BufferSafe ServerSys .little 4 [] (.got (List.replicate 8 0xFF) le_rfl) fun _ => true := by
  intro h
  have hneg : ¬ (ReadReply.got (List.replicate 8 0xFF) le_rfl : ReadReply 8).int < 0 := by decide
  exact absurd (show announced .little (.got (List.replicate 8 0xFF) le_rfl) = 0xFFFFFFFFFFFFFFFF by decide)
    (h.fits hneg).1

end AgFS
