import AgFS.Codec.StringBuffer
import AgFS.Codec.Items
import AgFS.Interaction.Memory
import AgFS.Model.ClientConnection

/-! Where the contents of memory that nothing has been stored in show in what is decoded. -/
namespace AgFS
open Interaction ByteOrder Sock

section Traces
variable {L : Signature}

/-- How many bytes each read has delivered, unless it failed. -/
def readCounts (t : List (Event (Sock Kind L))) : List (Option Nat) :=
  t.filterMap fun
    | ⟨.recv _ _ n, r⟩ =>
      match (r : ReadReply n) with
      | .fail _ => some none
      | .got bs _ => some (some bs.length)
    | _ => none

/-- The bytes of strings that were received. -/
def textOf (t : List (Event (Sock Kind L))) : Bytes :=
  unmark ((heard t).filter fun x => x.1 = .text)

/-- The reads of strings have delivered all they asked for, or a terminator. -/
def TextWhole (t : List (Event (Sock Kind L))) : Prop :=
  ∀ fd n r, (⟨.recv .text fd n, r⟩ : Event (Sock Kind L)) ∈ t →
    (ReadReply.bytes r).length = n ∨ 0 ∈ ReadReply.bytes r

end Traces

/-! Strings. -/

/-- The string in a block of which a read has filled the beginning. -/
def stringIn (block : Bytes) (n : Nat) (bs : Bytes) : Str := cstr ((overlay block bs).set n 0)

theorem cstr_append_of_mem {bs : Bytes} (h : 0 ∈ bs) (rest : Bytes) : cstr (bs ++ rest) = cstr bs := by
  obtain ⟨before, after, rfl⟩ := List.append_of_mem h
  rw [List.append_assoc, List.cons_append, cstr_terminated, cstr_terminated]

private theorem overlay_set_past {block bs : Bytes} {n : Nat} (h : bs.length ≤ n) :
    (overlay block bs).set n 0 = bs ++ (block.drop bs.length).set (n - bs.length) 0 := by
  rw [overlay, List.set_append_right _ _ h]

theorem stringIn_of_whole {block bs : Bytes} {n : Nat} (hblock : block.length = n + 1)
    (hbs : bs.length = n ∨ 0 ∈ bs) (hle : bs.length ≤ n) : stringIn block n bs = cstr bs := by
  rw [stringIn]
  rcases hbs with rfl | hmem
  · rw [overlay_set hblock, cstr_terminated bs []]
  · rw [overlay_set_past hle, cstr_append_of_mem hmem]

/-- Where too little was received, the string goes on with what was in the block, here one byte throughout. -/
theorem stringIn_replicate {bs : Bytes} {n : Nat} (h : bs.length ≤ n) (b : UInt8) :
    stringIn (List.replicate (n + 1) b) n bs = cstr (bs ++ List.replicate (n - bs.length) b) := by
  have hlength : (bs ++ List.replicate (n - bs.length) b).length = n := by
    rw [List.length_append, List.length_replicate]
    omega
  have hsame : overlay (List.replicate (n + 1) b) bs =
      overlay (List.replicate (n + 1) b) (bs ++ List.replicate (n - bs.length) b) := by
    have hrest : n + 1 - bs.length = n - bs.length + 1 := by omega
    rw [overlay, overlay, hlength, List.drop_replicate, List.drop_replicate, hrest, List.append_assoc,
      List.replicate_append_replicate, Nat.add_sub_cancel_left]
  have hset : (overlay (List.replicate (n + 1) b) (bs ++ List.replicate (n - bs.length) b)).set
      (bs ++ List.replicate (n - bs.length) b).length 0 = bs ++ List.replicate (n - bs.length) b ++ [0] :=
    overlay_set (by rw [hlength, List.length_replicate]) 0
  rw [hlength] at hset
  rw [stringIn, hsame, hset, cstr_terminated]

theorem nulFree_of_notMem {s : Str} (h : 0 ∉ s) : NulFree s := fun _ hb => ne_of_mem_of_not_mem hb h

private theorem stringIn_zeros {bs : Bytes} {n : Nat} (h : bs.length < n) (hbs : 0 ∉ bs) :
    stringIn (List.replicate (n + 1) 0) n bs = bs := by
  have hrest : n - bs.length = n - bs.length - 1 + 1 := by omega
  rw [stringIn_replicate h.le, hrest, List.replicate_succ, cstr_terminated]
  exact (nulFree_of_notMem hbs).cstr_eq

private theorem stringIn_ones {bs : Bytes} {n : Nat} (h : bs.length ≤ n) (hbs : 0 ∉ bs) :
    stringIn (List.replicate (n + 1) 1) n bs = bs ++ List.replicate (n - bs.length) 1 := by
  rw [stringIn_replicate h]
  refine ((nulFree_of_notMem hbs).append fun b hb => ?_).cstr_eq
  rw [List.eq_of_mem_replicate hb]
  decide

section Strings
variable {L : Signature} {host : Endian} {fd : Fd} {str : Str} {t : List (Event (Sock Kind L))}

def stringRead (host : Endian) (r : ReadReply 8) (block : Bytes) (reply : ReadReply (announced host r).toNat) :
    Int32 × Str :=
  (if reply.int < 0 then reply.int else r.int + reply.int, stringIn block (announced host r).toNat reply.bytes)

def stringTrace (host : Endian) (fd : Fd) (r : ReadReply 8) (block : Block (announced host r + 1).toNat)
    (reply : ReadReply (announced host r).toNat) : List (Event (Sock Kind L)) :=
  [⟨.recv .field fd 8, r⟩, ⟨.malloc (announced host r + 1).toNat, some block⟩,
    ⟨.recv .text fd (announced host r).toNat, reply⟩]

/-- The length could be read, and the buffer has room for its terminator. -/
def HasRoom (host : Endian) (r : ReadReply 8) : Prop :=
  ¬ r.int < 0 ∧ (announced host r + 1).toNat = (announced host r).toNat + 1

theorem readString_goes {r : ReadReply 8} (hr : HasRoom host r) (block : Block (announced host r + 1).toNat)
    (reply : ReadReply (announced host r).toNat) :
    Runs (agfsReadString host fd str : Io L _) (stringTrace host fd r block reply)
      (.ret (stringRead host r block.1 reply)) := by
  apply Runs.step
  change Runs (if r.int < 0 then _ else Sock.malloc _ >>= _) _ _
  rw [if_neg hr.1]
  apply Runs.step
  apply Runs.step
  change Runs (if block.1.length ≤ (announced host r).toNat then _ else
    if reply.int < 0 then .ret (reply.int, stringIn block.1 (announced host r).toNat reply.bytes)
    else .ret (r.int + reply.int, stringIn block.1 (announced host r).toNat reply.bytes)) _ _
  have hroom : ¬ block.1.length ≤ (announced host r).toNat := by
    rw [block.2, hr.2]
    exact Nat.not_succ_le_self _
  rw [if_neg hroom, stringRead]
  split
  · exact .refl _
  · exact .refl _

theorem readString_cases {a : Int32 × Str} (h : Runs (agfsReadString host fd str : Io L _) t (.ret a)) :
    (∃ r : ReadReply 8, r.int < 0 ∧ t = [⟨.recv .field fd 8, r⟩] ∧ a = (r.int, str)) ∨
      ∃ r block reply, HasRoom host r ∧ t = stringTrace host fd r block reply ∧
        a = stringRead host r block.1 reply := by
  obtain ⟨r, u, rfl, -⟩ := Runs.call_ret_iff.mp h
  rcases announced_cases h with ⟨hneg, rfl, hret⟩ | ⟨-, -, k, hret⟩ | ⟨-, -, hret⟩ | ⟨hneg, block, u, rfl, hu⟩
  · cases hret
    exact .inl ⟨r, hneg, rfl, rfl⟩
  · cases hret
  · cases hret
  · rcases hu with ⟨-, k, hret⟩ | ⟨reply, rfl, hend⟩
    · cases hret
    · by_cases hshort : block.1.length ≤ (announced host r).toNat
      · rw [if_pos hshort] at hend
        cases hend
      · have hroom : HasRoom host r := by
          refine ⟨hneg, ?_⟩
          rw [block.2] at hshort
          have hadd := UInt64.toNat_add (announced host r) 1
          have hone : (1 : UInt64).toNat = 1 := rfl
          omega
        exact .inr ⟨r, block, reply, hroom, rfl, Runs.ret_unique h (readString_goes hroom block reply)⟩

private theorem textWhole_iff {r : ReadReply 8} {block : Block (announced host r + 1).toNat}
    {reply : ReadReply (announced host r).toNat} :
    TextWhole (stringTrace (L := L) host fd r block reply) ↔
      reply.bytes.length = (announced host r).toNat ∨ 0 ∈ reply.bytes := by
  constructor
  · intro h
    exact h fd _ reply (List.mem_cons_of_mem _ (List.mem_cons_of_mem _ (List.mem_singleton_self _)))
  · intro h fd' n r' hmem
    obtain hmem | hmem := List.mem_cons.mp hmem
    · cases hmem
    obtain hmem | hmem := List.mem_cons.mp hmem
    · cases hmem
    · cases List.mem_singleton.mp hmem
      exact h

theorem ReadReply.bytes_le {n : Nat} (r : ReadReply n) : r.bytes.length ≤ n := by
  cases r with
  | fail e => exact Nat.zero_le n
  | got bs hbs => exact hbs

theorem stringRead_of_whole {r : ReadReply 8} (hr : HasRoom host r) (block : Block (announced host r + 1).toNat)
    {reply : ReadReply (announced host r).toNat}
    (h : reply.bytes.length = (announced host r).toNat ∨ 0 ∈ reply.bytes) :
    (stringRead host r block.1 reply).2 = cstr reply.bytes :=
  stringIn_of_whole (block.2.trans hr.2) h (ReadReply.bytes_le reply)

theorem textOf_stringTrace (r : ReadReply 8) (block : Block (announced host r + 1).toNat)
    (reply : ReadReply (announced host r).toNat) :
    textOf (stringTrace (L := L) host fd r block reply) = reply.bytes := by
  have hfield (bs : Bytes) : (mark Kind.field bs).filter (fun x => x.1 = .text) = [] := by
    simp [mark, List.filter_eq_nil_iff]
  have htext (bs : Bytes) : (mark Kind.text bs).filter (fun x => x.1 = .text) = mark .text bs := by
    simp [mark, List.filter_eq_self]
  simp [textOf, stringTrace, heard, List.filter_append, hfield, htext]

theorem readString_settled {a b : Int32 × Str} {u : List (Event (Sock Kind L))}
    (h : Runs (agfsReadString host fd str : Io L _) t (.ret a)) (hwhole : TextWhole t)
    (hu : SameButMemory t u) (h' : Runs (agfsReadString host fd str : Io L _) u (.ret b)) : b = a := by
  rcases readString_cases h with ⟨r, -, rfl, -⟩ | ⟨r, block, reply, hr, rfl, rfl⟩
  · obtain ⟨u', rfl, hnil⟩ := apart_recv hu
    cases hnil
    exact Runs.ret_unique h' h
  · obtain ⟨u₁, rfl, hu₁⟩ := apart_recv hu
    obtain ⟨block', u₂, rfl, hu₂⟩ := apart_malloc hu₁
    obtain ⟨u₃, rfl, hnil⟩ := apart_recv hu₂
    cases hnil
    have hsame := Runs.ret_unique h' (readString_goes hr block' reply)
    have htext := textWhole_iff.mp hwhole
    rw [hsame, Prod.ext_iff, stringRead_of_whole hr block htext, stringRead_of_whole hr block' htext]
    exact ⟨rfl, rfl⟩

private theorem readString_received {a : Int32 × Str} (h : Runs (agfsReadString host fd str : Io L _) t (.ret a))
    (hwhole : TextWhole t) : a.2 = str ∨ a.2 <+: textOf t := by
  rcases readString_cases h with ⟨r, -, rfl, rfl⟩ | ⟨r, block, reply, hr, rfl, rfl⟩
  · exact .inl rfl
  · rw [stringRead_of_whole hr block (textWhole_iff.mp hwhole), textOf_stringTrace]
    exact .inr (List.takeWhile_prefix _)

theorem readString_unsettled {a : Int32 × Str} (h : Runs (agfsReadString host fd str : Io L _) t (.ret a))
    (hwhole : ¬ TextWhole t) :
    ∃ u u' b b', SameButMemory t u ∧ SameButMemory t u' ∧ Runs (agfsReadString host fd str : Io L _) u (.ret b) ∧
      Runs (agfsReadString host fd str : Io L _) u' (.ret b') ∧ NulFree b'.2 ∧ ∃ x rest, b'.2 = b.2 ++ x :: rest := by
  rcases readString_cases h with ⟨r, -, rfl, -⟩ | ⟨r, block, reply, hr, rfl, -⟩
  · exact absurd (fun _ _ _ hmem => by cases List.mem_singleton.mp hmem) hwhole
  · rw [textWhole_iff, not_or] at hwhole
    obtain ⟨hne, hnul⟩ := hwhole
    have hlt : reply.bytes.length < (announced host r).toNat :=
      lt_of_le_of_ne (ReadReply.bytes_le reply) hne
    let filled (b : UInt8) : Block (announced host r + 1).toNat := ⟨List.replicate _ b, List.length_replicate⟩
    have happart (b : UInt8) : SameButMemory (stringTrace (L := L) host fd r block reply)
        (stringTrace host fd r (filled b) reply) :=
      .cons (.same _) (.cons (.malloc block (filled b)) (.cons (.same _) .nil))
    have hfilled (b : UInt8) : (filled b).1 = List.replicate ((announced host r).toNat + 1) b := by
      rw [← hr.2]
    refine ⟨_, _, _, _, happart 0, happart 1, readString_goes hr _ reply, readString_goes hr _ reply,
      cstr_nulFree _, 1, List.replicate ((announced host r).toNat - reply.bytes.length - 1) 1, ?_⟩
    have hrest : (announced host r).toNat - reply.bytes.length =
        (announced host r).toNat - reply.bytes.length - 1 + 1 := by omega
    rw [stringRead, stringRead, hfilled, hfilled, stringIn_zeros hlt hnul, stringIn_ones hlt.le hnul, hrest,
      List.replicate_succ, Nat.add_sub_cancel]

/-- A string that is read depends on received bytes only exactly when its text is whole. -/
theorem readString_memoryFree_iff {a : Int32 × Str}
    (h : Runs (agfsReadString host fd str : Io L _) t (.ret a)) :
    (MemoryFree (agfsReadString host fd str : Io L _) Prog.returned t ∧ (a.2 = str ∨ a.2 <+: textOf t)) ↔
      TextWhole t := by
  constructor
  · rintro ⟨hfree, -⟩
    by_contra hwhole
    obtain ⟨u, u', b, b', hu, hu', h₁, h₂, -, x, rest, hlonger⟩ := readString_unsettled h hwhole
    have hsame := hfree u u' _ _ b b' hu hu' h₁ h₂ rfl rfl
    rw [hsame] at hlonger
    exact absurd (congrArg List.length hlonger) (by simp)
  · intro hwhole
    refine ⟨fun u u' q q' b b' hu hu' h₁ h₂ hb hb' => ?_, readString_received h hwhole⟩
    rw [Prog.returned_eq_some] at hb hb'
    subst hb hb'
    rw [readString_settled h hwhole hu h₁, readString_settled h hwhole hu' h₂]

end Strings
end AgFS
