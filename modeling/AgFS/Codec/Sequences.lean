import AgFS.Codec.Items

/-! Sequences of items: what the writers put into a stream, the readers get out of it. -/
namespace AgFS
open Interaction ByteOrder

/-- A value that crosses a connection, with the pair of functions that carries it. -/
inductive Item where
  | cmd (c : CmdT)
  | mask (m : AgmaskT)
  | size (n : AgsizeT)
  | error (err : AgerrT)
  | string (str : Str)
  | stat (st : Stat)

namespace Item

inductive Shape where
  | cmd
  | mask
  | size
  | error
  | string
  | stat
  deriving DecidableEq

def shape : Item → Shape
  | cmd _ => .cmd
  | mask _ => .mask
  | size _ => .size
  | error _ => .error
  | string _ => .string
  | stat _ => .stat

/-- Strings within the reach of the C types; every other item. -/
def Fits : Item → Prop
  | string str => NulFree str ∧ Short str
  | _ => True

/-- What arrives: of a stat, the six fields that travel. -/
def received : Item → Item
  | stat st => stat st.transmitted
  | x => x

def count : Item → Int32
  | cmd _ => 2
  | mask _ => 4
  | size _ => 8
  | error _ => 8
  | string str => Int32.ofNat (8 + str.length)
  | stat _ => 44

def enc : Item → Marked Kind
  | cmd c => encCmd c
  | mask m => encMask m
  | size n => encSize n
  | error err => encError err
  | string str => encString str
  | stat st => encStat st

variable {L : Signature}

def write (fd : Fd) : Item → Io L Int32
  | cmd c => agfsWriteCmd fd c
  | mask m => agfsWriteMask fd m
  | size n => agfsWriteSize fd n
  | error err => agfsWriteError fd err
  | string str => agfsWriteString fd str
  | stat st => agfsWriteStat fd st

/-- Reads into a variable of the item's type, given by its old value. -/
def read (host : Endian) (fd : Fd) : Item → Io L (Int32 × Item)
  | cmd c => do return (← agfsReadCmd host fd c).map id cmd
  | mask m => do return (← agfsReadMask host fd m).map id mask
  | size n => do return (← agfsReadSize host fd n).map id size
  | error err => do return (← agfsReadError host fd err).map id error
  | string str => do return (← agfsReadString host fd str).map id string
  | stat _ => do return (← agfsReadStat host fd).map id stat

end Item

section Sequences
variable {L : Signature}

def writeItems (fd : Fd) : List Item → Io L (List Int32)
  | [] => return []
  | x :: xs => do
    let n ← x.write fd
    let ns ← writeItems fd xs
    return n :: ns

def readItems (host : Endian) (fd : Fd) : List Item → Io L (List (Int32 × Item))
  | [] => return []
  | var :: vars => do
    let x ← var.read host fd
    let xs ← readItems host fd vars
    return x :: xs

end Sequences

section RoundTrip
variable {L : Signature} {ν τ : Type} {e : Env Kind L ν τ} {recvAll sendAll : Prop} {fd : Fd}

private theorem Item.does_write (he : Orderly e recvAll sendAll) (hf : 0 ≤ fd) {x : Item} (hx : x.Fits)
    (s : τ) : e.Does (x.write fd) s [] x.enc (.ret x.count) s := by
  cases x with
  | cmd c => exact does_writeCmd he hf c s
  | mask m => exact does_writeMask he hf m s
  | size n => exact does_writeSize he hf n s
  | error err => exact does_writeError he hf err s
  | string str =>
    have h := does_writeString he hf str s
    rw [hx.2.stringCount_eq] at h
    exact h
  | stat st => exact does_writeStat he hf st s

private theorem Item.does_read (he : Orderly e recvAll sendAll) (hf : 0 ≤ fd) (host : Endian)
    {x var : Item} (hx : x.Fits) (hv : var.shape = x.shape) (s : τ) :
    e.Does (var.read host fd) s x.enc [] (.ret (x.count, x.received)) s := by
  cases x <;> cases var <;> cases hv
  · exact (does_readCmd he hf host _ _ s).returns rfl
  · exact (does_readMask he hf host _ _ s).returns rfl
  · exact (does_readSize he hf host _ _ s).returns rfl
  · exact (does_readError he hf host _ _ s).returns rfl
  · exact (does_readString he hf host _ hx.2.addressable hx.1 s).returns
      (congrArg (fun n => Prog.ret (n, _)) hx.2.stringCount_eq)
  · exact (does_readStat he hf host _ s).returns rfl

private theorem does_writeItems (he : Orderly e recvAll sendAll) (hf : 0 ≤ fd) {xs : List Item}
    (hx : ∀ x ∈ xs, x.Fits) (s : τ) :
    e.Does (writeItems fd xs) s [] (xs.flatMap Item.enc) (.ret (xs.map Item.count)) s := by
  induction xs with
  | nil => exact .refl _ s
  | cons x xs ih =>
    have hxs := ih fun y hy => hx y (List.mem_cons_of_mem x hy)
    exact (Item.does_write he hf (hx x List.mem_cons_self) s).andThen (hxs.returns rfl)

private theorem does_readItems (he : Orderly e recvAll sendAll) (hf : 0 ≤ fd) (host : Endian)
    {xs vars : List Item} (hx : ∀ x ∈ xs, x.Fits) (hv : vars.map Item.shape = xs.map Item.shape)
    (s : τ) :
    e.Does (readItems host fd vars) s (xs.flatMap Item.enc) []
      (.ret (xs.map fun x => (x.count, x.received))) s := by
  induction xs generalizing vars with
  | nil =>
    obtain rfl := List.map_eq_nil_iff.mp hv
    exact .refl _ s
  | cons x xs ih =>
    obtain ⟨var, vars, rfl, hvar, hvars⟩ := List.map_eq_cons_iff.mp hv
    have hxs := ih (fun y hy => hx y (List.mem_cons_of_mem x hy)) hvars
    exact (Item.does_read he hf host (hx x List.mem_cons_self) hvar s).andThen (hxs.returns rfl)

/-! Backwards: what a reader that has come to its end must have taken. -/

private theorem read_field (he : Orderly e recvAll sendAll) (hf : 0 ≤ fd) {n : Nat}
    {α : Type} {f : ReadReply n → Io L α} {a : α} {v : ν} {s : τ} {w : ν × τ} {i o : Marked Kind}
    (m : Kind) (hm : m ≠ .data)
    (h : (e.machine α).Reaches (Sock.recv m fd n >>= f, v, s) i o (.ret a, w)) :
    ∃ bs, ∃ hn : bs.length = n, ∃ v' i', i = mark m bs ++ i' ∧
      (e.machine α).Reaches (f (.got bs hn.le), v', s) i' o (.ret a, w) :=
  Env.reaches_recv he (fun h => absurd h hm) hf h

private theorem read_size (he : Orderly e recvAll sendAll) (hf : 0 ≤ fd) {host : Endian}
    {old : AgsizeT} {α : Type} {f : Int32 × AgsizeT → Io L α} {a : α} {v : ν} {s : τ} {w : ν × τ}
    {i o : Marked Kind}
    (h : (e.machine α).Reaches (agfsReadSize host fd old >>= f, v, s) i o (.ret a, w)) :
    ∃ n v' i', i = encSize n ++ i' ∧
      (e.machine α).Reaches (f (8, n), v', s) i' o (.ret a, w) := by
  obtain ⟨bs, hn, v', i', rfl, rest⟩ := read_field (f := fun r =>
    f (r.int, be64toh (overlay (host.store 8 old.toNat) r.bytes))) he hf .field (by decide) h
  have hold : overlay (host.store 8 old.toNat) bs = bs := overlay_full (by simp [hn])
  refine ⟨be64toh bs, v', i', by rw [encSize, htobe64_be64toh hn], ?_⟩
  simpa [ReadReply.int, ReadReply.bytes, hold, hn] using rest

/-- Bytes that are the characters of strings are not NUL. -/
def NoNulText (i : Marked Kind) : Prop := ∀ y ∈ i, y.1 = .text → y.2 ≠ 0

private theorem NoNulText.nulFree {bs : Bytes} {i : Marked Kind}
    (h : NoNulText (mark .text bs ++ i)) : NulFree bs := by
  intro b hb
  refine h (.text, b) ?_ rfl
  simp [mark, hb]

private theorem read_checked (he : Orderly e recvAll sendAll) (hf : 0 ≤ fd) {n : Nat}
    (hlt : n < 2 ^ 31) {α : Type} {f g : ReadReply n → Io L α} {a : α} {v : ν} {s : τ} {w : ν × τ}
    {i o : Marked Kind}
    (h : (e.machine α).Reaches
      (Sock.recv .field fd n >>= fun r => if r.int < 0 then f r else g r, v, s) i o (.ret a, w)) :
    ∃ bs, ∃ hn : bs.length = n, ∃ v' i', i = mark .field bs ++ i' ∧
      (e.machine α).Reaches (g (.got bs hn.le), v', s) i' o (.ret a, w) := by
  obtain ⟨bs, hn, v', i', rfl, rest⟩ := read_field he hf .field (by decide) h
  rw [if_neg (by simpa only [ReadReply.int, hn] using int32_ofNat_nonneg hlt)] at rest
  exact ⟨bs, hn, v', i', rfl, rest⟩

private theorem readString_takes (he : Orderly e recvAll sendAll) (hf : 0 ≤ fd) {host : Endian}
    {old str : Str} {n : Int32} {v : ν} {s : τ} {w : ν × τ} {i o : Marked Kind}
    (h : (e.machine _).Reaches (agfsReadString host fd old, v, s) i o (.ret (n, str), w))
    (hi : NoNulText i) (hs : Short str) :
    i = encString str ∧ o = [] ∧ w.2 = s ∧ n = Int32.ofNat (8 + str.length) ∧ NulFree str := by
  obtain ⟨len, v₁, i₁, rfl, h₁⟩ := read_size he hf h
  obtain ⟨block, v₂, h₂⟩ := Env.reaches_malloc he h₁
  obtain ⟨bs, hn, v₃, i₂, rfl, rest⟩ := read_field he hf .text (by decide) h₂
  simp only [] at rest
  have hbs : NulFree bs := NoNulText.nulFree (i := i₂) fun y hy => hi y (List.mem_append_right _ hy)
  by_cases hsmall : block.1.length ≤ len.toNat
  · rw [if_pos hsmall] at rest
    have hend := rest.of_stuck fun _ => rfl
    cases hend.1
  · rw [if_neg hsmall] at rest
    have hblock : block.1.length = bs.length + 1 := by
      have hadd : (len + 1).toNat = (len.toNat + 1) % 2 ^ 64 := by
        rw [UInt64.toNat_add, UInt64.toNat_one]
      have hb := block.2
      omega
    have hterm : cstr ((overlay block.1 bs).set len.toNat 0) = bs := by
      rw [← hn, overlay_set hblock, hbs.cstr_terminated]
    simp only [ReadReply.int, ReadReply.bytes, hterm] at rest
    have hstr : bs = str := by
      split at rest <;> cases (Env.reaches_ret rest).1 <;> rfl
    subst hstr
    have hpos : ¬ Int32.ofNat bs.length < 0 := int32_ofNat_nonneg (by unfold Short at hs; omega)
    rw [if_neg hpos] at rest
    obtain ⟨hret, rfl, rfl, rfl⟩ := Env.reaches_ret rest
    refine ⟨?_, rfl, rfl, ?_, hbs⟩
    · rw [encString, hn, UInt64.ofNat_toNat, List.append_nil]
    · rw [Int32.ofNat_add]
      exact (congrArg Prod.fst hret).symm

private theorem readStat_takes (he : Orderly e recvAll sendAll) (hf : 0 ≤ fd) {host : Endian}
    {st : Stat} {n : Int32} {v : ν} {s : τ} {w : ν × τ} {i o : Marked Kind}
    (h : (e.machine _).Reaches (agfsReadStat host fd, v, s) i o (.ret (n, st), w)) :
    i = encStat st ∧ o = [] ∧ w.2 = s ∧ n = 44 := by
  obtain ⟨dev, v₁, h₁⟩ := Env.reaches_scratch h
  obtain ⟨devBytes, hdev, v₂, i₂, rfl, h₂⟩ := read_checked he hf (by decide) h₁
  obtain ⟨mode, v₃, h₃⟩ := Env.reaches_scratch h₂
  obtain ⟨modeBytes, hmode, v₄, i₄, rfl, h₄⟩ := read_checked he hf (by decide) h₃
  obtain ⟨size, v₅, i₅, rfl, h₅⟩ := read_size he hf h₄
  obtain ⟨atime, hatime, v₆, i₆, rfl, h₆⟩ := read_checked he hf (by decide) h₅
  obtain ⟨mtime, hmtime, v₇, i₇, rfl, h₇⟩ := read_checked he hf (by decide) h₆
  obtain ⟨ctime, hctime, v₈, i₈, rfl, h₈⟩ := read_checked he hf (by decide) h₇
  obtain ⟨hret, rfl, rfl, rfl⟩ := Env.reaches_ret h₈
  simp only [Prod.mk.injEq] at hret
  obtain ⟨hn, rfl⟩ := hret
  have old8 (bs : Bytes) (hb : bs.length = 8) (old : Bytes) (ho : old.length = 8) :
      overlay old bs = bs := overlay_full (by omega)
  refine ⟨?_, rfl, rfl, ?_⟩
  · simp [encStat, encSize, encMask, ReadReply.bytes, overlay_full, htobe64_be64toh, htobe32_be32toh, hdev, hmode,
      hatime, hmtime, hctime, dev.2, mode.2]
  · simpa [ReadReply.int, hdev, hmode, hatime, hmtime, hctime] using hn.symm

/-- Reading back: the bytes an item was read from are those it is written as. -/
theorem Item.read_takes (he : Orderly e recvAll sendAll) (hf : 0 ≤ fd) {host : Endian}
    {var x : Item} {n : Int32} {v : ν} {s : τ} {w : ν × τ} {i o : Marked Kind}
    (h : (e.machine _).Reaches (var.read host fd, v, s) i o (.ret (n, x), w))
    (hi : NoNulText i) (hs : ∀ str, x = .string str → Short str) :
    i = x.enc ∧ o = [] ∧ w.2 = s ∧ n = x.count ∧ x.Fits := by
  cases var with
  | string old =>
    obtain ⟨⟨k, str⟩, w₁, i₁, o₁, i₂, o₂, rfl, rfl, h₁, h₂⟩ := Env.reaches_bind_ret _ h
    obtain ⟨hret, rfl, rfl, rfl⟩ := Env.reaches_ret h₂
    cases hret
    rw [List.append_nil] at hi ⊢
    obtain ⟨rfl, rfl, hw, rfl, hn⟩ := readString_takes he hf h₁ hi (hs str rfl)
    exact ⟨rfl, rfl, hw, rfl, hn, hs str rfl⟩
  | stat old =>
    obtain ⟨⟨k, st⟩, w₁, i₁, o₁, i₂, o₂, rfl, rfl, h₁, h₂⟩ := Env.reaches_bind_ret _ h
    obtain ⟨hret, rfl, rfl, rfl⟩ := Env.reaches_ret h₂
    cases hret
    obtain ⟨rfl, rfl, hw, rfl⟩ := readStat_takes he hf h₁
    exact ⟨List.append_nil _, rfl, hw, rfl, trivial⟩
  | cmd c =>
    obtain ⟨bs, hn, v₁, i₁, rfl, h₁⟩ := read_field he hf .command (by decide) h
    obtain ⟨hret, rfl, rfl, rfl⟩ := Env.reaches_ret h₁
    cases hret
    have hbs : overlay (host.store 2 c.toNat) bs = bs := overlay_full (by simp [hn])
    refine ⟨?_, rfl, rfl, ?_, trivial⟩
    · simp [Item.enc, encCmd, ReadReply.bytes, hbs, htobe16_be16toh hn]
    · simp [Item.count, ReadReply.int, hn]
  | mask m =>
    obtain ⟨bs, hn, v₁, i₁, rfl, h₁⟩ := read_field he hf .field (by decide) h
    obtain ⟨hret, rfl, rfl, rfl⟩ := Env.reaches_ret h₁
    cases hret
    have hbs : overlay (host.store 4 m.toNat) bs = bs := overlay_full (by simp [hn])
    refine ⟨?_, rfl, rfl, ?_, trivial⟩
    · simp [Item.enc, encMask, ReadReply.bytes, hbs, htobe32_be32toh hn]
    · simp [Item.count, ReadReply.int, hn]
  | size k =>
    obtain ⟨bs, hn, v₁, i₁, rfl, h₁⟩ := read_field he hf .field (by decide) h
    obtain ⟨hret, rfl, rfl, rfl⟩ := Env.reaches_ret h₁
    cases hret
    have hbs : overlay (host.store 8 k.toNat) bs = bs := overlay_full (by simp [hn])
    refine ⟨?_, rfl, rfl, ?_, trivial⟩
    · simp [Item.enc, encSize, ReadReply.bytes, hbs, htobe64_be64toh hn]
    · simp [Item.count, ReadReply.int, hn]
  | error err =>
    obtain ⟨bs, hn, v₁, i₁, rfl, h₁⟩ := read_field he hf .field (by decide) h
    obtain ⟨hret, rfl, rfl, rfl⟩ := Env.reaches_ret h₁
    cases hret
    have hbs : overlay (host.store 8 err.toUInt64.toNat) bs = bs := overlay_full (by simp [hn])
    refine ⟨?_, rfl, rfl, ?_, trivial⟩
    · simp [Item.enc, encError, ReadReply.bytes, hbs, htobe64_be64toh hn]
    · simp [Item.count, ReadReply.int, hn]

private theorem readItems_takes (he : Orderly e recvAll sendAll) (hf : 0 ≤ fd) {host : Endian}
    {vars : List Item} {results : List (Int32 × Item)} {v : ν} {s : τ} {w : ν × τ}
    {i o : Marked Kind}
    (h : (e.machine _).Reaches (readItems host fd vars, v, s) i o (.ret results, w))
    (hi : NoNulText i) (hs : ∀ r ∈ results, ∀ str, r.2 = .string str → Short str) :
    i = (results.map Prod.snd).flatMap Item.enc ∧ o = [] ∧ w.2 = s ∧
      results.map Prod.fst = (results.map Prod.snd).map Item.count ∧
      ∀ r ∈ results, r.2.Fits := by
  induction vars generalizing results v s w i o with
  | nil =>
    obtain ⟨rfl, rfl, rfl, rfl⟩ := Env.reaches_ret h
    simp
  | cons var vars ih =>
    obtain ⟨⟨n, x⟩, w₁, i₁, o₁, i₂, o₂, rfl, rfl, h₁, h₂⟩ := Env.reaches_bind_ret _ h
    obtain ⟨xs, w₂, i₃, o₃, i₄, o₄, rfl, rfl, h₃, h₄⟩ := Env.reaches_bind_ret _ h₂
    obtain ⟨rfl, rfl, rfl, rfl⟩ := Env.reaches_ret h₄
    have hx : ∀ str, x = .string str → Short str := hs (n, x) List.mem_cons_self
    have hxs : ∀ r ∈ xs, ∀ str, r.2 = .string str → Short str :=
      fun r hr => hs r (List.mem_cons_of_mem _ hr)
    have hi₁ : NoNulText i₁ := fun y hy => hi y (List.mem_append_left _ hy)
    have hi₃ : NoNulText i₃ := fun y hy => hi y (by simp [hy])
    obtain ⟨rfl, rfl, hw, rfl, hfit⟩ := Item.read_takes he hf h₁ hi₁ hx
    obtain ⟨rfl, rfl, hw', hcount, hfits⟩ := ih h₃ hi₃ hxs
    refine ⟨by simp, rfl, hw'.trans hw, by simp [hcount], ?_⟩
    intro r hr
    rcases List.mem_cons.mp hr with rfl | hr
    · exact hfit
    · exact hfits r hr

end RoundTrip

/-- On the input `inp` a program returns `a` and leaves exactly `rest` unread. -/
def Leaves {L : Signature} {ν τ α : Type} (e : Env Kind L ν τ) (p : Io L α) (w : ν × τ)
    (inp : Bytes) (a : α) (rest : Bytes) : Prop :=
  ∃ i w', inp = unmark i ++ rest ∧ (e.machine α).Reaches (p, w) i [] (.ret a, w')

/-- Items written in order and read in order come back, with equal byte counts on both
sides and nothing of what follows touched; and items that decode in full from any bytes
are written as exactly those bytes. -/
theorem codec_round_trip {L L' : Signature} {ν τ ν' τ' : Type} {e : Env Kind L ν τ}
    {e' : Env Kind L' ν' τ'} (he : Orderly e True True) (he' : Orderly e' True True)
    {fd fd' : Fd} (hf : 0 ≤ fd) (hf' : 0 ≤ fd') (host : Endian) :
    (∀ items vars : List Item, (∀ x ∈ items, x.Fits) →
      vars.map Item.shape = items.map Item.shape → ∀ (t : Bytes) (w : ν × τ) (w' : ν' × τ'),
      ∃ counts sent u,
        (e.machine _).Reaches (writeItems fd items, w) [] sent (.ret counts, u) ∧
        Leaves e' (readItems host fd' vars) w' (unmark sent ++ t)
          (counts.zip (items.map Item.received)) t) ∧
    (∀ (vars : List Item) (results : List (Int32 × Item)) (i o : Marked Kind) (w u : ν' × τ'),
      (e'.machine _).Reaches (readItems host fd' vars, w) i o (.ret results, u) →
      NoNulText i → (∀ r ∈ results, ∀ str, r.2 = .string str → Short str) → ∀ w' : ν × τ,
      ∃ sent u',
        (e.machine _).Reaches (writeItems fd (results.map Prod.snd), w') [] sent
          (.ret (results.map Prod.fst), u') ∧
        unmark sent = unmark i) := by
  constructor
  · intro items vars hfits hshape t w w'
    obtain ⟨v, hw⟩ := does_writeItems he hf hfits w.2 w.1
    obtain ⟨v', hr⟩ := does_readItems he' hf' host hfits hshape w'.2 w'.1
    refine ⟨_, _, _, hw, _, (v', w'.2), rfl, ?_⟩
    have hzip : (items.map Item.count).zip (items.map Item.received) =
        items.map fun x => (x.count, x.received) := List.zip_map'
    rw [hzip]
    exact hr
  · intro vars results i o w u hr hi hs w'
    obtain ⟨rfl, -, -, hcount, hfits⟩ := readItems_takes he' hf' hr hi hs
    have hfits' : ∀ x ∈ results.map Prod.snd, x.Fits := by
      simpa using fun x n hn => hfits (n, x) hn
    obtain ⟨v, hw⟩ := does_writeItems he hf hfits' w'.2 w'.1
    rw [hcount]
    exact ⟨_, _, hw, rfl⟩

/-- A mixed sequence with a trailing byte, and the bytes of one command read back. -/
theorem codec_round_trip_instance :
    let e : Env Kind ServerSys Unit Unit := Env.whole fun s c => (s, ServerSys.silent c)
    let items := [Item.cmd cmd.WRITE, .string [0x2F, 0x61], .error (-2), .stat Stat.zero]
    (∃ counts sent u,
      (e.machine _).Reaches (writeItems 3 items, (), ()) [] sent (.ret counts, u) ∧
      Leaves e (readItems .little 4 items) ((), ()) (unmark sent ++ [7])
        (counts.zip (items.map Item.received)) [7]) ∧
    ∃ sent u', (e.machine _).Reaches (writeItems 3 [.cmd cmd.OPEN], (), ()) [] sent (.ret [2], u') ∧
      unmark sent = htobe16 cmd.OPEN := by
  intro e items
  have he : Orderly e True True := Env.whole_prompt _
  obtain ⟨hto, hback⟩ := codec_round_trip he he (by decide : (0 : Fd) ≤ 3)
    (by decide : (0 : Fd) ≤ 4) .little
  refine ⟨hto items items ?_ rfl [7] ((), ()) ((), ()), ?_⟩
  · simp [items, Item.Fits, NulFree, Short]
  · have hone : ∀ x ∈ [Item.cmd cmd.OPEN], x.Fits := by simp [Item.Fits]
    have hshape : [Item.cmd 0].map Item.shape = [Item.cmd cmd.OPEN].map Item.shape := rfl
    obtain ⟨v, hr⟩ := does_readItems he (by decide : (0 : Fd) ≤ 4) .little hone hshape () ()
    obtain ⟨sent, u', hs, hb⟩ := hback _ _ _ _ _ _ hr (by simp [NoNulText, Item.enc, encCmd, mark])
      (by simp [Item.received]) ((), ())
    exact ⟨sent, u', hs, by simpa [Item.enc, encCmd] using hb⟩

end AgFS
