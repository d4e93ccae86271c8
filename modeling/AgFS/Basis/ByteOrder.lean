import Mathlib.Data.Nat.ModEq
import Mathlib.Tactic.Ring
import Mathlib.Tactic.Positivity

/-! Network byte order, and integer variables seen as the bytes a host keeps them in. -/
namespace ByteOrder

/-- The low `w` bytes of a number, most significant first. -/
def beBytes : Nat → Nat → List UInt8
  | 0, _ => []
  | w + 1, n => UInt8.ofNat (n / 256 ^ w) :: beBytes w n

/-- The number that bytes spell, most significant first. -/
def beNat : List UInt8 → Nat
  | [] => 0
  | b :: bs => b.toNat * 256 ^ bs.length + beNat bs

@[simp] theorem beBytes_length (w n : Nat) : (beBytes w n).length = w := by
  induction w with
  | zero => rfl
  | succ w ih => simp [beBytes, ih]

theorem beNat_beBytes (w n : Nat) : beNat (beBytes w n) = n % 256 ^ w := by
  induction w with
  | zero => simp [beBytes, beNat, Nat.mod_one]
  | succ w ih =>
    have hb : (UInt8.ofNat (n / 256 ^ w)).toNat = n / 256 ^ w % 256 := by simp
    rw [beBytes, beNat, beBytes_length, ih, hb, pow_succ, Nat.mod_mul]
    ring

theorem beNat_lt (bs : List UInt8) : beNat bs < 256 ^ bs.length := by
  induction bs with
  | nil => simp [beNat]
  | cons b bs ih =>
    have hb : b.toNat ≤ 255 := Nat.le_of_lt_succ b.toNat_lt
    have hm := Nat.mul_le_mul_right (256 ^ bs.length) hb
    rw [beNat, List.length_cons, pow_succ]
    omega

private theorem beBytes_skip {w k : Nat} (h : w ≤ k) (a r : Nat) :
    beBytes w (a * 256 ^ k + r) = beBytes w r := by
  induction w with
  | zero => rfl
  | succ w ih =>
    have hk : 256 ^ k = 256 ^ w * (256 * 256 ^ (k - w - 1)) := by
      rw [← pow_succ', ← pow_add]
      congr 1
      omega
    have hd : (a * 256 ^ k + r) / 256 ^ w = r / 256 ^ w + 256 * (a * 256 ^ (k - w - 1)) := by
      rw [hk, show a * (256 ^ w * (256 * 256 ^ (k - w - 1))) + r =
        r + 256 ^ w * (256 * (a * 256 ^ (k - w - 1))) by ring]
      exact Nat.add_mul_div_left _ _ (by positivity)
    have hb : UInt8.ofNat ((a * 256 ^ k + r) / 256 ^ w) = UInt8.ofNat (r / 256 ^ w) := by
      apply UInt8.toNat_inj.mp
      simp [hd]
    rw [beBytes, beBytes, ih (by omega), hb]

theorem beBytes_beNat {w : Nat} {bs : List UInt8} (h : bs.length = w) :
    beBytes w (beNat bs) = bs := by
  subst h
  induction bs with
  | nil => rfl
  | cons b bs ih =>
    have hd : (b.toNat * 256 ^ bs.length + beNat bs) / 256 ^ bs.length = b.toNat := by
      rw [Nat.mul_comm, Nat.mul_add_div (by positivity), Nat.div_eq_of_lt (beNat_lt bs), Nat.add_zero]
    rw [List.length_cons, beBytes, beNat, hd, beBytes_skip le_rfl, ih]
    simp

/-- The order in which a host keeps the bytes of an integer. -/
inductive Endian where
  | little
  | big
  deriving DecidableEq

/-- The memory of a `w`-byte integer variable that holds `n`. -/
def Endian.store (host : Endian) (w n : Nat) : List UInt8 :=
  match host with
  | .little => (beBytes w n).reverse
  | .big => beBytes w n

@[simp] theorem Endian.store_length (host : Endian) (w n : Nat) : (host.store w n).length = w := by
  cases host <;> simp [store]

/-- The integer that the memory of a variable spells. -/
def Endian.load (host : Endian) (memory : List UInt8) : Nat :=
  match host with
  | .little => beNat memory.reverse
  | .big => beNat memory

theorem Endian.load_lt (host : Endian) (memory : List UInt8) :
    host.load memory < 256 ^ memory.length := by
  cases host with
  | little => simpa [load] using beNat_lt memory.reverse
  | big => exact beNat_lt memory

theorem Endian.store_load (host : Endian) {w : Nat} {memory : List UInt8} (h : memory.length = w) :
    host.store w (host.load memory) = memory := by
  cases host with
  | little => rw [store, load, beBytes_beNat (by rw [List.length_reverse, h]), List.reverse_reverse]
  | big => exact beBytes_beNat h

/-- Memory after `new` has been copied over its beginning. -/
def overlay (old new : List UInt8) : List UInt8 := new ++ old.drop new.length

@[simp] theorem overlay_nil (old : List UInt8) : overlay old [] = old := rfl

theorem overlay_full {old new : List UInt8} (h : old.length ≤ new.length) :
    overlay old new = new := by
  rw [overlay, List.drop_eq_nil_of_le h, List.append_nil]

@[simp] theorem overlay_length {old new : List UInt8} (h : new.length ≤ old.length) :
    (overlay old new).length = old.length := by
  simp [overlay]
  omega

private theorem beNat_append_le (head : List UInt8) {bs cs : List UInt8} (h : beNat bs ≤ beNat cs)
    (hlen : bs.length = cs.length) : beNat (head ++ bs) ≤ beNat (head ++ cs) := by
  induction head with
  | nil => exact h
  | cons b head ih =>
    simp only [List.cons_append, beNat, List.length_append, hlen]
    exact Nat.add_le_add_left ih _

theorem beNat_overlay_le {bs new : List UInt8} (h : new <+: bs) :
    beNat (overlay (List.replicate bs.length 0) new) ≤ beNat bs := by
  obtain ⟨rest, rfl⟩ := h
  have hzero (n : Nat) : beNat (List.replicate n 0) = 0 := by
    induction n with
    | zero => rfl
    | succ n ih => simpa [List.replicate_succ, beNat] using ih
  rw [overlay, List.drop_replicate, List.length_append, Nat.add_sub_cancel_left]
  exact beNat_append_le new (by rw [hzero]; exact Nat.zero_le _) List.length_replicate

theorem overlay_set {old new : List UInt8} (h : old.length = new.length + 1) (b : UInt8) :
    (overlay old new).set new.length b = new ++ [b] := by
  have hd : (old.drop new.length).length = 1 := by
    rw [List.length_drop]
    omega
  obtain ⟨x, hx⟩ := List.length_eq_one_iff.mp hd
  rw [overlay, hx, List.set_append_right _ _ le_rfl, Nat.sub_self, List.set_cons_zero]

end ByteOrder
