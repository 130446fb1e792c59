import Mathlib.Data.Int.ModEq
import Mathlib.Tactic.Ring
import Mathlib.Tactic.Linarith

/-!
# Little-endian integers

Unsigned words of any byte width and the two's-complement reading of the same
bytes. Encoding keeps the value modulo the width; decoding a value of the right
length loses nothing.
-/

namespace LittleEndian

/-- The low `k` bytes of `n`, least significant first. -/
def ofNat : Nat → Nat → List UInt8
  | 0, _ => []
  | k + 1, n => UInt8.ofNat n :: ofNat k (n / 256)

/-- The unsigned value of a byte list, least significant first. -/
def toNat : List UInt8 → Nat
  | [] => 0
  | b :: bs => b.toNat + 256 * toNat bs

/-- A number of `k` bytes has `k` bytes. -/
@[simp] theorem length_ofNat (k n : Nat) : (ofNat k n).length = k := by
  induction k generalizing n with
  | zero => rfl
  | succ k ih => simp [ofNat, ih]

/-- The bytes bound the number. -/
theorem toNat_lt (bs : List UInt8) : toNat bs < 256 ^ bs.length := by
  induction bs with
  | nil => simp [toNat]
  | cons b bs ih =>
    have hb : b.toNat < 256 := b.toNat_lt
    simp only [toNat, List.length_cons, pow_succ]
    omega

/-- Encoding then decoding keeps the value modulo the width. -/
theorem toNat_ofNat (k n : Nat) : toNat (ofNat k n) = n % 256 ^ k := by
  induction k generalizing n with
  | zero => simp [ofNat, toNat, Nat.mod_one]
  | succ k ih =>
    have hb : (UInt8.ofNat n).toNat = n % 256 := by simp
    rw [ofNat, toNat, ih, hb, pow_succ, Nat.mul_comm (256 ^ k) 256, Nat.mod_mul]

/-- Decoding then encoding at the same width is the identity. -/
theorem ofNat_toNat (bs : List UInt8) : ofNat bs.length (toNat bs) = bs := by
  induction bs with
  | nil => rfl
  | cons b bs ih =>
    have hb : b.toNat < 256 := b.toNat_lt
    have hlow : UInt8.ofNat (b.toNat + 256 * toNat bs) = b := by
      apply UInt8.toNat_inj.mp
      simp only [UInt8.toNat_ofNat']
      omega
    have hhigh : (b.toNat + 256 * toNat bs) / 256 = toNat bs := by omega
    rw [List.length_cons, toNat, ofNat, hlow, hhigh, ih]

theorem toNat_replicate_zero (k : Nat) : toNat (List.replicate k 0) = 0 := by
  induction k with
  | zero => rfl
  | succ k ih => simp [List.replicate_succ, toNat, ih]

/-- Zero is zero in every byte. -/
theorem ofNat_zero (k : Nat) : ofNat k 0 = List.replicate k 0 := by
  induction k with
  | zero => rfl
  | succ k ih => rw [ofNat, Nat.zero_div, ih, List.replicate_succ]; rfl

/-- The low bytes of an encoding come first. -/
theorem ofNat_add (j k n : Nat) : ofNat (j + k) n = ofNat j n ++ ofNat k (n / 256 ^ j) := by
  induction j generalizing n with
  | zero => simp [ofNat]
  | succ j ih =>
    rw [Nat.add_right_comm, ofNat, ofNat, ih, Nat.div_div_eq_div_mul, pow_succ',
      List.cons_append]

/-- Encode a signed integer in `k` bytes, two's complement. -/
def ofInt (k : Nat) (x : Int) : List UInt8 := ofNat k (x % (256 ^ k : Nat)).toNat

/-- The two's-complement value of a byte list. -/
@[irreducible] def toInt (bs : List UInt8) : Int :=
  if 2 * toNat bs < 256 ^ bs.length then toNat bs else toNat bs - (256 ^ bs.length : Nat)

@[simp] theorem length_ofInt (k : Nat) (x : Int) : (ofInt k x).length = k := length_ofNat _ _

theorem ofInt_zero (k : Nat) : ofInt k 0 = List.replicate k 0 := by
  simp [ofInt, ofNat_zero]

/-- A nonnegative integer is encoded as the natural number it is. -/
theorem ofInt_natCast (k n : Nat) : ofInt k n = ofNat k (n % 256 ^ k) := by
  rw [ofInt, ← Int.natCast_mod, Int.toNat_natCast]

/-- Nonnegative values in range are decoded unsigned. -/
theorem toNat_ofInt_natCast {k n : Nat} (h : n < 256 ^ k) : toNat (ofInt k n) = n := by
  rw [ofInt_natCast, toNat_ofNat, Nat.mod_mod, Nat.mod_eq_of_lt h]

/-- Nonnegative values below half the range decode to themselves. -/
theorem toInt_ofInt_natCast {k n : Nat} (h : 2 * n < 256 ^ k) : toInt (ofInt k n) = n := by
  have hv : toNat (ofInt k n) = n := toNat_ofInt_natCast (by omega)
  simp only [toInt, hv, length_ofInt, h, ite_true]

/-- A signed value of the right width re-encodes to the bytes it was read from. -/
theorem ofInt_toInt (bs : List UInt8) : ofInt bs.length (toInt bs) = bs := by
  have hlt := toNat_lt bs
  have hmod : (toInt bs % (256 ^ bs.length : Nat)).toNat = toNat bs := by
    unfold toInt
    split
    · rw [← Int.natCast_mod, Int.toNat_natCast, Nat.mod_eq_of_lt hlt]
    · rw [Int.sub_emod_right, ← Int.natCast_mod, Int.toNat_natCast, Nat.mod_eq_of_lt hlt]
  rw [ofInt, hmod, ofNat_toNat]

/-- And back. -/
@[simp] theorem toInt_replicate_zero (k : Nat) : toInt (List.replicate k 0) = 0 := by
  have hpos : 0 < 256 ^ k := by positivity
  simp [toInt, toNat_replicate_zero]

end LittleEndian
