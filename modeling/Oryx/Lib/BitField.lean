/-
Oryx/Lib/BitField.lean

Bit fields of a machine word.

`bits w lo len` is the `len`-bit field of `w` that starts at bit `lo`.  An
encoder builds a word by OR-ing shifted operands into a constant whose field
there is empty; `toNat_or_shiftLeft` says that such an OR is an addition, so
the word of a whole encoder is a sum of terms `operand * 2 ^ position` and
reading any field back is linear arithmetic.
-/
import Mathlib.Tactic.Linarith

namespace Oryx

/-! Numerals stand for fields of two, four and five bits. -/

instance neZero4 : NeZero 4 := ⟨by decide⟩
instance neZero16 : NeZero 16 := ⟨by decide⟩
instance neZero32 : NeZero 32 := ⟨by decide⟩

/-- The `len` bits of `w` from bit `lo` up. -/
def bits {n : Nat} (w : BitVec n) (lo len : Nat) : Nat := w.toNat / 2 ^ lo % 2 ^ len

theorem bits_lt {n : Nat} (w : BitVec n) (lo len : Nat) : bits w lo len < 2 ^ len :=
  Nat.mod_lt _ (Nat.two_pow_pos len)

/-- On naturals: OR into an empty field is addition. -/
theorem or_mul_two_pow {base x k len : Nat} (hx : x < 2 ^ len)
    (hb : base / 2 ^ k % 2 ^ len = 0) : base ||| x * 2 ^ k = base + x * 2 ^ k := by
  obtain ⟨hi, hhi⟩ := Nat.dvd_of_mod_eq_zero hb
  have hlow : base % 2 ^ k < 2 ^ k := Nat.mod_lt _ (Nat.two_pow_pos k)
  have hsplit : base = (2 ^ len * hi) <<< k + base % 2 ^ k := by
    rw [Nat.shiftLeft_eq, ← hhi, Nat.mul_comm]
    exact (Nat.div_add_mod base (2 ^ k)).symm
  have hmid : (2 ^ len * hi) ||| x = 2 ^ len * hi + x :=
    (Nat.two_pow_add_eq_or_of_lt hx hi).symm
  calc base ||| x * 2 ^ k
      = ((2 ^ len * hi) <<< k ||| base % 2 ^ k) ||| x <<< k := by
        rw [← Nat.shiftLeft_eq x, ← Nat.shiftLeft_add_eq_or_of_lt hlow, ← hsplit]
    _ = ((2 ^ len * hi ||| x) <<< k) ||| base % 2 ^ k := by
        rw [Nat.shiftLeft_or_distrib, Nat.or_assoc, Nat.or_comm (base % 2 ^ k), ← Nat.or_assoc]
    _ = (2 ^ len * hi + x) <<< k + base % 2 ^ k := by
        rw [hmid, Nat.shiftLeft_add_eq_or_of_lt hlow]
    _ = base + x * 2 ^ k := by
        rw [Nat.shiftLeft_eq, Nat.add_mul, ← Nat.shiftLeft_eq (2 ^ len * hi)]
        omega

/-- OR-ing an operand into an empty field of a word adds it there. -/
theorem toNat_or_shiftLeft {base x : BitVec 32} {k len : Nat} (hx : x.toNat < 2 ^ len)
    (hfit : len + k ≤ 32) (hb : bits base k len = 0) :
    (base ||| x <<< k).toNat = base.toNat + x.toNat * 2 ^ k := by
  have hlt : x.toNat * 2 ^ k < 2 ^ 32 := calc
    x.toNat * 2 ^ k < 2 ^ len * 2 ^ k := Nat.mul_lt_mul_of_pos_right hx (Nat.two_pow_pos k)
    _ = 2 ^ (len + k) := (Nat.pow_add 2 len k).symm
    _ ≤ 2 ^ 32 := Nat.pow_le_pow_right (by decide) hfit
  rw [BitVec.toNat_or, BitVec.toNat_shiftLeft, Nat.shiftLeft_eq, Nat.mod_eq_of_lt hlt]
  exact or_mul_two_pow hx hb

/-- The unshifted case: an operand in the lowest field. -/
theorem toNat_or_low {base x : BitVec 32} {len : Nat} (hx : x.toNat < 2 ^ len)
    (hb : bits base 0 len = 0) : (base ||| x).toNat = base.toNat + x.toNat := by
  have h := @or_mul_two_pow base.toNat x.toNat 0 len hx hb
  rwa [Nat.pow_zero, Nat.mul_one, ← BitVec.toNat_or] at h

end Oryx
