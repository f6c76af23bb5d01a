/-
Oryx/Lib/LittleEndian.lean

Little-endian byte strings of a fixed width, and the two ways programs use
them: writing a machine integer into a buffer, and reading one back at an
offset.

`leBytes n v` is the `n`-byte string of `v` (byte `i` is `v >> 8 i`), and
`ofLeBytes` reads a string back.  They are inverse on `n`-byte values
(`ofLeBytes_leBytes`, `leBytes_ofLeBytes`), which is all a codec needs: a
header written as a chain of appends is read back by dropping the earlier
fields (`drop_leBytes_append`) and taking the field's own bytes
(`take_leBytes_append`).
-/
import Mathlib.Tactic.Linarith

namespace Oryx

abbrev Byte := BitVec 8

instance lawfulBEqByte : LawfulBEq Byte := inferInstance

/-! ### Writing and reading -/

/-- The `n` low bytes of `v`, least significant first. -/
def leBytes : Nat → Nat → List Byte
  | 0, _ => []
  | n + 1, v => BitVec.ofNat 8 v :: leBytes n (v / 256)

/-- The value of a little-endian byte string. -/
def ofLeBytes : List Byte → Nat
  | [] => 0
  | b :: bs => b.toNat + 256 * ofLeBytes bs

@[simp] theorem length_leBytes (n v : Nat) : (leBytes n v).length = n := by
  induction n generalizing v with
  | zero => rfl
  | succ n ih => simp [leBytes, ih]

/-- Byte `i` of `v` is `v` shifted right by `8 i`, as a C cast takes it. -/
theorem getElem?_leBytes {n i : Nat} (v : Nat) (hi : i < n) :
    (leBytes n v)[i]? = some (BitVec.ofNat 8 (v / 256 ^ i)) := by
  induction n generalizing v i with
  | zero => omega
  | succ n ih =>
    cases i with
    | zero => simp [leBytes]
    | succ i =>
      rw [leBytes, List.getElem?_cons_succ, ih _ (by omega), Nat.div_div_eq_div_mul,
        Nat.pow_succ, Nat.mul_comm]

theorem ofLeBytes_lt (bs : List Byte) : ofLeBytes bs < 256 ^ bs.length := by
  induction bs with
  | nil => simp [ofLeBytes]
  | cons b bs ih =>
    have hb : b.toNat < 256 := b.isLt
    simp only [ofLeBytes, List.length_cons, Nat.pow_succ]
    omega

/-- Reading what was written gives the value back, cut to the width. -/
theorem ofLeBytes_leBytes (n v : Nat) : ofLeBytes (leBytes n v) = v % 256 ^ n := by
  induction n generalizing v with
  | zero => simp [leBytes, ofLeBytes, Nat.mod_one]
  | succ n ih =>
    rw [leBytes, ofLeBytes, ih, Nat.pow_succ, Nat.mul_comm (256 ^ n), Nat.mod_mul]
    simp

/-- A byte string is the string of its own value. -/
theorem leBytes_ofLeBytes (bs : List Byte) : leBytes bs.length (ofLeBytes bs) = bs := by
  induction bs with
  | nil => rfl
  | cons b bs ih =>
    have hb : b.toNat < 256 := b.isLt
    have hlow : BitVec.ofNat 8 (b.toNat + 256 * ofLeBytes bs) = b := by
      apply BitVec.eq_of_toNat_eq
      simp only [BitVec.toNat_ofNat]
      omega
    have hhigh : (b.toNat + 256 * ofLeBytes bs) / 256 = ofLeBytes bs := by omega
    simp only [List.length_cons, leBytes, ofLeBytes, hlow, hhigh, ih]

/-! ### Machine integers

`putLe` and `getLe` are the codec at a machine width of `8 n` bits. -/

/-- The bytes of an `8 n`-bit integer. -/
def putLe (n : Nat) (v : BitVec (8 * n)) : List Byte := leBytes n v.toNat

/-- The `8 n`-bit integer whose bytes start the buffer. -/
def getLe (n : Nat) (buf : List Byte) : BitVec (8 * n) :=
  BitVec.ofNat (8 * n) (ofLeBytes (buf.take n))

theorem two_pow_eight_mul (n : Nat) : 2 ^ (8 * n) = 256 ^ n := by
  rw [Nat.pow_mul]

@[simp] theorem length_putLe (n : Nat) (v : BitVec (8 * n)) : (putLe n v).length = n :=
  length_leBytes n _

/-- Dropping past a field of a chain of appends. -/
theorem drop_putLe_append {n k : Nat} (v : BitVec (8 * n)) (rest : List Byte) (h : n ≤ k) :
    (putLe n v ++ rest).drop k = rest.drop (k - n) := by
  rw [List.drop_append, List.drop_of_length_le (by simpa using h), length_putLe,
    List.nil_append]

@[simp] theorem take_putLe_append (n : Nat) (v : BitVec (8 * n)) (rest : List Byte) :
    (putLe n v ++ rest).take n = putLe n v := by
  rw [List.take_append_of_le_length (by simp), List.take_of_length_le (by simp)]

/-- A field is read back from where it was written. -/
@[simp] theorem getLe_putLe_append (n : Nat) (v : BitVec (8 * n)) (rest : List Byte) :
    getLe n (putLe n v ++ rest) = v := by
  have hv : v.toNat < 256 ^ n := by
    rw [← two_pow_eight_mul]; exact v.isLt
  rw [getLe, take_putLe_append, putLe, ofLeBytes_leBytes, Nat.mod_eq_of_lt hv]
  simp only [BitVec.ofNat_toNat, BitVec.setWidth_eq]

/-- Writing back what was read gives the bytes themselves. -/
theorem putLe_getLe {n : Nat} {buf : List Byte} (h : n ≤ buf.length) :
    putLe n (getLe n buf) = buf.take n := by
  have hlen : (buf.take n).length = n := by simp [h]
  have hlt : ofLeBytes (buf.take n) < 2 ^ (8 * n) := by
    have := ofLeBytes_lt (buf.take n)
    rwa [hlen, ← two_pow_eight_mul] at this
  have e := leBytes_ofLeBytes (buf.take n)
  rw [hlen] at e
  rw [putLe, getLe, BitVec.toNat_ofNat, Nat.mod_eq_of_lt hlt, e]

theorem putLe_injective {n : Nat} {v w : BitVec (8 * n)} (h : putLe n v = putLe n w) :
    v = w := by
  have e := congrArg (getLe n) (congrArg (· ++ []) h)
  simpa only [getLe_putLe_append] using e

end Oryx
