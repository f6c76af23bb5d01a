/-
Oryx/Lib/Fips180.lean

SHA-256 as FIPS 180-4 defines it, on messages of whole bytes.

The constants are what the standard says they are: the first 32 bits of the
fractional parts of the cube roots of the first 64 primes, and of the square
roots of the first eight.  `map_rootFraction` recognizes a table of them.  A
message is admissible if its length in bits is below `2 ^ 64`.
-/
import Oryx.Lib.BlockStream
import Oryx.Lib.LittleEndian
import Mathlib.Analysis.SpecialFunctions.Pow.NthRootLemmas
import Mathlib.Data.Nat.Prime.Basic

namespace Oryx.Fips180

open BlockStream

abbrev Word32 := BitVec 32

/-! ### Functions (4.1.2) -/

/-- `ROTR` and `SHR`. -/
def rotr (n : Nat) (x : Word32) : Word32 := x.rotateRight n
def shr (n : Nat) (x : Word32) : Word32 := x >>> n

def ch (x y z : Word32) : Word32 := (x &&& y) ^^^ (~~~x &&& z)
def maj (x y z : Word32) : Word32 := (x &&& y) ^^^ (x &&& z) ^^^ (y &&& z)
def bigSigma0 (x : Word32) : Word32 := rotr 2 x ^^^ rotr 13 x ^^^ rotr 22 x
def bigSigma1 (x : Word32) : Word32 := rotr 6 x ^^^ rotr 11 x ^^^ rotr 25 x
def smallSigma0 (x : Word32) : Word32 := rotr 7 x ^^^ rotr 18 x ^^^ shr 3 x
def smallSigma1 (x : Word32) : Word32 := rotr 17 x ^^^ rotr 19 x ^^^ shr 10 x

/-! ### Constants (4.2.2 and 5.3.3) -/

/-- The first 64 primes. -/
def firstPrimes : List Nat := (List.range 312).filter Nat.Prime

/-- The first 32 bits of the fractional part of the `k`-th root of `p`. -/
def rootFraction (k p : Nat) : Word32 := BitVec.ofNat 32 (Nat.nthRoot k (p * 2 ^ (32 * k)))

/-- `K_t`. -/
def roundConstant (t : Nat) : Word32 := rootFraction 3 (firstPrimes.getD t 0)

/-- `w` stands behind an integer part below 7 in the root of `p`, by the powers
of the two. -/
def RootBounds (k p : Nat) (w : Word32) : Prop :=
  ∃ i < 7, (i * 2 ^ 32 + w.toNat) ^ k ≤ p * 2 ^ (32 * k) ∧
    p * 2 ^ (32 * k) < (i * 2 ^ 32 + w.toNat + 1) ^ k

instance (k p : Nat) (w : Word32) : Decidable (RootBounds k p w) :=
  inferInstanceAs (Decidable (∃ i < 7, _ ∧ _))

theorem rootFraction_eq {k p : Nat} {w : Word32} (h : RootBounds k p w) :
    rootFraction k p = w := by
  obtain ⟨i, -, hle, hlt⟩ := h
  apply BitVec.eq_of_toNat_eq
  rw [rootFraction, Nat.nthRoot_eq_of_le_of_lt hle hlt, BitVec.toNat_ofNat,
    Nat.mul_add_mod_self_right, Nat.mod_eq_of_lt w.isLt]

/-- Below `18 ^ 2`, trial division by numbers below 18 finds the primes. -/
theorem prime_iff_of_lt {p : Nat} (h : p < 18 ^ 2) :
    p.Prime ↔ 2 ≤ p ∧ ∀ d < 18, 2 ≤ d → d < p → ¬ d ∣ p := by
  constructor
  · intro hp
    refine ⟨hp.two_le, fun d _ hd hdp hdvd => ?_⟩
    rcases hp.eq_one_or_self_of_dvd d hdvd with h1 | h1
    · omega
    · omega
  · rintro ⟨htwo, hall⟩
    rw [Nat.prime_def_le_sqrt]
    refine ⟨htwo, fun d hd hsqrt => ?_⟩
    have hsq : d ^ 2 ≤ p := Nat.le_sqrt'.mp hsqrt
    have hd18 : d < 18 := lt_of_pow_lt_pow_left₀ 2 (Nat.zero_le 18) (hsq.trans_lt h)
    exact hall d hd18 hd (by nlinarith)

theorem firstPrimes_eq : firstPrimes =
    (List.range 312).filter fun p => 2 ≤ p ∧ ∀ d < 18, 2 ≤ d → d < p → ¬ d ∣ p := by
  apply List.filter_congr
  intro p hp
  have hlt : p < 312 := List.mem_range.mp hp
  exact decide_eq_decide.mpr (prime_iff_of_lt (by omega))

theorem length_firstPrimes : firstPrimes.length = 64 := by
  rw [firstPrimes_eq]
  decide +kernel

/-- A table of root fractions of the first primes. -/
theorem map_rootFraction {k : Nat} {table : List Word32}
    (h : ∀ x ∈ firstPrimes.zip table, RootBounds k x.1 x.2) (hlen : table.length ≤ 64) :
    (List.range table.length).map (fun t => rootFraction k (firstPrimes.getD t 0)) = table := by
  apply List.ext_getElem (by simp)
  intro t ht htable
  have hprime : t < firstPrimes.length := by
    rw [length_firstPrimes]
    omega
  have hmem : (firstPrimes[t], table[t]) ∈ firstPrimes.zip table := by
    rw [← List.getElem_zip (h := by simp; omega)]
    exact List.getElem_mem _
  rw [List.getElem_map, List.getElem_range, List.getD_eq_getElem?_getD,
    List.getElem?_eq_getElem hprime, Option.getD_some]
  exact rootFraction_eq (h _ hmem)

/-! ### Hash computation (6.2) -/

/-- The eight words of a hash value, also the working variables. -/
structure Vars where
  a : Word32
  b : Word32
  c : Word32
  d : Word32
  e : Word32
  f : Word32
  g : Word32
  h : Word32

/-- `H⁽⁰⁾`. -/
def initialHash : Vars :=
  let root (i : Nat) : Word32 := rootFraction 2 (firstPrimes.getD i 0)
  ⟨root 0, root 1, root 2, root 3, root 4, root 5, root 6, root 7⟩

/-- `W_t`, from the words of a block. -/
def messageSchedule (m : Nat → Word32) (t : Nat) : Word32 :=
  if t < 16 then m t
  else
    smallSigma1 (messageSchedule m (t - 2)) + messageSchedule m (t - 7) +
      smallSigma0 (messageSchedule m (t - 15)) + messageSchedule m (t - 16)
  termination_by t
  decreasing_by all_goals omega

/-- Round `t`. -/
def round (w : Nat → Word32) (v : Vars) (t : Nat) : Vars :=
  let t1 := v.h + bigSigma1 v.e + ch v.e v.f v.g + roundConstant t + w t
  let t2 := bigSigma0 v.a + maj v.a v.b v.c
  { a := t1 + t2, b := v.a, c := v.b, d := v.c, e := v.d + t1, f := v.e, g := v.f, h := v.g }

/-- Word `j` of a block: four bytes, the first the most significant. -/
def blockWord (b : List Byte) (j : Nat) : Word32 :=
  b.getD (4 * j) 0 ++ b.getD (4 * j + 1) 0 ++ b.getD (4 * j + 2) 0 ++ b.getD (4 * j + 3) 0

/-- `H⁽ⁱ⁾` from `H⁽ⁱ⁻¹⁾` and block `i`. -/
def compress (H : Vars) (b : List Byte) : Vars :=
  let v := (List.range 64).foldl (round (messageSchedule (blockWord b))) H
  { a := H.a + v.a, b := H.b + v.b, c := H.c + v.c, d := H.d + v.d
    e := H.e + v.e, f := H.f + v.f, g := H.g + v.g, h := H.h + v.h }

/-! ### Padding (5.1.1) -/

/-- A message whose length in bits is below `2 ^ 64`. -/
abbrev Message := { m : List Byte // m.length < 2 ^ 61 }

/-- The length in bits. -/
def Message.bitLength (m : Message) : BitVec 64 :=
  BitVec.ofNatLT (8 * m.val.length) (by have := m.property; omega)

/-- The bytes of an integer, the most significant first. -/
def beBytes (n : Nat) (v : BitVec (8 * n)) : List Byte :=
  (List.range n).map fun i => v.extractLsb' (8 * (n - 1 - i)) 8

/-- How many zero bytes stand between the pad byte and the length of a message
of `l` bytes. -/
def zeroBytes (l : Nat) : Nat := (119 - l % 64) % 64

/-- The least number that brings the length to 56 mod 64. -/
theorem zeroBytes_spec (l : Nat) :
    (l + 1 + zeroBytes l) % 64 = 56 ∧ ∀ k, (l + 1 + k) % 64 = 56 → zeroBytes l ≤ k := by
  unfold zeroBytes
  refine ⟨?_, fun k hk => ?_⟩ <;> omega

/-- The padded message: a one bit, zeros, the length. -/
def pad (m : Message) : List Byte :=
  m.val ++ 0x80 :: (List.replicate (zeroBytes m.val.length) 0 ++ beBytes 8 m.bitLength)

/-- The digest: `H⁽ᴺ⁾` after the `N` blocks of the padded message. -/
def sha256 (m : Message) : List Byte :=
  let H := (blocksOf 64 (pad m)).foldl compress initialHash
  beBytes 4 H.a ++ beBytes 4 H.b ++ beBytes 4 H.c ++ beBytes 4 H.d ++
    beBytes 4 H.e ++ beBytes 4 H.f ++ beBytes 4 H.g ++ beBytes 4 H.h

end Oryx.Fips180
