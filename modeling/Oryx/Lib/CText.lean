/-
Oryx/Lib/CText.lean

Texts as C has them: bytes, seen up to the first `'\0'`, and the functions of
its library that read them.
-/
import Oryx.Lib.LittleEndian
import Mathlib.Algebra.Field.Rat
import Mathlib.Data.List.TakeWhile

namespace Oryx

/-! ### C strings -/

/-- The bytes of a text in ASCII. -/
def ascii (s : String) : List Byte := s.toList.map fun c => BitVec.ofNat 8 c.toNat

/-- What a `char *` into these bytes shows: up to the first `'\0'`. -/
def cString (bytes : List Byte) : List Byte := bytes.takeWhile (· ≠ 0)

theorem zero_notMem_cString (bytes : List Byte) : 0 ∉ cString bytes := by
  intro h
  exact absurd (List.mem_takeWhile_imp h) (by decide)

/-- `isspace` in the C locale. -/
def isspace (b : Byte) : Bool := b = 0x20 ∨ (0x09 ≤ b ∧ b ≤ 0x0D)

/-! ### Numbers in text -/

def isdigit (b : Byte) : Bool := 0x30 ≤ b ∧ b ≤ 0x39

/-- The number that the leading digits are, in base 10. -/
def digitsValue (s : List Byte) : Nat :=
  (s.takeWhile isdigit).foldl (fun n b => 10 * n + (b.toNat - 0x30)) 0

/-- The sign and the number at the start of a text, as `strtol` and `strtoul` read it. -/
def signedDigits (s : List Byte) : Bool × Nat :=
  match s.dropWhile isspace with
  | 0x2D :: rest => (true, digitsValue rest)
  | 0x2B :: rest => (false, digitsValue rest)
  | rest => (false, digitsValue rest)

/-- `strtol` on a 64-bit `long`: numbers out of range are cut to the nearest in range. -/
def strtol (s : List Byte) : Int :=
  let (neg, n) := signedDigits s
  if neg then max (-(2 ^ 63)) (-n) else min (2 ^ 63 - 1) n

/-- `atoi`: `strtol`, converted to `int`. -/
def atoi (s : List Byte) : Int := (BitVec.ofInt 32 (strtol s)).toInt

/-- `strtoul` on a 64-bit `unsigned long`: a minus sign negates in it. -/
def strtoul (s : List Byte) : BitVec 64 :=
  let (neg, n) := signedDigits s
  if 2 ^ 64 ≤ n then -1 else if neg then -(BitVec.ofNat 64 n) else BitVec.ofNat 64 n

/-- `atof` on a decimal number without an exponent. -/
def atofDecimal (s : List Byte) : ℚ :=
  let (neg, whole) := signedDigits s
  let rest := ((s.dropWhile isspace).dropWhile fun b => b = 0x2D ∨ b = 0x2B).dropWhile isdigit
  let decimals := if rest.head? = some 0x2E then (rest.drop 1).takeWhile isdigit else []
  let value : ℚ := whole + digitsValue decimals / 10 ^ decimals.length
  if neg then -value else value

/-! ### Numbers printed -/

/-- The digits of a number in base 10, the highest first; `fuel` bounds how many. -/
def printDigits : Nat → Nat → List Byte
  | 0, _ => []
  | fuel + 1, n =>
      if n < 10 then [BitVec.ofNat 8 (0x30 + n)]
      else printDigits fuel (n / 10) ++ [BitVec.ofNat 8 (0x30 + n % 10)]

/-- `%u`. -/
def printNat (n : Nat) : List Byte := printDigits (n + 1) n

/-- `%d`. -/
def printInt (i : Int) : List Byte :=
  if i < 0 then 0x2D :: printNat i.natAbs else printNat i.natAbs

theorem printDigits_fuel {fuel fuel' n : Nat} (h : n < fuel) (h' : n < fuel') :
    printDigits fuel n = printDigits fuel' n := by
  induction fuel generalizing fuel' n with
  | zero => omega
  | succ fuel ih =>
    obtain ⟨fuel', rfl⟩ : ∃ k, fuel' = k + 1 := ⟨fuel' - 1, by omega⟩
    rw [printDigits, printDigits]
    split
    · rfl
    · rw [@ih fuel' (n / 10) (by omega) (by omega)]

theorem printNat_eq (n : Nat) :
    printNat n =
      if n < 10 then [BitVec.ofNat 8 (0x30 + n)]
      else printNat (n / 10) ++ [BitVec.ofNat 8 (0x30 + n % 10)] := by
  rw [printNat, printDigits, printNat]
  split
  · rfl
  · rw [@printDigits_fuel n (n / 10 + 1) (n / 10) (by omega) (Nat.lt_succ_self _)]

theorem toNat_digit {d : Nat} (h : d < 10) : (BitVec.ofNat 8 (0x30 + d)).toNat = 0x30 + d := by
  rw [BitVec.toNat_ofNat]
  omega

theorem isdigit_digit {d : Nat} (h : d < 10) : isdigit (BitVec.ofNat 8 (0x30 + d)) = true := by
  have hd := toNat_digit h
  refine decide_eq_true ⟨?_, ?_⟩
  · rw [BitVec.le_def, hd]
    exact Nat.le_add_right _ _
  · rw [BitVec.le_def, hd]
    show 0x30 + d ≤ 0x39
    omega

theorem isdigit_of_mem_printNat {n : Nat} {b : Byte} (h : b ∈ printNat n) : isdigit b = true := by
  induction n using Nat.strongRecOn with
  | ind n ih =>
    rw [printNat_eq] at h
    split at h
    · next hn =>
      rw [List.mem_singleton.mp h]
      exact isdigit_digit hn
    · rcases List.mem_append.mp h with hfront | hlast
      · exact ih (n / 10) (by omega) hfront
      · rw [List.mem_singleton.mp hlast]
        exact isdigit_digit (Nat.mod_lt n (by decide))

/-- What `%d` prints is made of digits and minus signs. -/
theorem isdigit_or_of_mem_printInt {i : Int} {b : Byte} (h : b ∈ printInt i) :
    isdigit b = true ∨ b = 0x2D := by
  rw [printInt] at h
  split at h
  · rcases List.mem_cons.mp h with hsign | hdigits
    · exact .inr hsign
    · exact .inl (isdigit_of_mem_printNat hdigits)
  · exact .inl (isdigit_of_mem_printNat h)

theorem printNat_ne_nil (n : Nat) : printNat n ≠ [] := by
  rw [printNat_eq]
  split
  · exact List.cons_ne_nil _ _
  · exact List.append_ne_nil_of_right_ne_nil _ (List.cons_ne_nil _ _)

/-- The digits of a number are read as the number. -/
theorem digitsValue_printNat (n : Nat) : digitsValue (printNat n) = n := by
  have htake : (printNat n).takeWhile isdigit = printNat n :=
    List.takeWhile_eq_self_iff.mpr fun b hb => isdigit_of_mem_printNat hb
  rw [digitsValue, htake]
  induction n using Nat.strongRecOn with
  | ind n ih =>
    rw [printNat_eq]
    split
    · next hn =>
      rw [List.foldl_cons, List.foldl_nil, toNat_digit hn]
      omega
    · have hfront := ih (n / 10) (by omega)
        (List.takeWhile_eq_self_iff.mpr fun b hb => isdigit_of_mem_printNat hb)
      rw [List.foldl_append, hfront, List.foldl_cons, List.foldl_nil,
        toNat_digit (Nat.mod_lt n (by decide))]
      omega

/-- A digit is no space, no sign and no end of a line or a text. -/
theorem of_isdigit {b : Byte} (h : isdigit b = true) :
    isspace b = false ∧ b ≠ 0x2D ∧ b ≠ 0x2B ∧ b ≠ 0x0A ∧ b ≠ 0 := by
  revert b
  decide

/-- A digit in front is read as such. -/
theorem signedDigits_of_digits {s : List Byte} (hne : s ≠ []) (h : ∀ b ∈ s, isdigit b = true) :
    signedDigits s = (false, digitsValue s) := by
  cases s with
  | nil => exact absurd rfl hne
  | cons b s =>
    obtain ⟨hspace, hminus, hplus, -⟩ := of_isdigit (h b List.mem_cons_self)
    rw [signedDigits, List.dropWhile_cons_of_neg (by rw [hspace]; exact Bool.false_ne_true)]
    split
    · next heq =>
      cases heq
      exact absurd rfl hminus
    · next heq =>
      cases heq
      exact absurd rfl hplus
    · rfl

theorem signedDigits_printNat (n : Nat) : signedDigits (printNat n) = (false, n) := by
  rw [signedDigits_of_digits (printNat_ne_nil n) fun b hb => isdigit_of_mem_printNat hb,
    digitsValue_printNat]

theorem signedDigits_printInt (i : Int) :
    signedDigits (printInt i) = (decide (i < 0), i.natAbs) := by
  rw [printInt]
  split
  · next hneg =>
    rw [decide_eq_true hneg, signedDigits, List.dropWhile_cons_of_neg (by decide)]
    show (true, digitsValue (printNat i.natAbs)) = _
    rw [digitsValue_printNat]
  · next hneg => rw [decide_eq_false hneg, signedDigits_printNat]

/-- `atoi` reads what `%d` prints. -/
theorem atoi_printInt {i : Int} (hlow : -(2 ^ 31) ≤ i) (hhigh : i < 2 ^ 31) :
    atoi (printInt i) = i := by
  have hstrtol : strtol (printInt i) = i := by
    rw [strtol, signedDigits_printInt]
    dsimp only
    split
    · next hneg =>
      have hneg := of_decide_eq_true hneg
      omega
    · next hneg =>
      have hneg := of_decide_eq_false (Bool.eq_false_of_not_eq_true hneg)
      omega
  rw [atoi, hstrtol, BitVec.toInt_ofInt]
  exact Int.bmod_eq_of_le (by omega) (by omega)

/-- `strtoul` reads what `%u` prints. -/
theorem strtoul_printNat {n : Nat} (h : n < 2 ^ 64) : strtoul (printNat n) = BitVec.ofNat 64 n := by
  rw [strtoul, signedDigits_printNat]
  dsimp only
  rw [if_neg (Nat.not_le.mpr h), if_neg Bool.false_ne_true]

/-! ### Lines -/

/-- Pieces that end in the separator come back when the text is split at it. -/
theorem splitOn_terminated {pieces : List (List Byte)} {b : Byte} (h : ∀ l ∈ pieces, b ∉ l) :
    (pieces.flatMap (· ++ [b])).splitOn b = pieces ++ [[]] := by
  induction pieces with
  | nil => rfl
  | cons l pieces ih =>
    rw [List.flatMap_cons, List.append_assoc, List.singleton_append,
      List.splitOn_append_cons_self_of_not_mem (h l List.mem_cons_self),
      ih fun l' hl' => h l' (List.mem_cons_of_mem _ hl'), List.cons_append]

/-- A piece of a split is made of the text. -/
theorem mem_of_mem_of_splitOn {text line : List Byte} {b c : Byte} (h : line ∈ text.splitOn b)
    (hc : c ∈ line) : c ∈ text := by
  induction text generalizing line with
  | nil =>
    rw [List.splitOn_nil, List.mem_singleton] at h
    rw [h] at hc
    cases hc
  | cons d text ih =>
    rw [List.splitOn_cons_eq_if_modifyHead] at h
    split at h
    · rcases List.mem_cons.mp h with rfl | hrest
      · cases hc
      · exact List.mem_cons_of_mem _ (ih hrest hc)
    · cases hs : text.splitOn b with
      | nil => exact absurd hs (List.splitOn_ne_nil _ _)
      | cons first rest =>
        rw [hs, List.modifyHead_cons] at h
        rcases List.mem_cons.mp h with rfl | hrest
        · rcases List.mem_cons.mp hc with rfl | htail
          · exact List.mem_cons_self
          · exact List.mem_cons_of_mem _ (ih (hs ▸ List.mem_cons_self) htail)
        · exact List.mem_cons_of_mem _ (ih (hs ▸ List.mem_cons_of_mem _ hrest) hc)

/-- A piece of a split has no separator in it. -/
theorem notMem_of_mem_splitOn {text line : List Byte} {b : Byte} (h : line ∈ text.splitOn b) :
    b ∉ line := by
  induction text generalizing line with
  | nil =>
    rw [List.splitOn_nil, List.mem_singleton] at h
    rw [h]
    exact List.not_mem_nil
  | cons c text ih =>
    rw [List.splitOn_cons_eq_if_modifyHead] at h
    split at h
    · rcases List.mem_cons.mp h with rfl | hrest
      · exact List.not_mem_nil
      · exact ih hrest
    · next hc =>
      cases hs : text.splitOn b with
      | nil => exact absurd hs (List.splitOn_ne_nil _ _)
      | cons first rest =>
        rw [hs, List.modifyHead_cons] at h
        rcases List.mem_cons.mp h with rfl | hrest
        · intro hmem
          rcases List.mem_cons.mp hmem with rfl | htail
          · exact hc (beq_self_eq_true _)
          · exact ih (hs ▸ List.mem_cons_self) htail
        · exact ih (hs ▸ List.mem_cons_of_mem _ hrest)

end Oryx
