/-
Oryx/Lib/X86/Flags.lean

The x86 status flags SF, ZF and OF of 64-bit operations, and the conditions
that read them.  CF, PF and AF are left out: no signed or equality condition
depends on them.
-/
import Mathlib.Data.BitVec
import Oryx.Lib.BitField

namespace Oryx.X86

structure Flags where
  sf : Bool
  zf : Bool
  of : Bool
  deriving DecidableEq, Repr

/-- The flags of `a + b`: OF says that the signed sum does not fit. -/
def addFlags (a b : BitVec 64) : Flags where
  sf := (a + b).msb
  zf := a + b == 0
  of := decide ((a + b).toInt ≠ a.toInt + b.toInt)

/-- The flags of `a - b`. -/
def subFlags (a b : BitVec 64) : Flags where
  sf := (a - b).msb
  zf := a - b == 0
  of := decide ((a - b).toInt ≠ a.toInt - b.toInt)

/-- The flags of a logical result. -/
def logicFlags (r : BitVec 64) : Flags where
  sf := r.msb
  zf := r == 0
  of := false

/-- The signed and equality conditions. -/
inductive Cond
  | e
  | ne
  | l
  | ge
  | le
  | g
  deriving DecidableEq, Repr

def Cond.holds : Cond → Flags → Bool
  | .e, f => f.zf
  | .ne, f => !f.zf
  | .l, f => f.sf != f.of
  | .ge, f => f.sf == f.of
  | .le, f => f.zf || f.sf != f.of
  | .g, f => !f.zf && f.sf == f.of

/-- Subtracting is adding the negation, except for the smallest number, whose
negation does not fit. -/
theorem subFlags_eq_addFlags {a b : BitVec 64} (h : b ≠ BitVec.intMin 64) :
    subFlags a b = addFlags a (-b) := by
  rw [subFlags, addFlags, BitVec.toInt_neg_of_ne_intMin h, BitVec.sub_eq_add_neg, Int.sub_eq_add_neg]

end Oryx.X86
