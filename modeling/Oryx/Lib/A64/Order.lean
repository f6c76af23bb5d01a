/-
Oryx/Lib/A64/Order.lean

The memory-ordering rules of the A64 subset, as `StreamOrder.Rules`.

`baseRules` are those of the ordered loads and stores and the barriers:
`LDAR` and `LDAPR` acquire, `STLR` releases, `STLR` is ordered before a later
`LDAR` (not `LDAPR`), and the three barriers order what their name says.
`lseRules` adds the LSE atomics with acquire and release suffix: they always
release, acquire unless their destination is the zero register, and are full
barriers when they do both.
-/
import Oryx.Lib.A64.Insn
import Oryx.Lib.StreamOrder

namespace Oryx.A64

open StreamOrder

namespace Insn

/-- Reads memory. -/
def isLoad : Insn → Bool
  | .ldr .. => true
  | .ldar .. => true
  | .ldapr .. => true
  | .ldaddal .. => true
  | .casal .. => true
  | _ => false

/-- Writes memory. -/
def isStore : Insn → Bool
  | .str .. => true
  | .stlr .. => true
  | .ldaddal .. => true
  | .casal .. => true
  | _ => false

def isAccess (i : Insn) : Bool := i.isLoad || i.isStore

/-- A load or store that is no atomic. -/
def isOrdinary : Insn → Bool
  | .ldr .. => true
  | .str .. => true
  | .ldar .. => true
  | .ldapr .. => true
  | .stlr .. => true
  | _ => false

/-- The register an atomic returns the old value in. -/
def atomicDest : Insn → Option Reg
  | .ldaddal _ rt _ => some rt
  | .casal rs _ _ => some rs
  | _ => none

end Insn

/-- What a barrier orders. -/
def Barrier.orders : Barrier → Insn → Insn → Bool
  | .ish, a, b => a.isAccess && b.isAccess
  | .ishld, a, b => a.isLoad && b.isAccess
  | .ishst, a, b => a.isStore && b.isStore

/-- The rules of ordered accesses and barriers. -/
def baseRules : Rules Insn where
  access := Insn.isAccess
  acquires
    | .ldar .. => true
    | .ldapr .. => true
    | _ => false
  releases
    | .stlr .. => true
    | _ => false
  fences
    | .dmb kind, a, b => kind.orders a b
    | _, _, _ => false
  pairs
    | .stlr .., .ldar .. => true
    | _, _ => false

/-- The base rules and those of the LSE atomics. -/
def lseRules : Rules Insn where
  access := Insn.isAccess
  acquires i := baseRules.acquires i || i.atomicDest.any (· ≠ 31)
  releases i := baseRules.releases i || i.atomicDest.isSome
  fences c a b :=
    baseRules.fences c a b || (c.atomicDest.any (· ≠ 31) && a.isAccess && b.isAccess)
  pairs := baseRules.pairs

end Oryx.A64
