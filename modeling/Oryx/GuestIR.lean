/-
Oryx/GuestIR.lean

The guest IR of `oryxtu.h`: opcodes, condition codes, memory classes, fences
and the instruction record.

The record's enumeration-valued fields are C `int`s and nothing stops a caller
from passing a number that names no enumerator, so they are 32-bit words here
too, and `GuestOp.ofCode` says which words are opcodes.  The policy and the
ordering strength are parameters of enumeration type.
-/
import Oryx.TranslationUnit

namespace Oryx

/-- A C `int`. -/
abbrev CInt := BitVec 32

/-! ### Enumerations -/

/-- `oryx_gop`, in the order of the header. -/
inductive GuestOp where
  | movRr
  | movRi
  | addRr
  | subRr
  | cmpRr
  | load
  | store
  | br
  | jmp
  | ret
  | atomicAdd
  | atomicCas
  | fence
  | setcc
  | addRi
  | subRi
  | cmpRi
  | testRr
  | xorRr
  | andRr
  | orRr
  | lea
  | push
  | pop
  | call
  | x86ret
  deriving DecidableEq, Repr

/-- The opcodes by their code. -/
def gopTable : List GuestOp :=
  [.movRr, .movRi, .addRr, .subRr, .cmpRr, .load, .store, .br, .jmp, .ret, .atomicAdd,
    .atomicCas, .fence, .setcc, .addRi, .subRi, .cmpRi, .testRr, .xorRr, .andRr, .orRr, .lea,
    .push, .pop, .call, .x86ret]

/-- The opcode an `op` field names, if any. -/
def GuestOp.ofCode (op : CInt) : Option GuestOp := gopTable[op.toNat]?

/-- The code of an opcode. -/
def GuestOp.code (op : GuestOp) : CInt := BitVec.ofNat 32 (gopTable.idxOf op)

theorem GuestOp.ofCode_code (op : GuestOp) : GuestOp.ofCode op.code = some op := by
  cases op <;> decide

/-- `GR_RAX`, `GR_RSP` and `GR_COUNT`. -/
def grRax : CInt := 0
def grRsp : CInt := 4
def grCount : CInt := 16

/-- `GCC_EQ` to `GCC_GT`. -/
def gccEq : CInt := 0
def gccNe : CInt := 1
def gccLt : CInt := 2
def gccGe : CInt := 3
def gccLe : CInt := 4
def gccGt : CInt := 5

/-- `ORYX_MCLASS_LOCAL` and `ORYX_MCLASS_SHARED`. -/
def mclassLocal : CInt := 0
def mclassShared : CInt := 1

/-- `ORYX_FENCE_FULL`, `ORYX_FENCE_LD` and `ORYX_FENCE_ST`. -/
def fenceFull : CInt := 0
def fenceLd : CInt := 1
def fenceSt : CInt := 2

/-- `oryx_mm_policy`. -/
inductive MmPolicy where
  | drf
  | conservative
  deriving DecidableEq, Repr

/-- `oryx_order_strength`. -/
inductive OrderStrength where
  | sc
  | rcpc
  | tso
  deriving DecidableEq, Repr

def MmPolicy.code : MmPolicy → Byte
  | .drf => 0
  | .conservative => 1

def OrderStrength.code : OrderStrength → Byte
  | .sc => 0
  | .rcpc => 1
  | .tso => 2

/-! ### Instructions -/

/-- `oryx_ginsn`. -/
structure OryxGinsn where
  op : CInt
  rd : CInt
  rn : CInt
  imm : U64
  target : U64
  cc : CInt
  mclass : CInt
  deriving DecidableEq, Repr

/-- An instruction with the fields an initializer leaves out set to zero. -/
def ginsn (op : GuestOp) (rd rn : CInt) (imm : U64) : OryxGinsn where
  op := op.code
  rd := rd
  rn := rn
  imm := imm
  target := 0
  cc := 0
  mclass := 0

/-- The opcode of an instruction, if it has one. -/
def OryxGinsn.opcode (i : OryxGinsn) : Option GuestOp := GuestOp.ofCode i.op

/-- `GOP_ATOMIC_ADD` or `GOP_ATOMIC_CAS`. -/
def OryxGinsn.isAtomic (i : OryxGinsn) : Prop :=
  i.opcode = some .atomicAdd ∨ i.opcode = some .atomicCas

/-- `GOP_LOAD` or `GOP_STORE`. -/
def OryxGinsn.isLoadStore (i : OryxGinsn) : Prop := i.opcode = some .load ∨ i.opcode = some .store

instance (i : OryxGinsn) : Decidable i.isAtomic := by
  unfold OryxGinsn.isAtomic
  exact inferInstance

instance (i : OryxGinsn) : Decidable i.isLoadStore := by
  unfold OryxGinsn.isLoadStore
  exact inferInstance

/-- `in->rd` and `in->rn` name guest registers. -/
def OryxGinsn.regsOk (i : OryxGinsn) : Prop :=
  0 ≤ i.rd.toInt ∧ i.rd.toInt < grCount.toInt ∧ 0 ≤ i.rn.toInt ∧ i.rn.toInt < grCount.toInt

instance (i : OryxGinsn) : Decidable i.regsOk := by
  unfold OryxGinsn.regsOk
  exact inferInstance

theorem toNat_lt_of_greg {r : CInt} (h0 : 0 ≤ r.toInt) (h : r.toInt < grCount.toInt) :
    r.toNat < 16 := by
  have hc : grCount.toInt = 16 := by decide
  rw [hc] at h
  rw [BitVec.toInt_eq_toNat_cond] at h0 h
  split at h0 <;> omega

theorem OryxGinsn.regsOk_iff (i : OryxGinsn) : i.regsOk ↔ i.rd.toNat < 16 ∧ i.rn.toNat < 16 := by
  constructor
  · rintro ⟨h1, h2, h3, h4⟩
    exact ⟨toNat_lt_of_greg h1 h2, toNat_lt_of_greg h3 h4⟩
  · rintro ⟨hd, hn⟩
    have hc : grCount.toInt = 16 := by decide
    have key : ∀ r : CInt, r.toNat < 16 → 0 ≤ r.toInt ∧ r.toInt < grCount.toInt := by
      intro r hr
      rw [hc, BitVec.toInt_eq_toNat_of_lt (by omega)]
      omega
    exact ⟨(key _ hd).1, (key _ hd).2, (key _ hn).1, (key _ hn).2⟩

end Oryx
