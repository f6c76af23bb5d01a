/-
Oryx/Lib/A64/Insn.lean

A subset of the A64 instruction set: its instructions as an inductive type
and the decoder from 32-bit words.

The decoder reads the fixed fields of the 64-bit variants of these classes

    add/subtract (immediate, shifted register)      logical (shifted register)
    move wide          load/store (unsigned offset)     load/store ordered
    LDAPR              LSE atomics with acquire and release    CSINC
    barriers           B, B.cond, RET

and gives `none` for every other word (and for the variants left out: a
shifted operand, a shifted immediate, a 32-bit register).  Register operand 31
is `XZR` or `SP`; which one is the meaning of the form, not of the decoder.
-/
import Oryx.Lib.BitField

namespace Oryx.A64

abbrev Word := BitVec 32

/-- A register operand; number 31 is `XZR` or `SP` as the form says. -/
abbrev Reg := Fin 32

/-- The three data memory barriers over the inner shareable domain. -/
inductive Barrier
  | ish
  | ishld
  | ishst
  deriving DecidableEq, Repr

/-- Logical operations on registers; only `ands` sets the flags. -/
inductive LogicOp
  | orr
  | eor
  | ands
  deriving DecidableEq, Repr

inductive Insn
  /-- `ADD`/`ADDS`/`SUB`/`SUBS Xd, Xn, #imm12` (`op`: subtract, `S`: set flags). -/
  | addSubImm (op S : Bool) (rd rn : Reg) (imm12 : BitVec 12)
  /-- `ADD`/`ADDS`/`SUB`/`SUBS Xd, Xn, Xm`. -/
  | addSubReg (op S : Bool) (rd rn rm : Reg)
  | logicReg (op : LogicOp) (rd rn rm : Reg)
  /-- `MOVZ` (`keep = false`) or `MOVK Xd, #imm16, LSL #16*hw`. -/
  | moveWide (keep : Bool) (rd : Reg) (imm16 : BitVec 16) (hw : Fin 4)
  /-- `LDR Xt, [Xn|SP, #8*imm12]`. -/
  | ldr (rt rn : Reg) (imm12 : BitVec 12)
  | str (rt rn : Reg) (imm12 : BitVec 12)
  | ldar (rt rn : Reg)
  | ldapr (rt rn : Reg)
  | stlr (rt rn : Reg)
  | ldaddal (rs rt rn : Reg)
  | casal (rs rt rn : Reg)
  | dmb (kind : Barrier)
  | csinc (rd rn rm : Reg) (cond : Fin 16)
  | b (imm26 : BitVec 26)
  | bcond (cond : Fin 16) (imm19 : BitVec 19)
  | ret (rn : Reg)
  deriving DecidableEq, Repr

/-- The register field at bit `lo`. -/
def regAt (w : Word) (lo : Nat) : Reg := ⟨bits w lo 5, bits_lt w lo 5⟩

/-- The immediate field of `len` bits at bit `lo`. -/
def immAt (w : Word) (lo len : Nat) : BitVec len := BitVec.ofNat len (bits w lo len)

theorem cond_lt (w : Word) : bits w 0 4 < 16 := bits_lt w 0 4

/-- Add/subtract immediate: bits 23:22 are the shift, which must be 0 here. -/
def decodeAddSubImm (w : Word) (op S : Bool) : Option Insn :=
  if bits w 22 2 = 0 then
    some (.addSubImm op S (regAt w 0) (regAt w 5) (immAt w 10 12))
  else none

/-- The operands of a shifted-register form (bits 23:21 and the shift amount
in bits 15:10 must be 0 here). -/
def decodeReg3 (w : Word) (mk : Reg → Reg → Reg → Insn) : Option Insn :=
  if bits w 21 3 = 0 ∧ bits w 10 6 = 0 then
    some (mk (regAt w 0) (regAt w 5) (regAt w 16))
  else none

def decodeMoveWide (w : Word) (keep : Bool) : Option Insn :=
  if bits w 23 1 = 1 then
    some (.moveWide keep (regAt w 0) (immAt w 5 16) ⟨bits w 21 2, bits_lt w 21 2⟩)
  else none

/-- `LDR`/`STR` with an unsigned scaled offset, by the `opc` field. -/
def decodeLoadStore (w : Word) : Option Insn :=
  if bits w 22 2 = 1 then some (.ldr (regAt w 0) (regAt w 5) (immAt w 10 12))
  else if bits w 22 2 = 0 then some (.str (regAt w 0) (regAt w 5) (immAt w 10 12))
  else none

/-- `LDAR`, `STLR` and `CASAL`: bits 23:21, and the fields that must be ones. -/
def decodeOrdered (w : Word) : Option Insn :=
  if bits w 10 6 = 0x3F then
    if bits w 21 3 = 6 ∧ bits w 16 5 = 0x1F then some (.ldar (regAt w 0) (regAt w 5))
    else if bits w 21 3 = 4 ∧ bits w 16 5 = 0x1F then some (.stlr (regAt w 0) (regAt w 5))
    else if bits w 21 3 = 7 then some (.casal (regAt w 16) (regAt w 0) (regAt w 5))
    else none
  else none

/-- `LDAPR` and `LDADDAL`. -/
def decodeAtomic (w : Word) : Option Insn :=
  if bits w 21 3 = 5 ∧ bits w 16 5 = 0x1F ∧ bits w 10 6 = 0x30 then
    some (.ldapr (regAt w 0) (regAt w 5))
  else if bits w 21 3 = 7 ∧ bits w 10 6 = 0 then
    some (.ldaddal (regAt w 16) (regAt w 0) (regAt w 5))
  else none

/-- `DMB` over the inner shareable domain, by the `CRm` field. -/
def decodeBarrier (w : Word) : Option Insn :=
  if w = 0xD5033BBF then some (.dmb .ish)
  else if w = 0xD50339BF then some (.dmb .ishld)
  else if w = 0xD5033ABF then some (.dmb .ishst)
  else none

def decodeCondSelect (w : Word) : Option Insn :=
  if bits w 21 3 = 4 ∧ bits w 10 2 = 1 then
    some (.csinc (regAt w 0) (regAt w 5) (regAt w 16) ⟨bits w 12 4, bits_lt w 12 4⟩)
  else none

def decodeCondBranch (w : Word) : Option Insn :=
  if bits w 4 1 = 0 then some (.bcond ⟨bits w 0 4, cond_lt w⟩ (immAt w 5 19)) else none

def decodeRet (w : Word) : Option Insn :=
  if bits w 10 14 = 0x17C0 ∧ bits w 0 5 = 0 then some (.ret (regAt w 5)) else none

/-- Decode a word: the top eight bits select the class. -/
def decode (w : Word) : Option Insn :=
  match bits w 24 8 with
  | 0x91 => decodeAddSubImm w false false
  | 0xB1 => decodeAddSubImm w false true
  | 0xD1 => decodeAddSubImm w true false
  | 0xF1 => decodeAddSubImm w true true
  | 0x8B => decodeReg3 w (.addSubReg false false)
  | 0xAB => decodeReg3 w (.addSubReg false true)
  | 0xEB => decodeReg3 w (.addSubReg true true)
  | 0xAA => decodeReg3 w (.logicReg .orr)
  | 0xCA => decodeReg3 w (.logicReg .eor)
  | 0xEA => decodeReg3 w (.logicReg .ands)
  | 0xD2 => decodeMoveWide w false
  | 0xF2 => decodeMoveWide w true
  | 0xF9 => decodeLoadStore w
  | 0xC8 => decodeOrdered w
  | 0xF8 => decodeAtomic w
  | 0xD5 => decodeBarrier w
  | 0x9A => decodeCondSelect w
  | 0x14 | 0x15 | 0x16 | 0x17 => some (.b (immAt w 0 26))
  | 0x54 => decodeCondBranch w
  | 0xD6 => decodeRet w
  | _ => none

example : decode 0xAB010000 = some (.addSubReg false true 0 0 1) := by decide
example : decode 0xC8E0FCC2 = some (.casal 0 2 6) := by decide

end Oryx.A64
