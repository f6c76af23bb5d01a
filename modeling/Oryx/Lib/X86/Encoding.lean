/-
Oryx/Lib/X86/Encoding.lean

The machine code of a subset of the 64-bit x86 instructions.

`Encodes i bs` says that `bs` is an encoding of the instruction `i`: an
optional REX prefix, the opcode, the ModRM byte and the operands, as the rows
of `Row` give them.  An instruction may have several encodings, since a
prefix may hold bits that its opcode ignores.  A block is a run of encoded
instructions up to the first that ends it (`IsBlock`).
-/
import Oryx.Lib.LittleEndian
import Oryx.Lib.X86.Flags

namespace Oryx.X86

/-- A register by its number. -/
abbrev Reg := Fin 16

/-! ### Instructions -/

inductive AluOp
  | add
  | or
  | and
  | sub
  | xor
  | cmp
  | test
  deriving DecidableEq, Repr

/-- The operations of group 1 with a constant. -/
inductive ImmOp
  | add
  | sub
  | cmp
  deriving DecidableEq, Repr

/-- An instruction on 64-bit operands.  Displacements are relative to its end. -/
inductive Insn
  | endbr64
  | mov (dst src : Reg)
  | movImm (dst : Reg) (imm : BitVec 64)
  | alu (op : AluOp) (dst src : Reg)
  | aluImm (op : ImmOp) (dst : Reg) (imm : BitVec 64)
  /-- `LEA dst, [base+disp]`. -/
  | lea (dst base : Reg) (disp : BitVec 64)
  | push (src : Reg)
  | pop (dst : Reg)
  | call (rel : BitVec 64)
  | jcc (cond : Cond) (rel : BitVec 64)
  | jmp (rel : BitVec 64)
  | ret
  deriving DecidableEq, Repr

/-- The instruction ends a block. -/
def Insn.isTerminator : Insn → Bool
  | .call _ | .jcc .. | .jmp _ | .ret => true
  | _ => false

/-! ### Prefix and ModRM -/

/-- The bits of a REX prefix. -/
structure Rex where
  w : Bool
  r : Bool
  x : Bool
  b : Bool
  deriving DecidableEq, Repr

def Rex.byte (p : Rex) : Byte :=
  BitVec.ofNat 8 (0x40 + 8 * p.w.toNat + 4 * p.r.toNat + 2 * p.x.toNat + p.b.toNat)

/-- The bits of no prefix. -/
def Rex.none : Rex := ⟨false, false, false, false⟩

def rexBytes : Option Rex → List Byte
  | .none => []
  | some p => [p.byte]

/-- The bits an instruction sees. -/
def rexBits (p : Option Rex) : Rex := p.getD Rex.none

/-- A register number: the bit of the prefix and the three bits of the field. -/
def extend (hi : Bool) (lo : Fin 8) : Reg :=
  ⟨8 * hi.toNat + lo.val, by have := hi.toNat_le; omega⟩

def modrm (mod : Fin 4) (reg rm : Fin 8) : Byte :=
  BitVec.ofNat 8 (64 * mod.val + 8 * reg.val + rm.val)

/-! ### Rows of the opcode map -/

/-- The opcodes of the forms `op r/m64, r64`. -/
def AluOp.opcode : AluOp → Byte
  | .add => 0x01
  | .or => 0x09
  | .and => 0x21
  | .sub => 0x29
  | .xor => 0x31
  | .cmp => 0x39
  | .test => 0x85

/-- The opcode extensions of group 1. -/
def ImmOp.digit : ImmOp → Fin 8
  | .add => 0
  | .sub => 5
  | .cmp => 7

/-- The condition field of an opcode. -/
def Cond.code : Cond → Fin 16
  | .e => 0x4
  | .ne => 0x5
  | .l => 0xC
  | .ge => 0xD
  | .le => 0xE
  | .g => 0xF

/-- A byte with a number in its low bits. -/
def withLow {n : Nat} (base : Byte) (lo : Fin n) : Byte := base + BitVec.ofNat 8 lo.val

/-- `[base+disp]` without a SIB byte: field 4 announces one, and field 5 without displacement
means an address relative to the instruction. -/
inductive MemForm (b : Bool) (reg : Fin 8) : Reg → BitVec 64 → List Byte → Prop
  | disp0 (rm : Fin 8) (hsib : rm ≠ 4) (hrip : rm ≠ 5) :
      MemForm b reg (extend b rm) 0 [modrm 0 reg rm]
  | disp8 (rm : Fin 8) (d : BitVec 8) (hsib : rm ≠ 4) :
      MemForm b reg (extend b rm) (d.signExtend 64) (modrm 1 reg rm :: putLe 1 d)
  | disp32 (rm : Fin 8) (d : BitVec 32) (hsib : rm ≠ 4) :
      MemForm b reg (extend b rm) (d.signExtend 64) (modrm 2 reg rm :: putLe 4 d)

/-- What stands behind the prefix of an instruction with the prefix bits `p`: the opcode and the
bytes after it. -/
inductive Row (p : Rex) : Insn → Byte → List Byte → Prop
  | movMR (hw : p.w = true) (reg rm : Fin 8) :
      Row p (.mov (extend p.b rm) (extend p.r reg)) 0x89 [modrm 3 reg rm]
  | movRM (hw : p.w = true) (reg rm : Fin 8) :
      Row p (.mov (extend p.r reg) (extend p.b rm)) 0x8B [modrm 3 reg rm]
  | movMI (hw : p.w = true) (rm : Fin 8) (imm : BitVec 32) :
      Row p (.movImm (extend p.b rm) (imm.signExtend 64)) 0xC7 (modrm 3 0 rm :: putLe 4 imm)
  | movOI64 (hw : p.w = true) (lo : Fin 8) (imm : BitVec 64) :
      Row p (.movImm (extend p.b lo) imm) (withLow 0xB8 lo) (putLe 8 imm)
  | movOI32 (hw : p.w = false) (lo : Fin 8) (imm : BitVec 32) :
      Row p (.movImm (extend p.b lo) (imm.setWidth 64)) (withLow 0xB8 lo) (putLe 4 imm)
  | aluMR (hw : p.w = true) (op : AluOp) (reg rm : Fin 8) :
      Row p (.alu op (extend p.b rm) (extend p.r reg)) op.opcode [modrm 3 reg rm]
  | cmpRM (hw : p.w = true) (reg rm : Fin 8) :
      Row p (.alu .cmp (extend p.r reg) (extend p.b rm)) 0x3B [modrm 3 reg rm]
  | aluMI8 (hw : p.w = true) (op : ImmOp) (rm : Fin 8) (imm : BitVec 8) :
      Row p (.aluImm op (extend p.b rm) (imm.signExtend 64)) 0x83
        (modrm 3 op.digit rm :: putLe 1 imm)
  | aluMI32 (hw : p.w = true) (op : ImmOp) (rm : Fin 8) (imm : BitVec 32) :
      Row p (.aluImm op (extend p.b rm) (imm.signExtend 64)) 0x81
        (modrm 3 op.digit rm :: putLe 4 imm)
  | lea (hw : p.w = true) (reg : Fin 8) {base : Reg} {disp : BitVec 64} {bs : List Byte}
      (hmem : MemForm p.b reg base disp bs) :
      Row p (.lea (extend p.r reg) base disp) 0x8D bs
  | push (lo : Fin 8) : Row p (.push (extend p.b lo)) (withLow 0x50 lo) []
  | pop (lo : Fin 8) : Row p (.pop (extend p.b lo)) (withLow 0x58 lo) []
  | call (rel : BitVec 32) : Row p (.call (rel.signExtend 64)) 0xE8 (putLe 4 rel)
  | jcc8 (cond : Cond) (rel : BitVec 8) :
      Row p (.jcc cond (rel.signExtend 64)) (withLow 0x70 cond.code) (putLe 1 rel)
  | jcc32 (cond : Cond) (rel : BitVec 32) :
      Row p (.jcc cond (rel.signExtend 64)) 0x0F (withLow 0x80 cond.code :: putLe 4 rel)
  | jmp8 (rel : BitVec 8) : Row p (.jmp (rel.signExtend 64)) 0xEB (putLe 1 rel)
  | jmp32 (rel : BitVec 32) : Row p (.jmp (rel.signExtend 64)) 0xE9 (putLe 4 rel)
  | ret : Row p .ret 0xC3 []

def endbr64Bytes : List Byte := [0xF3, 0x0F, 0x1E, 0xFA]

/-- The bytes `bs` are an encoding of the instruction; `ENDBR64` takes no prefix. -/
inductive Encodes : Insn → List Byte → Prop
  | endbr64 : Encodes .endbr64 endbr64Bytes
  | row (p : Option Rex) {i : Insn} {op : Byte} {bs : List Byte} (h : Row (rexBits p) i op bs) :
      Encodes i (rexBytes p ++ op :: bs)

/-! ### Runs of instructions -/

/-- An instruction with an encoding of it. -/
structure Encoded where
  insn : Insn
  bytes : List Byte
  encodes : Encodes insn bytes

theorem Encodes.length_pos {i : Insn} {bs : List Byte} (h : Encodes i bs) : 0 < bs.length := by
  cases h with
  | endbr64 => exact Nat.succ_pos _
  | row p h =>
    rw [List.length_append, List.length_cons]
    omega

/-- The bytes of a run. -/
def codeBytes (run : List Encoded) : List Byte := run.flatMap Encoded.bytes

@[simp] theorem codeBytes_nil : codeBytes [] = [] := rfl

@[simp] theorem codeBytes_cons (e : Encoded) (run : List Encoded) :
    codeBytes (e :: run) = e.bytes ++ codeBytes run := rfl

/-- The run ends with its first terminator. -/
def IsBlock (run : List Encoded) : Prop :=
  ∃ body last, run = body ++ [last] ∧ (∀ e ∈ body, e.insn.isTerminator = false) ∧
    last.insn.isTerminator = true

theorem isBlock_singleton {e : Encoded} (h : e.insn.isTerminator = true) : IsBlock [e] :=
  ⟨[], e, rfl, fun _ hm => (nomatch hm), h⟩

theorem IsBlock.cons {e : Encoded} {run : List Encoded} (he : e.insn.isTerminator = false)
    (h : IsBlock run) : IsBlock (e :: run) := by
  obtain ⟨body, last, rfl, hbody, hlast⟩ := h
  refine ⟨e :: body, last, rfl, ?_, hlast⟩
  rw [List.forall_mem_cons]
  exact ⟨he, hbody⟩

/-- A block is its terminator, or another instruction and a block. -/
theorem IsBlock.cases {run : List Encoded} (h : IsBlock run) :
    (∃ e, run = [e] ∧ e.insn.isTerminator = true) ∨
      ∃ e rest, run = e :: rest ∧ e.insn.isTerminator = false ∧ IsBlock rest := by
  obtain ⟨body, last, rfl, hbody, hlast⟩ := h
  cases body with
  | nil => exact Or.inl ⟨last, rfl, hlast⟩
  | cons e body =>
    rw [List.forall_mem_cons] at hbody
    exact Or.inr ⟨e, body ++ [last], rfl, hbody.1, body, last, rfl, hbody.2, hlast⟩

end Oryx.X86
