/-
Oryx/Decoder.lean

The x86-64 decoder of `oryxdec.c`.

The image is the list of its bytes.  Every read of the source is preceded by
a check for room, and the model keeps the two apart: `fetch` checks, reads
and moves on, and the reads of the `ENDBR64` test are written out.  A read
outside the image would be a `fault`, and a loop that does not end shows in
the outcome as `running`.
-/
import Oryx.GuestIR
import Oryx.Lib.ByteCursor
import Oryx.Lib.X86.Encoding

namespace Oryx

open Decoder

/-! ### Images and results -/

/-- `oryx_x86_image`; `len` is the length of the list.  No object of C is larger than
`PTRDIFF_MAX`, so that offsets a few bytes on do not wrap. -/
structure OryxX86Image where
  bytes : List Byte
  base : U64
  lt : bytes.length < 2 ^ 63

/-- The codes `oryx_x86_decode_block` returns beside `ORYX_OK`. -/
inductive DecodeErr
  | inval
  | notfound
  | format
  | unsupported
  deriving DecidableEq, Repr

abbrev Dec := Decoder DecodeErr

/-- `modrm`.  The fields the form does not set are zero here: each use follows the test of
`is_mem`. -/
structure Modrm where
  reg : CInt
  isMem : Bool
  rmReg : CInt
  base : CInt
  disp : U64
  deriving DecidableEq, Repr

/-- What one turn of the loop comes to: nothing, for `endbr64`, or an op to emit, with `done`. -/
inductive Action
  | skip
  | emit (g : OryxGinsn) (done : Bool)
  deriving DecidableEq, Repr

/-! ### ModRM and conditions -/

/-- `decode_modrm`. -/
def decodeModrm (rexR rexB : CInt) : Dec Modrm := do
  let b ← fetch .format 1
  let b : CInt := BitVec.setWidth 32 b
  let mod := b >>> 6
  let reg := ((b >>> 3) &&& (7 : CInt)) ||| (rexR <<< 3)
  let rm := b &&& (7 : CInt)
  if mod = 3 then
    pure { reg := reg, isMem := false, rmReg := rm ||| (rexB <<< 3), base := 0, disp := 0 }
  else if rm = 4 then fail .unsupported
  else if rm = 5 ∧ mod = 0 then fail .unsupported
  else
    let base := rm ||| (rexB <<< 3)
    if mod = 1 then do
      let d ← fetch .format 1
      pure { reg := reg, isMem := true, rmReg := 0, base := base, disp := BitVec.signExtend 64 d }
    else if mod = 2 then do
      let d ← fetch .format 4
      pure { reg := reg, isMem := true, rmReg := 0, base := base, disp := BitVec.signExtend 64 d }
    else
      pure { reg := reg, isMem := true, rmReg := 0, base := base, disp := 0 }

/-- `x86cc_to_gcc`. -/
def x86ccToGcc (cc : CInt) : Option CInt :=
  if cc = 0x4 then some gccEq
  else if cc = 0x5 then some gccNe
  else if cc = 0xC then some gccLt
  else if cc = 0xD then some gccGe
  else if cc = 0xE then some gccLe
  else if cc = 0xF then some gccGt
  else none

/-! ### The switch -/

/-- `decode_modrm` and the test for a 64-bit register operand behind it. -/
def regDirect (rexW rexR rexB : CInt) : Dec Modrm := do
  let m ← decodeModrm rexR rexB
  if m.isMem = true ∨ rexW = 0 then fail .unsupported else pure m

/-- The operations of the forms `r/m, r`. -/
def aluGop (op : Byte) : GuestOp :=
  if op = 0x01 then .addRr else if op = 0x29 then .subRr
  else if op = 0x31 then .xorRr else if op = 0x21 then .andRr
  else if op = 0x09 then .orRr else if op = 0x39 then .cmpRr else .testRr

/-- The immediate of the group-1 forms. -/
def groupImm (op : Byte) : Dec U64 :=
  if op = 0x83 then do
    let v ← fetch .format 1
    pure (BitVec.signExtend 64 v)
  else do
    let v ← fetch .format 4
    pure (BitVec.signExtend 64 v)

/-- The operation the digit of group 1 selects. -/
def groupGop (digit : CInt) : Option GuestOp :=
  if digit = 0 then some .addRi
  else if digit = 5 then some .subRi
  else if digit = 7 then some .cmpRi
  else none

def emitOp (g : OryxGinsn) : Dec Action := pure (.emit g false)

/-- `EMIT` and `done = 1`. -/
def emitLast (g : OryxGinsn) : Dec Action := pure (.emit g true)

/-- `MOV r, imm` (B8+r). -/
def movOpImm (rexW reg : CInt) : Dec Action :=
  if rexW ≠ 0 then do
    let imm ← fetch .format 8
    emitOp (ginsn .movRi reg 0 imm)
  else do
    let imm ← fetch .format 4
    emitOp (ginsn .movRi reg 0 (BitVec.setWidth 64 imm))

/-- The branch of a `Jcc` whose displacement has been read. -/
def emitJcc (cc : CInt) (rel : U64) : Dec Action := do
  let cur ← here
  match x86ccToGcc cc with
  | none => fail .unsupported
  | some gcc => emitLast { ginsn .br 0 0 0 with cc := gcc, target := cur + rel }

/-- The switch over the opcode. -/
def decodeOp (rexW rexR rexB : CInt) (op : Byte) : Dec Action :=
  -- MOV r/m, r and MOV r, r/m: 64-bit register forms only
  if op = 0x89 then do
    let m ← regDirect rexW rexR rexB
    emitOp (ginsn .movRr m.rmReg m.reg 0)
  else if op = 0x8B then do
    let m ← regDirect rexW rexR rexB
    emitOp (ginsn .movRr m.reg m.rmReg 0)
  else if op = 0x8D then do
    -- LEA is the one form that wants memory
    let m ← decodeModrm rexR rexB
    if m.isMem = false ∨ rexW = 0 then fail .unsupported
    else emitOp (ginsn .lea m.reg m.base m.disp)
  else if op = 0xC7 then do
    -- MOV r/m, imm32: the form is refused before the constant is read
    let m ← decodeModrm rexR rexB
    if m.isMem = true ∨ rexW = 0 ∨ m.reg &&& 7 ≠ 0 then fail .unsupported
    else do
      let imm ← fetch .format 4
      emitOp (ginsn .movRi m.rmReg 0 (BitVec.signExtend 64 imm))
  else if op = 0x01 ∨ op = 0x29 ∨ op = 0x31 ∨ op = 0x21 ∨ op = 0x09 ∨ op = 0x39 ∨ op = 0x85 then do
    let m ← regDirect rexW rexR rexB
    emitOp (ginsn (aluGop op) m.rmReg m.reg 0)
  else if op = 0x3B then do
    let m ← regDirect rexW rexR rexB
    emitOp (ginsn .cmpRr m.reg m.rmReg 0)
  else if op = 0x83 ∨ op = 0x81 then do
    let m ← regDirect rexW rexR rexB
    -- the constant is read before the digit is looked at
    let imm ← groupImm op
    match groupGop (m.reg &&& 7) with
    | none => fail .unsupported
    | some gop => emitOp (ginsn gop m.rmReg 0 imm)
  else if 0xB8 ≤ op ∧ op ≤ 0xBF then
    movOpImm rexW ((op.setWidth 32 - (0xB8 : CInt)) ||| (rexB <<< 3))
  else if 0x50 ≤ op ∧ op ≤ 0x57 then
    emitOp (ginsn .push ((op.setWidth 32 - (0x50 : CInt)) ||| (rexB <<< 3)) 0 0)
  else if 0x58 ≤ op ∧ op ≤ 0x5F then
    emitOp (ginsn .pop ((op.setWidth 32 - (0x58 : CInt)) ||| (rexB <<< 3)) 0 0)
  else if op = 0xE8 then do
    let rel ← fetch .format 4
    let cur ← here
    -- the return address is the constant of the IR op
    emitLast { ginsn .call 0 0 cur with target := cur + BitVec.signExtend 64 rel }
  else if 0x70 ≤ op ∧ op ≤ 0x7F then do
    let rel ← fetch .format 1
    emitJcc (op.setWidth 32 &&& 0xf) (BitVec.signExtend 64 rel)
  else if op = 0x0F then do
    -- two-byte opcodes: Jcc rel32
    let op2 ← fetch .format 1
    if 0x80 ≤ op2 ∧ op2 ≤ 0x8F then do
      let rel ← fetch .format 4
      emitJcc (BitVec.setWidth 32 op2 &&& 0xf) (BitVec.signExtend 64 rel)
    else fail .unsupported
  else if op = 0xEB then do
    let rel ← fetch .format 1
    let cur ← here
    emitLast { ginsn .jmp 0 0 0 with target := cur + BitVec.signExtend 64 rel }
  else if op = 0xE9 then do
    let rel ← fetch .format 4
    let cur ← here
    emitLast { ginsn .jmp 0 0 0 with target := cur + BitVec.signExtend 64 rel }
  else if op = 0xC3 then emitLast (ginsn .x86ret 0 0 0)
  else fail .unsupported

/-! ### The loop -/

/-- The test for `endbr64`, with its reads in order. -/
def isEndbr64 : Dec Bool := do
  let b0 ← peek 0 1
  if b0 ≠ 0xF3 then pure false
  else do
    let enough ← hasRoom 4
    if enough = false then pure false
    else do
      let b1 ← peek 1 1
      if b1 ≠ 0x0F then pure false
      else do
        let b2 ← peek 2 1
        if b2 ≠ 0x1E then pure false
        else do
          let b3 ← peek 3 1
          pure (decide (b3 = 0xFA))

/-- The REX prefix, if there is one, and the instruction behind it. -/
def decodeInsn : Dec Action := do
  let b ← fetch .format 1
  if 0x40 ≤ b ∧ b ≤ 0x4F then do
    let op ← fetch .format 1
    let b : CInt := BitVec.setWidth 32 b
    decodeOp ((b >>> 3) &&& 1) ((b >>> 2) &&& 1) (b &&& 1) op
  else decodeOp 0 0 0 b

/-- The body of the loop, up to `EMIT`. -/
def decodeStep : Dec Action := do
  room .format 1
  let endbr ← isEndbr64
  if endbr = true then do
    skip 4
    pure .skip
  else decodeInsn

/-- How a call ends, with the ops it has written. -/
inductive Outcome
  | ok (ops : List OryxGinsn) (len : U32)
  | error (e : DecodeErr) (ops : List OryxGinsn)
  | fault (ops : List OryxGinsn)
  /-- The loop goes on for more turns than the image has bytes. -/
  | running (ops : List OryxGinsn)
  deriving DecidableEq

/-- The entries of `ops` that have been written: those before `n`. -/
def Outcome.written : Outcome → List OryxGinsn
  | .ok ops _ | .error _ ops | .fault ops | .running ops => ops

/-- The loop; `EMIT` refuses to write at `cap`. -/
def decodeLoop (bytes : List Byte) (cap : Nat) (pc : U64) :
    Nat → Cursor → List OryxGinsn → Outcome
  | 0, _, ops => .running ops
  | turns + 1, c, ops =>
      match decodeStep bytes c with
      | .error .fault => .fault ops
      | .error (.err e) => .error e ops
      | .ok (.skip, c') => decodeLoop bytes cap pc turns c' ops
      | .ok (.emit g done, c') =>
          if ops.length ≥ cap then .error .inval ops
          else if done = true then .ok (ops ++ [g]) ((c'.pc - pc).setWidth 32)
          else decodeLoop bytes cap pc turns c' (ops ++ [g])

/-- `oryx_x86_decode_block`. -/
def oryxX86DecodeBlock (img : OryxX86Image) (pc : U64) (cap : Nat) : Outcome :=
  if pc < img.base ∨ pc ≥ img.base + BitVec.ofNat 64 img.bytes.length then .error .notfound []
  else
    decodeLoop img.bytes cap pc (img.bytes.length + 1) ⟨(pc - img.base).toNat, pc⟩ []

end Oryx
