/-
Oryx/GuestSemantics.lean

What the guest IR means: the sequential x86 meaning of each opcode on a
64-bit register file, the status flags and memory.

This is the specification side.  Nothing here is read off the translator: an
opcode does what the x86 instruction it stands for does, and the next guest
PC of a terminator is where that instruction continues.  `GOP_SETCC` writes
the whole register, as the IR documents, and `GOP_RET` ends the program.
-/
import Oryx.GuestIR
import Oryx.Lib.Memory
import Oryx.Lib.X86.Flags
import Mathlib.Logic.Function.Basic

namespace Oryx

open X86

/-- A guest register number. -/
abbrev GReg := Fin 16

/-- The guest machine. -/
@[ext] structure X86State where
  regs : GReg → U64
  flags : Flags
  mem : Mem

/-- The register an operand field names. -/
def greg (r : CInt) : GReg := Fin.ofNat 16 r.toNat

def rax : GReg := 0
def rsp : GReg := 4

/-- `ORYX_HALT_PC`. -/
def oryxHaltPc : U64 := ~~~0

/-- The condition a `cc` field names. -/
def gccCond (cc : CInt) : Option Cond :=
  if cc = gccEq then some .e
  else if cc = gccNe then some .ne
  else if cc = gccLt then some .l
  else if cc = gccGe then some .ge
  else if cc = gccLe then some .le
  else if cc = gccGt then some .g
  else none

/-- The condition of a `cc` field holds. -/
def gccHolds (cc : CInt) (f : Flags) : Bool := (gccCond cc).any (·.holds f)

namespace X86State

def setReg (g : X86State) (r : GReg) (v : U64) : X86State :=
  { g with regs := Function.update g.regs r v }

def setFlags (g : X86State) (f : Flags) : X86State := { g with flags := f }

def setMem (g : X86State) (m : Mem) : X86State := { g with mem := m }

end X86State

/-! ### Opcodes -/

/-- The meaning of an opcode, the transfer of control apart. -/
def x86Exec (i : OryxGinsn) (op : GuestOp) (g : X86State) : X86State :=
  let rd := greg i.rd
  let rn := greg i.rn
  let d := g.regs rd
  let n := g.regs rn
  match op with
  | .movRr => g.setReg rd n
  | .movRi => g.setReg rd i.imm
  | .addRr => (g.setReg rd (d + n)).setFlags (addFlags d n)
  | .subRr => (g.setReg rd (d - n)).setFlags (subFlags d n)
  | .cmpRr => g.setFlags (subFlags d n)
  | .load => g.setReg rd (load64 g.mem (n + i.imm))
  | .store => g.setMem (store64 g.mem (n + i.imm) d)
  | .atomicAdd =>
      let old := load64 g.mem n
      (g.setMem (store64 g.mem n (old + d))).setFlags (addFlags old d)
  | .atomicCas =>
      -- `LOCK CMPXCHG [rn], rd`: compares with RAX
      let old := load64 g.mem n
      let flags := subFlags (g.regs rax) old
      if g.regs rax = old then (g.setMem (store64 g.mem n d)).setFlags flags
      else (g.setReg rax old).setFlags flags
  | .fence => g
  | .setcc => g.setReg rd (if gccHolds i.cc g.flags then 1 else 0)
  | .addRi => (g.setReg rd (d + i.imm)).setFlags (addFlags d i.imm)
  | .subRi => (g.setReg rd (d - i.imm)).setFlags (subFlags d i.imm)
  | .cmpRi => g.setFlags (subFlags d i.imm)
  | .testRr => g.setFlags (logicFlags (d &&& n))
  | .xorRr => (g.setReg rd (d ^^^ n)).setFlags (logicFlags (d ^^^ n))
  | .andRr => (g.setReg rd (d &&& n)).setFlags (logicFlags (d &&& n))
  | .orRr => (g.setReg rd (d ||| n)).setFlags (logicFlags (d ||| n))
  | .lea => g.setReg rd (n + i.imm)
  | .push =>
      -- the value is read before RSP changes
      (g.setReg rsp (g.regs rsp - 8)).setMem (store64 g.mem (g.regs rsp - 8) d)
  | .pop =>
      -- the loaded value goes to the register after RSP has changed
      (g.setReg rsp (g.regs rsp + 8)).setReg rd (load64 g.mem (g.regs rsp))
  | .call => (g.setReg rsp (g.regs rsp - 8)).setMem (store64 g.mem (g.regs rsp - 8) i.imm)
  | .x86ret => g.setReg rsp (g.regs rsp + 8)
  | .br => g
  | .jmp => g
  | .ret => g

/-- The meaning of an instruction record; nothing without an opcode. -/
def x86Step (g : X86State) (i : OryxGinsn) : X86State :=
  match i.opcode with
  | some op => x86Exec i op g
  | none => g

/-- The meaning of a sequence of instructions. -/
def x86Run (ops : List OryxGinsn) (g : X86State) : X86State := ops.foldl x86Step g

/-- Where the block at `pc`, covering `len` guest bytes, continues after its
terminator `i`, executed in `g`. -/
def x86NextPc (pc : U64) (len : U32) (i : OryxGinsn) (g : X86State) : U64 :=
  match i.opcode with
  | some .br => if gccHolds i.cc g.flags then i.target else pc + len.setWidth 64
  | some .jmp => i.target
  | some .call => i.target
  | some .x86ret => load64 g.mem (g.regs rsp)
  | some .ret => oryxHaltPc
  | _ => pc + len.setWidth 64

/-- The meaning of the block at `pc`, covering `len` guest bytes: its final state
and where it continues. -/
def x86Block (pc : U64) (len : U32) : List OryxGinsn → X86State → X86State × U64
  | [], g => (g, pc + len.setWidth 64)
  | [i], g => (x86Step g i, x86NextPc pc len i g)
  | i :: j :: ops, g => x86Block pc len (j :: ops) (x86Step g i)

theorem x86Block_append (pc : U64) (len : U32) (body : List OryxGinsn) (last : OryxGinsn)
    (g : X86State) : x86Block pc len (body ++ [last]) g =
      (x86Step (x86Run body g) last, x86NextPc pc len last (x86Run body g)) := by
  induction body generalizing g with
  | nil => rfl
  | cons i body ih =>
    rw [x86Run, List.foldl_cons, ← x86Run]
    cases body with
    | nil => rfl
    | cons j body => exact ih (x86Step g i)

end Oryx
