/-
Oryx/Lib/X86/Machine.lean

An x86 machine that runs the instructions of `Encoding` from their bytes.

The text is a list of bytes at an address, in a space of its own that no
store reaches.  `Step` runs one instruction that stands at `rip`, and
`BlockStep` a whole block; a block step is a sequence of steps
(`BlockStep.steps`).

Two machines `Agree` when they differ in the flags alone.  A run that reads
no flags it has not written (`flagsLocal`) takes machines that agree to
machines that agree (`execRun_agree`), so a machine that keeps no flags
between two blocks can still follow it.
-/
import Mathlib.Logic.Relation
import Mathlib.Logic.Function.Basic
import Oryx.Lib.Memory
import Oryx.Lib.X86.Encoding

namespace Oryx.X86

/-! ### The machine -/

structure Machine where
  rip : Addr
  regs : Reg → BitVec 64
  flags : Flags
  mem : Mem

/-- The stack pointer. -/
def stackReg : Reg := 4

namespace Machine

def goto (m : Machine) (a : Addr) : Machine := { m with rip := a }

def setReg (m : Machine) (r : Reg) (v : BitVec 64) : Machine :=
  { m with regs := Function.update m.regs r v }

def setFlags (m : Machine) (f : Flags) : Machine := { m with flags := f }

def setMem (m : Machine) (mem : Mem) : Machine := { m with mem := mem }

end Machine

/-- The result an operation writes back; CMP and TEST write none. -/
def AluOp.result : AluOp → BitVec 64 → BitVec 64 → Option (BitVec 64)
  | .add, a, b => some (a + b)
  | .or, a, b => some (a ||| b)
  | .and, a, b => some (a &&& b)
  | .sub, a, b => some (a - b)
  | .xor, a, b => some (a ^^^ b)
  | .cmp, _, _ | .test, _, _ => none

def AluOp.flags : AluOp → BitVec 64 → BitVec 64 → Flags
  | .add, a, b => addFlags a b
  | .or, a, b => logicFlags (a ||| b)
  | .and, a, b | .test, a, b => logicFlags (a &&& b)
  | .sub, a, b | .cmp, a, b => subFlags a b
  | .xor, a, b => logicFlags (a ^^^ b)

/-- Group 1 with a constant is the operation of that name. -/
def ImmOp.alu : ImmOp → AluOp
  | .add => .add
  | .sub => .sub
  | .cmp => .cmp

/-- An operation on a register and a value. -/
def Machine.alu (m : Machine) (op : AluOp) (dst : Reg) (b : BitVec 64) : Machine :=
  (match op.result (m.regs dst) b with
    | some v => m.setReg dst v
    | none => m).setFlags (op.flags (m.regs dst) b)

/-- The instruction that ends at `next`. -/
def Insn.exec (next : Addr) (i : Insn) (m : Machine) : Machine :=
  let sp := m.regs stackReg
  match i with
  | .endbr64 => m.goto next
  | .mov dst src => (m.setReg dst (m.regs src)).goto next
  | .movImm dst imm => (m.setReg dst imm).goto next
  | .alu op dst src => (m.alu op dst (m.regs src)).goto next
  | .aluImm op dst imm => (m.alu op.alu dst imm).goto next
  | .lea dst base disp => (m.setReg dst (m.regs base + disp)).goto next
  -- the value pushed is the one before the stack pointer moves
  | .push src => ((m.setReg stackReg (sp - 8)).setMem (store64 m.mem (sp - 8) (m.regs src))).goto next
  -- the value popped is written after it has moved
  | .pop dst => ((m.setReg stackReg (sp + 8)).setReg dst (load64 m.mem sp)).goto next
  | .call rel =>
      ((m.setReg stackReg (sp - 8)).setMem (store64 m.mem (sp - 8) next)).goto (next + rel)
  | .jcc cond rel => m.goto (if cond.holds m.flags then next + rel else next)
  | .jmp rel => m.goto (next + rel)
  | .ret => (m.setReg stackReg (sp + 8)).goto (load64 m.mem sp)

/-- An instruction that stands at `rip`. -/
def Encoded.exec (e : Encoded) (m : Machine) : Machine :=
  e.insn.exec (m.rip + BitVec.ofNat 64 e.bytes.length) m

/-- A run of instructions, one behind the other. -/
def execRun (run : List Encoded) (m : Machine) : Machine := run.foldl (fun m e => e.exec m) m

@[simp] theorem execRun_cons (e : Encoded) (run : List Encoded) (m : Machine) :
    execRun (e :: run) m = execRun run (e.exec m) := rfl

/-- Only a terminator leaves the straight line. -/
theorem Insn.exec_rip {i : Insn} (h : i.isTerminator = false) (next : Addr) (m : Machine) :
    (i.exec next m).rip = next := by
  cases i with
  | call | jcc | jmp | ret => cases h
  | alu op dst src => cases op <;> rfl
  | aluImm op dst imm => cases op <;> rfl
  | _ => rfl

theorem Encoded.exec_rip {e : Encoded} (h : e.insn.isTerminator = false) (m : Machine) :
    (e.exec m).rip = m.rip + BitVec.ofNat 64 e.bytes.length :=
  Insn.exec_rip h _ m

/-! ### The text -/

/-- Bytes of instructions, the first at `base`. -/
structure Text where
  base : Addr
  bytes : List Byte

namespace Text

/-- The text ends before the address space does. -/
def Bounded (t : Text) : Prop := t.base.toNat + t.bytes.length < 2 ^ 64

/-- The bytes stand at an address of the text. -/
structure Holds (t : Text) (a : Addr) (bs : List Byte) : Prop where
  base_le : t.base.toNat ≤ a.toNat
  prefix_drop : bs <+: t.bytes.drop (a.toNat - t.base.toNat)

variable {t : Text} {a : Addr} {bs cs : List Byte}

theorem Holds.left (h : t.Holds a (bs ++ cs)) : t.Holds a bs :=
  ⟨h.base_le, (List.prefix_append bs cs).trans h.prefix_drop⟩

theorem Holds.length_le (h : t.Holds a bs) :
    bs.length ≤ t.bytes.length - (a.toNat - t.base.toNat) := by
  have hle := h.prefix_drop.length_le
  rwa [List.length_drop] at hle

/-- What stands behind the first bytes stands at the address behind them. -/
theorem Holds.right (ht : t.Bounded) (h : t.Holds a (bs ++ cs)) :
    t.Holds (a + BitVec.ofNat 64 bs.length) cs := by
  have hle := h.left.length_le
  have hbase := h.base_le
  have hlt := a.isLt
  have haddr : (a + BitVec.ofNat 64 bs.length).toNat = a.toNat + bs.length := by
    unfold Bounded at ht
    rw [BitVec.toNat_add, BitVec.toNat_ofNat]
    omega
  refine ⟨by omega, ?_⟩
  obtain ⟨rest, hrest⟩ := h.prefix_drop
  refine ⟨rest, ?_⟩
  have hoff : (a + BitVec.ofNat 64 bs.length).toNat - t.base.toNat =
      a.toNat - t.base.toNat + bs.length := by omega
  rw [hoff, ← List.drop_drop, ← hrest, List.append_assoc, List.drop_left]

end Text

/-! ### Steps -/

/-- One instruction. -/
inductive Step (t : Text) : Machine → Machine → Prop
  | insn (m : Machine) (e : Encoded) (h : t.Holds m.rip e.bytes) : Step t m (e.exec m)

/-- One block. -/
inductive BlockStep (t : Text) : Machine → Machine → Prop
  | block (m : Machine) (run : List Encoded) (hblock : IsBlock run)
      (h : t.Holds m.rip (codeBytes run)) : BlockStep t m (execRun run m)

variable {t : Text} {m m' : Machine}

/-- **A block step is a sequence of steps.** -/
theorem BlockStep.steps (ht : t.Bounded) (h : BlockStep t m m') :
    Relation.TransGen (Step t) m m' := by
  obtain ⟨run, hblock, h⟩ := h
  induction run generalizing m with
  | nil =>
    obtain ⟨body, last, hnil, -⟩ := hblock
    exact absurd hnil.symm (List.append_ne_nil_of_right_ne_nil _ (List.cons_ne_nil _ _))
  | cons e run ih =>
    rw [codeBytes_cons] at h
    have hstep := Step.insn m e h.left
    rcases hblock.cases with ⟨_, heq, -⟩ | ⟨_, _, heq, hopen, hrest⟩
    · cases heq
      exact .single hstep
    · cases heq
      refine .head hstep (ih hrest ?_)
      rw [Encoded.exec_rip hopen]
      exact h.right ht

/-- `n` blocks, one after the other. -/
inductive BlockSteps (t : Text) : Nat → Machine → Machine → Prop
  | refl (m : Machine) : BlockSteps t 0 m m
  | head {n : Nat} {m m₁ m' : Machine} (hstep : BlockStep t m m₁) (hrest : BlockSteps t n m₁ m') :
      BlockSteps t (n + 1) m m'

theorem BlockSteps.steps (ht : t.Bounded) {n : Nat} (h : BlockSteps t n m m') :
    Relation.ReflTransGen (Step t) m m' := by
  induction h with
  | refl => exact .refl
  | head hstep _ ih => exact (hstep.steps ht).to_reflTransGen.trans ih

/-! ### Flags -/

/-- The instruction writes the status flags, whatever they were. -/
def Insn.writesFlags : Insn → Bool
  | .alu .. | .aluImm .. => true
  | _ => false

/-- The instruction depends on the status flags. -/
def Insn.readsFlags : Insn → Bool
  | .jcc .. => true
  | _ => false

/-- No instruction reads flags that none before it has written. -/
def flagsLocal : List Encoded → Bool
  | [] => true
  | e :: run => e.insn.writesFlags || !e.insn.readsFlags && flagsLocal run

/-- The machines differ in the flags alone. -/
structure Agree (m m' : Machine) : Prop where
  rip : m.rip = m'.rip
  regs : m.regs = m'.regs
  mem : m.mem = m'.mem

theorem Agree.refl (m : Machine) : Agree m m := ⟨rfl, rfl, rfl⟩

theorem Agree.exists_flags (h : Agree m m') : m' = m.setFlags m'.flags := by
  obtain ⟨rip, regs, flags, mem⟩ := m
  obtain ⟨hrip, hregs, hmem⟩ := h
  cases hrip
  cases hregs
  cases hmem
  rfl

theorem Insn.exec_setFlags {i : Insn} (h : i.readsFlags = false) (next : Addr) (m : Machine)
    (f : Flags) : Agree (i.exec next m) (i.exec next (m.setFlags f)) := by
  cases i with
  | alu op dst src => cases op <;> exact ⟨rfl, rfl, rfl⟩
  | aluImm op dst imm => cases op <;> exact ⟨rfl, rfl, rfl⟩
  | jcc => cases h
  | _ => exact ⟨rfl, rfl, rfl⟩

theorem Insn.exec_setFlags_of_writes {i : Insn} (h : i.writesFlags = true) (next : Addr)
    (m : Machine) (f : Flags) : i.exec next (m.setFlags f) = i.exec next m := by
  cases i with
  | alu op dst src => cases op <;> rfl
  | aluImm op dst imm => cases op <;> rfl
  | _ => cases h

theorem Encoded.exec_agree {e : Encoded} (he : e.insn.readsFlags = false) (h : Agree m m') :
    Agree (e.exec m) (e.exec m') := by
  rw [h.exists_flags]
  exact Insn.exec_setFlags he _ m _

theorem Encoded.exec_eq_of_writes {e : Encoded} (he : e.insn.writesFlags = true)
    (h : Agree m m') : e.exec m = e.exec m' := by
  rw [h.exists_flags]
  exact (Insn.exec_setFlags_of_writes he _ m _).symm

/-- **Flags that stay local do not matter.** -/
theorem execRun_agree {run : List Encoded} (hrun : flagsLocal run = true) (h : Agree m m') :
    Agree (execRun run m) (execRun run m') := by
  induction run generalizing m m' with
  | nil => exact h
  | cons e run ih =>
    rw [flagsLocal, Bool.or_eq_true, Bool.and_eq_true] at hrun
    rcases hrun with hwrites | ⟨hreads, hrest⟩
    · -- from here on the two machines are one
      rw [execRun_cons, execRun_cons, Encoded.exec_eq_of_writes hwrites h]
      exact .refl _
    · rw [Bool.not_eq_true'] at hreads
      exact ih hrest (Encoded.exec_agree hreads h)

end Oryx.X86
