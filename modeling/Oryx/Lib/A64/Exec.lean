/-
Oryx/Lib/A64/Exec.lean

What the subset of `A64.Insn` does, and what running a code region means.

* `exec` is the effect of one instruction that is not a branch.
* `step` runs the word at the program counter: branches move it, `RET`
  leaves the region.  The program counter counts words from the start of the
  region, so the code is position independent by construction.
* `runFrom` is a run until `RET`, with a step bound; `Returns` is a run that
  comes to its `RET`, whatever the bound.

The rules a proof about emitted code uses are at the end: a straight-line
piece of code advances the machine by its own effect (`runFrom_straight`),
a branch hands over at its target (`runFrom_b`, `runFrom_bcond`), and a run
that returned returns with every larger bound (`runFrom_mono`).
-/
import Oryx.Lib.Memory
import Oryx.Lib.A64.Insn

namespace Oryx.A64

structure Flags where
  n : Bool
  z : Bool
  c : Bool
  v : Bool
  deriving DecidableEq, Repr

/-- The machine between two instructions.  Entry 31 of `x` is never used:
register operand 31 is the zero register or the stack pointer. -/
structure State where
  x : Reg → BitVec 64
  sp : BitVec 64
  flags : Flags
  mem : Mem

namespace State

/-- Read register operand `r`, 31 being the zero register. -/
def getX (s : State) (r : Reg) : BitVec 64 := if r = 31 then 0 else s.x r

/-- Read register operand `r`, 31 being the stack pointer. -/
def getXSP (s : State) (r : Reg) : BitVec 64 := if r = 31 then s.sp else s.x r

/-- Write register operand `r`; a write to the zero register is lost. -/
def setX (s : State) (r : Reg) (v : BitVec 64) : State :=
  if r = 31 then s else { s with x := Function.update s.x r v }

def setXSP (s : State) (r : Reg) (v : BitVec 64) : State :=
  if r = 31 then { s with sp := v } else { s with x := Function.update s.x r v }

end State

/-! ### Arithmetic with flags -/

/-- `AddWithCarry`: the sum and the flags it sets.  Carry and overflow say
that the unsigned and the signed sum do not fit. -/
def addWithCarry (a b : BitVec 64) (cin : Bool) : BitVec 64 × Flags :=
  let sum := a + b + BitVec.ofNat 64 cin.toNat
  (sum,
    { n := sum.msb
      z := sum == 0
      c := decide (sum.toNat ≠ a.toNat + b.toNat + cin.toNat)
      v := decide (sum.toInt ≠ a.toInt + b.toInt + cin.toNat) })

/-- The sum or the difference (`op`), as the instruction set defines the latter. -/
def addSub (op : Bool) (a b : BitVec 64) : BitVec 64 × Flags :=
  if op then addWithCarry a (~~~b) true else addWithCarry a b false

/-- The flags of a logical result. -/
def logicFlags (r : BitVec 64) : Flags :=
  { n := r.msb, z := r == 0, c := false, v := false }

def LogicOp.apply (op : LogicOp) (a b : BitVec 64) : BitVec 64 :=
  match op with
  | .orr => a ||| b
  | .eor => a ^^^ b
  | .ands => a &&& b

/-- `ConditionHolds`: bits 3:1 name the test, bit 0 inverts it except in 15. -/
def condHolds (cond : Fin 16) (f : Flags) : Bool :=
  let test := match cond.val / 2 with
    | 0 => f.z
    | 1 => f.c
    | 2 => f.n
    | 3 => f.v
    | 4 => f.c && !f.z
    | 5 => f.n == f.v
    | 6 => (f.n == f.v) && !f.z
    | _ => true
  if cond.val % 2 = 1 ∧ cond ≠ 15 then !test else test

/-- `MOVK`: replace 16-bit lane `hw` of `old`. -/
def insertLane (old : BitVec 64) (imm16 : BitVec 16) (hw : Fin 4) : BitVec 64 :=
  (old &&& ~~~(BitVec.ofNat 64 0xFFFF <<< (16 * hw.val))) |||
    (imm16.setWidth 64 <<< (16 * hw.val))

/-- The byte address of a scaled unsigned offset. -/
def scaledAddr (base : BitVec 64) (imm12 : BitVec 12) : Addr :=
  base + 8 * imm12.setWidth 64

/-! ### One instruction -/

/-- The effect of an instruction that is not a branch. -/
def exec (i : Insn) (s : State) : Option State :=
  match i with
  | .addSubImm op S rd rn imm12 =>
      let r := addSub op (s.getXSP rn) (imm12.setWidth 64)
      some (if S then { s.setX rd r.1 with flags := r.2 } else s.setXSP rd r.1)
  | .addSubReg op S rd rn rm =>
      let r := addSub op (s.getX rn) (s.getX rm)
      some (if S then { s.setX rd r.1 with flags := r.2 } else s.setX rd r.1)
  | .logicReg op rd rn rm =>
      let r := op.apply (s.getX rn) (s.getX rm)
      some (if op = .ands then { s.setX rd r with flags := logicFlags r } else s.setX rd r)
  | .moveWide keep rd imm16 hw =>
      let old := if keep then s.getX rd else 0
      some (s.setX rd (insertLane old imm16 hw))
  | .ldr rt rn imm12 => some (s.setX rt (load64 s.mem (scaledAddr (s.getXSP rn) imm12)))
  | .str rt rn imm12 =>
      some { s with mem := store64 s.mem (scaledAddr (s.getXSP rn) imm12) (s.getX rt) }
  | .ldar rt rn => some (s.setX rt (load64 s.mem (s.getXSP rn)))
  | .ldapr rt rn => some (s.setX rt (load64 s.mem (s.getXSP rn)))
  | .stlr rt rn => some { s with mem := store64 s.mem (s.getXSP rn) (s.getX rt) }
  | .ldaddal rs rt rn =>
      let a := s.getXSP rn
      let old := load64 s.mem a
      some ({ s with mem := store64 s.mem a (old + s.getX rs) }.setX rt old)
  | .casal rs rt rn =>
      let a := s.getXSP rn
      let old := load64 s.mem a
      let mem := if old = s.getX rs then store64 s.mem a (s.getX rt) else s.mem
      some ({ s with mem := mem }.setX rs old)
  | .dmb _ => some s
  | .csinc rd rn rm cond =>
      some (s.setX rd (if condHolds cond s.flags then s.getX rn else s.getX rm + 1))
  | .b _ | .bcond .. | .ret _ => none

/-- The effect of a straight-line sequence. -/
def execSeq : List Insn → State → Option State
  | [], s => some s
  | i :: is, s => (exec i s).bind (execSeq is)

@[simp] theorem execSeq_nil (s : State) : execSeq [] s = some s := rfl

@[simp] theorem execSeq_cons (i : Insn) (is : List Insn) (s : State) :
    execSeq (i :: is) s = (exec i s).bind (execSeq is) := rfl

theorem execSeq_append (is js : List Insn) (s : State) :
    execSeq (is ++ js) s = (execSeq is s).bind (execSeq js) := by
  induction is generalizing s with
  | nil => rfl
  | cons i is ih =>
    simp only [List.cons_append, execSeq_cons, Option.bind_assoc]
    congr 1
    funext t
    exact ih t

/-! ### A code region -/

/-- Where one step of the machine leads. -/
inductive Next
  /-- To the word `pc` of the region. -/
  | next (pc : Nat) (s : State)
  /-- Out of the region, to an address. -/
  | returned (target : BitVec 64) (s : State)

/-- A word offset from `pc`, when it does not lead before the region. -/
def branchTo (pc : Nat) (off : Int) (s : State) : Option Next :=
  if 0 ≤ (pc : Int) + off then some (.next ((pc : Int) + off).toNat s) else none

/-- Run the word at `pc`; `none` when there is none or it is not in the subset. -/
def step (code : List Word) (pc : Nat) (s : State) : Option Next :=
  match code[pc]?.bind decode with
  | none => none
  | some (.b imm26) => branchTo pc imm26.toInt s
  | some (.bcond cond imm19) =>
      if condHolds cond s.flags then branchTo pc imm19.toInt s else some (.next (pc + 1) s)
  | some (.ret rn) => some (.returned (s.getX rn) s)
  | some i => (exec i s).map (.next (pc + 1))

/-- Run from `pc` until the region is left, for at most `fuel` steps. -/
def runFrom (code : List Word) : Nat → Nat → State → Option (BitVec 64 × State)
  | 0, _, _ => none
  | fuel + 1, pc, s =>
      match step code pc s with
      | none => none
      | some (.next pc' s') => runFrom code fuel pc' s'
      | some (.returned target s') => some (target, s')

/-- Started at `pc` in `s`, the region is left for `target` in state `s'`. -/
def Returns (code : List Word) (pc : Nat) (s : State) (target : BitVec 64) (s' : State) : Prop :=
  ∃ fuel, runFrom code fuel pc s = some (target, s')

/-- The machine after `n` steps inside the region. -/
def iterate (code : List Word) : Nat → Nat → State → Option (Nat × State)
  | 0, pc, s => some (pc, s)
  | n + 1, pc, s =>
      match step code pc s with
      | some (.next pc' s') => iterate code n pc' s'
      | _ => none

/-! ### Rules for runs -/

/-- A run that returned returns with every larger bound. -/
theorem runFrom_mono {code : List Word} {fuel k pc : Nat} {s : State}
    {r : BitVec 64 × State} (h : runFrom code fuel pc s = some r) :
    runFrom code (fuel + k) pc s = some r := by
  induction fuel generalizing pc s with
  | zero => cases h
  | succ fuel ih =>
    rw [Nat.succ_add]
    unfold runFrom at h ⊢
    rcases hs : step code pc s with - | (⟨pc', s'⟩ | ⟨t, s'⟩) <;> rw [hs] at h <;> simp only at h ⊢
    · cases h
    · exact ih h
    · exact h

/-- The result of a run does not depend on the bound. -/
theorem Returns.unique {code : List Word} {pc : Nat} {s : State} {t t' : BitVec 64}
    {u u' : State} (h : Returns code pc s t u) (h' : Returns code pc s t' u') :
    t = t' ∧ u = u' := by
  obtain ⟨f, hf⟩ := h
  obtain ⟨f', hf'⟩ := h'
  have e := runFrom_mono (k := f') hf
  rw [Nat.add_comm, runFrom_mono (k := f) hf', Option.some.injEq, Prod.mk.injEq] at e
  exact ⟨e.1.symm, e.2.symm⟩

/-- An instruction that has an effect is no branch, so the machine takes it
and goes on. -/
theorem step_of_exec {code : List Word} {pc : Nat} {s s' : State} {w : Word} {i : Insn}
    (hw : code[pc]? = some w) (hd : decode w = some i) (he : exec i s = some s') :
    step code pc s = some (.next (pc + 1) s') := by
  have hb : code[pc]?.bind decode = some i := by rw [hw, Option.bind_some, hd]
  cases i with
  | b _ => cases he
  | bcond _ _ => cases he
  | ret _ => cases he
  | _ => simp only [step, hb, he, Option.map_some]

/-- The words at `pc` decode to `is`. -/
def CodeAt (code : List Word) (pc : Nat) (is : List Insn) : Prop :=
  ∀ k i, is[k]? = some i → ∃ w, code[pc + k]? = some w ∧ decode w = some i

theorem CodeAt.head {code : List Word} {pc : Nat} {i : Insn} {is : List Insn}
    (h : CodeAt code pc (i :: is)) : ∃ w, code[pc]? = some w ∧ decode w = some i :=
  h 0 i rfl

theorem CodeAt.tail {code : List Word} {pc : Nat} {i : Insn} {is : List Insn}
    (h : CodeAt code pc (i :: is)) : CodeAt code (pc + 1) is := by
  intro k j hk
  have e : pc + 1 + k = pc + (k + 1) := by omega
  rw [e]
  exact h (k + 1) j hk

theorem CodeAt.left {code : List Word} {pc : Nat} {is js : List Insn}
    (h : CodeAt code pc (is ++ js)) : CodeAt code pc is := by
  intro k i hk
  apply h k i
  rw [List.getElem?_append_left (List.getElem?_eq_some_iff.mp hk).1, hk]

theorem CodeAt.right {code : List Word} {pc : Nat} {is js : List Insn}
    (h : CodeAt code pc (is ++ js)) : CodeAt code (pc + is.length) js := by
  intro k i hk
  rw [Nat.add_assoc]
  apply h (is.length + k) i
  rw [List.getElem?_append_right (Nat.le_add_right _ k), Nat.add_sub_cancel_left, hk]

/-- `n` steps of a straight-line piece of code. -/
theorem iterate_straight {code : List Word} {pc : Nat} {is : List Insn} {s s' : State}
    (hc : CodeAt code pc is) (he : execSeq is s = some s') :
    iterate code is.length pc s = some (pc + is.length, s') := by
  induction is generalizing pc s with
  | nil =>
    cases he
    rfl
  | cons i is ih =>
    obtain ⟨w, hw, hd⟩ := hc.head
    rw [execSeq_cons, Option.bind_eq_some_iff] at he
    obtain ⟨u, hu, hrest⟩ := he
    have hlen : pc + (i :: is).length = pc + 1 + is.length := by
      rw [List.length_cons]; omega
    rw [hlen, List.length_cons, iterate, step_of_exec hw hd hu]
    exact ih hc.tail hrest

/-- A run goes through a straight-line piece of code by its effect. -/
theorem runFrom_straight {code : List Word} {pc : Nat} {is : List Insn} {s s' : State}
    (hc : CodeAt code pc is) (he : execSeq is s = some s') (fuel : Nat) :
    runFrom code (is.length + fuel) pc s = runFrom code fuel (pc + is.length) s' := by
  induction is generalizing pc s with
  | nil =>
    cases he
    rw [List.length_nil, Nat.zero_add, Nat.add_zero]
  | cons i is ih =>
    obtain ⟨w, hw, hd⟩ := hc.head
    rw [execSeq_cons, Option.bind_eq_some_iff] at he
    obtain ⟨u, hu, hrest⟩ := he
    have hlen : (i :: is).length + fuel = (is.length + fuel) + 1 := by
      rw [List.length_cons]; omega
    have hpc : pc + (i :: is).length = pc + 1 + is.length := by
      rw [List.length_cons]; omega
    rw [hlen, hpc, runFrom, step_of_exec hw hd hu]
    exact ih hc.tail hrest

/-- After a straight-line piece, the run is the run of what follows. -/
theorem Returns.straight {code : List Word} {pc : Nat} {is : List Insn} {s s' u : State}
    {t : BitVec 64} (hc : CodeAt code pc is) (he : execSeq is s = some s')
    (h : Returns code (pc + is.length) s' t u) : Returns code pc s t u := by
  obtain ⟨fuel, hf⟩ := h
  exact ⟨is.length + fuel, by rw [runFrom_straight hc he, hf]⟩

theorem Returns.of_step {code : List Word} {pc pc' : Nat} {s s' u : State} {t : BitVec 64}
    (hs : step code pc s = some (.next pc' s')) (h : Returns code pc' s' t u) :
    Returns code pc s t u := by
  obtain ⟨fuel, hf⟩ := h
  exact ⟨fuel + 1, by rw [runFrom, hs]; exact hf⟩

/-- What is reached from a state is reached from the next one. -/
theorem Returns.next {code : List Word} {pc pc' : Nat} {s s' u : State} {t : BitVec 64}
    (h : Returns code pc s t u) (hs : step code pc s = some (.next pc' s')) :
    Returns code pc' s' t u := by
  obtain ⟨fuel, hf⟩ := h
  cases fuel with
  | zero => cases hf
  | succ fuel =>
    rw [runFrom, hs] at hf
    exact ⟨fuel, hf⟩

/-- No run goes through a word that is no instruction. -/
theorem not_returns {code : List Word} {pc : Nat} {s u : State} {t : BitVec 64} {w : Word}
    (hw : code[pc]? = some w) (hd : decode w = none) : ¬ Returns code pc s t u := by
  rintro ⟨fuel, hf⟩
  cases fuel with
  | zero => cases hf
  | succ fuel =>
    rw [runFrom, step, hw, Option.bind_some, hd] at hf
    cases hf

/-- `RET` leaves the region for its register. -/
theorem Returns.ret {code : List Word} {pc : Nat} {s : State} {w : Word} {rn : Reg}
    (hw : code[pc]? = some w) (hd : decode w = some (.ret rn)) :
    Returns code pc s (s.getX rn) s := by
  refine ⟨1, ?_⟩
  rw [runFrom, step, hw, Option.bind_some, hd]

/-- `B` hands over at its target. -/
theorem Returns.b {code : List Word} {pc pc' : Nat} {s u : State} {t : BitVec 64} {w : Word}
    {imm26 : BitVec 26} (hw : code[pc]? = some w) (hd : decode w = some (.b imm26))
    (hto : (pc : Int) + imm26.toInt = pc') (h : Returns code pc' s t u) :
    Returns code pc s t u := by
  refine .of_step ?_ h
  rw [step, hw, Option.bind_some, hd]
  simp only [branchTo, hto]
  simp

/-- `B.cond` goes to its target when the condition holds and on otherwise. -/
theorem Returns.bcond {code : List Word} {pc pc' : Nat} {s u : State} {t : BitVec 64} {w : Word}
    {cond : Fin 16} {imm19 : BitVec 19} (hw : code[pc]? = some w)
    (hd : decode w = some (.bcond cond imm19)) (hto : (pc : Int) + imm19.toInt = pc')
    (h : Returns code (if condHolds cond s.flags then pc' else pc + 1) s t u) :
    Returns code pc s t u := by
  refine .of_step ?_ h
  rw [step, hw, Option.bind_some, hd]
  simp only [branchTo, hto]
  split <;> simp

end Oryx.A64
