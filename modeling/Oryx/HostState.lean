/-
Oryx/HostState.lean

The guest state on the host machine, and what single A64 instructions make
of it.

`guestOf` reads the guest state off the machine: guest register `r` is `x r`,
SF, ZF and OF are N, Z and V, and memory is memory.  `RunsTo is s g` says that
the sequence `is`, started in `s`, ends with guest state `g` and leaves `x17`
and `x30` alone; the scratch register `x16` and the carry flag are free.

There is one lemma for each instruction form the translator uses
(`runsTo_addImm` and its siblings), one for the materialization of a constant
(`execSeq_movimmInsns`) and one for the choice between the three shapes of an
operation with a constant (`runsTo_constInsns`).
-/
import Oryx.Lowering
import Oryx.GuestSemantics
import Oryx.Lib.A64.Exec

namespace Oryx

open A64

/-! ### The guest state of the machine -/

/-- The host register of a guest register. -/
def hostReg (r : GReg) : Reg := ⟨r.val, by have := r.isLt; omega⟩

def guestFlags (f : A64.Flags) : X86.Flags := ⟨f.n, f.z, f.v⟩

/-- The guest state a host machine holds. -/
def guestOf (s : A64.State) : X86State where
  regs r := s.x (hostReg r)
  flags := guestFlags s.flags
  mem := s.mem

theorem xreg_eq_hostReg {r : CInt} (h : r.toNat < 16) : xreg r = hostReg (greg r) := by
  apply Fin.ext
  show r.toNat % 32 = r.toNat % 16
  omega

theorem hostReg_ne {r : GReg} {k : Reg} (h : 16 ≤ k.val) : hostReg r ≠ k := by
  intro e
  have hk : r.val = k.val := congrArg Fin.val e
  have := r.isLt
  omega

theorem hostReg_injective {r r' : GReg} (h : hostReg r = hostReg r') : r = r' :=
  Fin.ext (Fin.mk.inj h)

section Registers

variable (s : A64.State) (r : GReg) (v : U64)

theorem getX_of_ne {k : Reg} (h : k ≠ 31) : s.getX k = s.x k := if_neg h

@[simp] theorem getX_hostReg : s.getX (hostReg r) = (guestOf s).regs r :=
  getX_of_ne s (hostReg_ne (by decide))

@[simp] theorem getXSP_hostReg : s.getXSP (hostReg r) = (guestOf s).regs r :=
  if_neg (hostReg_ne (by decide))

@[simp] theorem setXSP_hostReg : s.setXSP (hostReg r) v = s.setX (hostReg r) v := by
  have h : hostReg r ≠ 31 := hostReg_ne (by decide)
  rw [A64.State.setXSP, A64.State.setX, if_neg h, if_neg h]

theorem setX_x {k : Reg} (h : k ≠ 31) : (s.setX k v).x = Function.update s.x k v := by
  rw [A64.State.setX, if_neg h]

@[simp] theorem setX_flags (k : Reg) : (s.setX k v).flags = s.flags := by
  unfold A64.State.setX
  split <;> rfl

@[simp] theorem setX_mem (k : Reg) : (s.setX k v).mem = s.mem := by
  unfold A64.State.setX
  split <;> rfl

/-- A write to a guest register is seen there and nowhere else. -/
@[simp] theorem guestOf_setX_hostReg :
    guestOf (s.setX (hostReg r) v) = (guestOf s).setReg r v := by
  ext1
  · funext k
    simp only [guestOf, X86State.setReg, setX_x s v (hostReg_ne (k := 31) (by decide))]
    by_cases hk : k = r
    · rw [hk, Function.update_self, Function.update_self]
    · rw [Function.update_of_ne hk, Function.update_of_ne fun e => hk (hostReg_injective e)]
  · simp only [guestOf, X86State.setReg, setX_flags]
  · simp only [guestOf, X86State.setReg, setX_mem]

/-- A write to a register above the guest's is not seen. -/
theorem guestOf_setX_host {k : Reg} (h : 16 ≤ k.val) : guestOf (s.setX k v) = guestOf s := by
  ext1
  · funext j
    by_cases hk : k = 31
    · rw [A64.State.setX, if_pos hk]
    · simp only [guestOf, setX_x s v hk]
      rw [Function.update_of_ne (hostReg_ne h)]
  · simp only [guestOf, setX_flags]
  · simp only [guestOf, setX_mem]

@[simp] theorem guestOf_setX_16 : guestOf (s.setX 16 v) = guestOf s :=
  guestOf_setX_host s v (by decide)

@[simp] theorem guestOf_setX_17 : guestOf (s.setX 17 v) = guestOf s :=
  guestOf_setX_host s v (by decide)

@[simp] theorem getX_setX_16 : (s.setX 16 v).getX 16 = v := by
  rw [getX_of_ne _ (by decide), setX_x _ _ (by decide), Function.update_self]

@[simp] theorem guestOf_flags (f : A64.Flags) :
    guestOf { s with flags := f } = (guestOf s).setFlags (guestFlags f) := rfl

@[simp] theorem guestOf_mem (m : Mem) : guestOf { s with mem := m } = (guestOf s).setMem m := rfl

theorem setX_x_of_ne {k j : Reg} (h : j ≠ k) : (s.setX k v).x j = s.x j := by
  unfold A64.State.setX
  split
  · rfl
  · exact Function.update_of_ne h _ _

@[simp] theorem setX_hostReg_17 : (s.setX (hostReg r) v).x 17 = s.x 17 :=
  setX_x_of_ne s v (hostReg_ne (by decide)).symm

@[simp] theorem setX_hostReg_30 : (s.setX (hostReg r) v).x 30 = s.x 30 :=
  setX_x_of_ne s v (hostReg_ne (by decide)).symm

@[simp] theorem setX_16_17 : (s.setX 16 v).x 17 = s.x 17 := setX_x_of_ne s v (by decide)
@[simp] theorem setX_16_30 : (s.setX 16 v).x 30 = s.x 30 := setX_x_of_ne s v (by decide)
@[simp] theorem setX_31 : s.setX 31 v = s := if_pos rfl

end Registers

/-! ### Flags -/

theorem guestFlags_add (a b : U64) : guestFlags (addSub false a b).2 = X86.addFlags a b := by
  simp only [addSub, addWithCarry, guestFlags, X86.addFlags, Bool.toNat_false]
  simp

theorem toInt_not_add_one (b : U64) : (~~~b).toInt + 1 = -b.toInt := by
  have := b.isLt
  rw [BitVec.toInt_eq_toNat_cond, BitVec.toInt_eq_toNat_cond, BitVec.toNat_not]
  split <;> split <;> omega

/-- `a - b` is computed as `a + ~b + 1`. -/
theorem guestFlags_sub (a b : U64) : guestFlags (addSub true a b).2 = X86.subFlags a b := by
  have hdiff : a + ~~~b + 1#64 = a - b := by
    rw [BitVec.sub_eq_add_neg, BitVec.neg_eq_not_add, BitVec.add_assoc]
  have hint : a.toInt + (~~~b).toInt + 1 = a.toInt - b.toInt := by
    have := toInt_not_add_one b
    omega
  show X86.Flags.mk (a + ~~~b + 1#64).msb (a + ~~~b + 1#64 == 0)
    (decide ((a + ~~~b + 1#64).toInt ≠ a.toInt + (~~~b).toInt + 1)) = _
  rw [hdiff, hint]
  rfl

theorem addSub_fst (a b : U64) (op : Bool) :
    (addSub op a b).1 = if op then a - b else a + b := by
  cases op with
  | false => exact BitVec.add_zero _
  | true =>
    show a + ~~~b + 1#64 = a - b
    rw [BitVec.sub_eq_add_neg, BitVec.neg_eq_not_add, BitVec.add_assoc]

/-! ### Constants -/

/-- The low `n` bits of `v`. -/
def lowBits (v : U64) (n : Nat) : U64 := (v.setWidth n).setWidth 64

theorem getLsbD_lowBits (v : U64) (n i : Nat) :
    (lowBits v n).getLsbD i = (decide (i < n) && v.getLsbD i) := by
  rw [lowBits, BitVec.getLsbD_setWidth, BitVec.getLsbD_setWidth]
  by_cases hi : i < 64
  · rw [decide_eq_true hi, Bool.true_and]
  · rw [BitVec.getLsbD_of_ge v i (by omega), Bool.and_false, Bool.and_false]

theorem getLsbD_lane (v : U64) (hw i : Nat) :
    (lane v hw).getLsbD i = (decide (i < 16) && v.getLsbD (16 * hw + i)) := by
  rw [lane, BitVec.getLsbD_setWidth, BitVec.getLsbD_ushiftRight]

theorem getLsbD_laneMask (i : Nat) : (BitVec.ofNat 64 0xFFFF).getLsbD i = decide (i < 16) := by
  rw [BitVec.getLsbD_ofNat, show 0xFFFF = 2 ^ 16 - 1 from rfl, Nat.testBit_two_pow_sub_one]
  by_cases hi : i < 16
  · rw [decide_eq_true hi, decide_eq_true (by omega), Bool.true_and]
  · rw [decide_eq_false hi, Bool.and_false]

/-- Replacing lane `hw` adds the next 16 bits of the constant. -/
theorem insertLane_lowBits (v : U64) (hw : Fin 4) :
    insertLane (lowBits v (16 * hw.val)) (lane v hw.val) hw = lowBits v (16 * (hw.val + 1)) := by
  apply BitVec.eq_of_getLsbD_eq
  intro i hi
  rw [insertLane, BitVec.getLsbD_or, BitVec.getLsbD_and, BitVec.getLsbD_not,
    BitVec.getLsbD_shiftLeft, BitVec.getLsbD_shiftLeft, BitVec.getLsbD_setWidth,
    getLsbD_laneMask, getLsbD_lane, getLsbD_lowBits, getLsbD_lowBits]
  by_cases hlow : i < 16 * hw.val
  · simp [hi, hlow, show i < 16 * (hw.val + 1) by omega]
  · have hk : 16 * hw.val + (i - 16 * hw.val) = i := by omega
    by_cases hlane : i - 16 * hw.val < 16
    · simp [hi, hlow, hlane, hk, show i < 16 * (hw.val + 1) by omega,
        show i - 16 * hw.val < 64 by omega]
    · simp [hi, hlow, hlane, show ¬ i < 16 * (hw.val + 1) by omega]

theorem lowBits_zero (v : U64) : lowBits v 0 = 0 := by
  apply BitVec.eq_of_getLsbD_eq
  intro i hi
  rw [getLsbD_lowBits]
  simp

/-- `MOVZ` starts from zero. -/
theorem insertLane_zero (v : U64) : insertLane 0 (lane v 0) 0 = lowBits v (16 * 1) := by
  have h := insertLane_lowBits v 0
  rwa [show 16 * (0 : Fin 4).val = 0 from rfl, lowBits_zero] at h

/-- A lane that is zero adds nothing. -/
theorem lowBits_of_lane_zero {v : U64} {hw : Nat} (h : lane v hw = 0) :
    lowBits v (16 * hw) = lowBits v (16 * (hw + 1)) := by
  apply BitVec.eq_of_getLsbD_eq
  intro i hi
  rw [getLsbD_lowBits, getLsbD_lowBits]
  by_cases hlow : i < 16 * hw
  · rw [decide_eq_true hlow, decide_eq_true (by omega)]
  · by_cases hlane : i < 16 * (hw + 1)
    · have hbit := getLsbD_lane v hw (i - 16 * hw)
      rw [h, show 16 * hw + (i - 16 * hw) = i by omega, decide_eq_true (by omega)] at hbit
      have hzero : v.getLsbD i = false := by simpa using hbit.symm
      rw [hzero, Bool.and_false, Bool.and_false]
    · rw [decide_eq_false hlow, decide_eq_false hlane]

theorem lowBits_64 (v : U64) : lowBits v 64 = v := by
  rw [lowBits, BitVec.setWidth_eq, BitVec.setWidth_eq]

/-- A step of the stack pointer. -/
theorem setWidth_eight : (8 : BitVec 12).setWidth 64 = (8 : U64) := by decide

theorem setX_setX (s : A64.State) (k : Reg) (v w : U64) : (s.setX k v).setX k w = s.setX k w := by
  unfold A64.State.setX
  by_cases h : k = 31
  · rw [if_pos h, if_pos h, if_pos h]
  · simp only [if_neg h, Function.update_idem]

theorem getX_setX {k : Reg} (h : k ≠ 31) (s : A64.State) (v : U64) : (s.setX k v).getX k = v := by
  rw [getX_of_ne _ h, setX_x _ _ h, Function.update_self]

/-- The `MOVK` of a lane, or nothing when the lane is zero. -/
theorem execSeq_movk {k : Reg} (h : k ≠ 31) (s : A64.State) (v : U64) (hw : Fin 4)
    (rest : List Insn) :
    execSeq ((if lane v hw.val ≠ 0 then [Insn.moveWide true k (lane v hw.val) hw] else []) ++ rest)
        (s.setX k (lowBits v (16 * hw.val))) =
      execSeq rest (s.setX k (lowBits v (16 * (hw.val + 1)))) := by
  by_cases hz : lane v hw.val = 0
  · rw [if_neg (not_not_intro hz), List.nil_append, lowBits_of_lane_zero hz]
  · rw [if_pos hz, List.singleton_append, execSeq_cons]
    simp only [exec, if_true, getX_setX h, insertLane_lowBits, setX_setX, Option.bind_some]

/-- **A constant's materialization writes the constant.** -/
theorem execSeq_movimmInsns {k : Reg} (h : k ≠ 31) (s : A64.State) (v : U64) :
    execSeq (movimmInsns k v) s = some (s.setX k v) := by
  have hlast : execSeq [] (s.setX k (lowBits v 64)) = some (s.setX k v) := by
    rw [lowBits_64]
    rfl
  rw [movimmInsns, execSeq_cons]
  simp only [exec, Bool.false_eq_true, if_false, Option.bind_some, insertLane_zero, filterMap_ite_cons,
    List.filterMap_nil]
  exact (execSeq_movk h s v 1 _).trans ((execSeq_movk h s v 2 _).trans
    ((execSeq_movk h s v 3 _).trans hlast))

/-! ### Sequences that run to a guest state -/

/-- `is`, started in `s`, ends in guest state `g` and keeps `x17` and `x30`. -/
def RunsTo (is : List Insn) (s : A64.State) (g : X86State) : Prop :=
  ∃ s', execSeq is s = some s' ∧ guestOf s' = g ∧ s'.x 17 = s.x 17 ∧ s'.x 30 = s.x 30

theorem RunsTo.nil (s : A64.State) : RunsTo [] s (guestOf s) := ⟨s, rfl, rfl, rfl, rfl⟩

theorem RunsTo.one {i : Insn} {s s' : A64.State} (h : exec i s = some s')
    (h17 : s'.x 17 = s.x 17) (h30 : s'.x 30 = s.x 30) : RunsTo [i] s (guestOf s') := by
  refine ⟨s', ?_, rfl, h17, h30⟩
  rw [execSeq_cons, h]
  rfl

/-- Run `is` first. -/
theorem RunsTo.append {is js : List Insn} {s u : A64.State} {g : X86State}
    (he : execSeq is s = some u) (h17 : u.x 17 = s.x 17) (h30 : u.x 30 = s.x 30)
    (h : RunsTo js u g) : RunsTo (is ++ js) s g := by
  obtain ⟨s', hs', hg, h17', h30'⟩ := h
  refine ⟨s', ?_, hg, h17'.trans h17, h30'.trans h30⟩
  rw [execSeq_append, he]
  exact hs'

/-! ### Operations with a constant -/

theorem setWidth_of_lt {v : U64} (h : v.toNat < 4096) : (v.setWidth 12).setWidth 64 = v := by
  apply BitVec.eq_of_toNat_eq
  rw [BitVec.toNat_setWidth, BitVec.toNat_setWidth]
  omega

/-- The three shapes run to the same state when each does. -/
theorem runsTo_constInsns {d : U64} {pos neg : BitVec 12 → Insn} {reg : Insn} {s : A64.State}
    {g : X86State}
    (hpos : ∀ imm12 : BitVec 12, imm12.setWidth 64 = d → RunsTo [pos imm12] s g)
    (hneg : ∀ imm12 : BitVec 12, imm12.setWidth 64 = -d → d ≠ BitVec.intMin 64 →
      RunsTo [neg imm12] s g)
    (hreg : RunsTo [reg] (s.setX 16 d) g) : RunsTo (constInsns d pos neg reg) s g := by
  have hd := d.isLt
  unfold constInsns
  split
  · rename_i h
    refine hpos _ (setWidth_of_lt ?_)
    rw [BitVec.toInt_eq_toNat_cond] at h
    split at h <;> omega
  · split
    · rename_i h
      refine hneg _ (setWidth_of_lt ?_) ?_
      · rw [BitVec.toNat_neg]
        rw [BitVec.toInt_eq_toNat_cond] at h
        split at h <;> omega
      · rintro rfl
        revert h
        decide
    · exact RunsTo.append (execSeq_movimmInsns (by decide) s d) (setX_16_17 s d) (setX_16_30 s d)
        hreg

/-! ### One instruction -/

section Single

variable {i : Insn} {s : A64.State} {r : GReg} {v : U64} {f : A64.Flags} {m : Mem}

theorem runsTo_setX (h : exec i s = some (s.setX (hostReg r) v)) :
    RunsTo [i] s ((guestOf s).setReg r v) := by
  rw [← guestOf_setX_hostReg]
  exact RunsTo.one h (setX_hostReg_17 s r v) (setX_hostReg_30 s r v)

theorem runsTo_setX_flags (h : exec i s = some { s.setX (hostReg r) v with flags := f }) :
    RunsTo [i] s (((guestOf s).setReg r v).setFlags (guestFlags f)) := by
  rw [← guestOf_setX_hostReg, ← guestOf_flags]
  exact RunsTo.one h (setX_hostReg_17 s r v) (setX_hostReg_30 s r v)

theorem runsTo_flags (h : exec i s = some { s with flags := f }) :
    RunsTo [i] s ((guestOf s).setFlags (guestFlags f)) := by
  rw [← guestOf_flags]
  exact RunsTo.one h rfl rfl

theorem runsTo_mem (h : exec i s = some { s with mem := m }) :
    RunsTo [i] s ((guestOf s).setMem m) := by
  rw [← guestOf_mem]
  exact RunsTo.one h rfl rfl

end Single

section AddSub

variable (s : A64.State) (rd rn rm : GReg) (imm12 : BitVec 12)

theorem exec_addImm : exec (.addSubImm false false (hostReg rd) (hostReg rn) imm12) s =
    some (s.setX (hostReg rd) ((guestOf s).regs rn + imm12.setWidth 64)) := by
  simp [exec, addSub_fst]

theorem exec_subImm : exec (.addSubImm true false (hostReg rd) (hostReg rn) imm12) s =
    some (s.setX (hostReg rd) ((guestOf s).regs rn - imm12.setWidth 64)) := by
  simp [exec, addSub_fst]

theorem runsTo_addImm :
    RunsTo [.addSubImm false false (hostReg rd) (hostReg rn) imm12] s
      ((guestOf s).setReg rd ((guestOf s).regs rn + imm12.setWidth 64)) :=
  runsTo_setX (exec_addImm s rd rn imm12)

theorem runsTo_subImm :
    RunsTo [.addSubImm true false (hostReg rd) (hostReg rn) imm12] s
      ((guestOf s).setReg rd ((guestOf s).regs rn - imm12.setWidth 64)) :=
  runsTo_setX (exec_subImm s rd rn imm12)

theorem runsTo_addsImm :
    RunsTo [.addSubImm false true (hostReg rd) (hostReg rn) imm12] s
      (((guestOf s).setReg rd ((guestOf s).regs rn + imm12.setWidth 64)).setFlags
        (X86.addFlags ((guestOf s).regs rn) (imm12.setWidth 64))) := by
  rw [← guestFlags_add]
  exact runsTo_setX_flags (by simp [exec, addSub_fst])

theorem runsTo_subsImm :
    RunsTo [.addSubImm true true (hostReg rd) (hostReg rn) imm12] s
      (((guestOf s).setReg rd ((guestOf s).regs rn - imm12.setWidth 64)).setFlags
        (X86.subFlags ((guestOf s).regs rn) (imm12.setWidth 64))) := by
  rw [← guestFlags_sub]
  exact runsTo_setX_flags (by simp [exec, addSub_fst])

/-- `CMN` and `CMP` with an immediate. -/
theorem runsTo_cmnImm :
    RunsTo [.addSubImm false true 31 (hostReg rn) imm12] s
      ((guestOf s).setFlags (X86.addFlags ((guestOf s).regs rn) (imm12.setWidth 64))) := by
  rw [← guestFlags_add]
  exact runsTo_flags (by simp [exec])

theorem runsTo_cmpImm :
    RunsTo [.addSubImm true true 31 (hostReg rn) imm12] s
      ((guestOf s).setFlags (X86.subFlags ((guestOf s).regs rn) (imm12.setWidth 64))) := by
  rw [← guestFlags_sub]
  exact runsTo_flags (by simp [exec])

/-- The register forms, with any second operand. -/
theorem runsTo_addReg (k : Reg) :
    RunsTo [.addSubReg false false (hostReg rd) (hostReg rn) k] s
      ((guestOf s).setReg rd ((guestOf s).regs rn + s.getX k)) :=
  runsTo_setX (by simp [exec, addSub_fst])

theorem runsTo_addsReg (k : Reg) :
    RunsTo [.addSubReg false true (hostReg rd) (hostReg rn) k] s
      (((guestOf s).setReg rd ((guestOf s).regs rn + s.getX k)).setFlags
        (X86.addFlags ((guestOf s).regs rn) (s.getX k))) := by
  rw [← guestFlags_add]
  exact runsTo_setX_flags (by simp [exec, addSub_fst])

theorem runsTo_subsReg (k : Reg) :
    RunsTo [.addSubReg true true (hostReg rd) (hostReg rn) k] s
      (((guestOf s).setReg rd ((guestOf s).regs rn - s.getX k)).setFlags
        (X86.subFlags ((guestOf s).regs rn) (s.getX k))) := by
  rw [← guestFlags_sub]
  exact runsTo_setX_flags (by simp [exec, addSub_fst])

theorem runsTo_cmpReg (k : Reg) :
    RunsTo [.addSubReg true true 31 (hostReg rn) k] s
      ((guestOf s).setFlags (X86.subFlags ((guestOf s).regs rn) (s.getX k))) := by
  rw [← guestFlags_sub]
  exact runsTo_flags (by simp [exec])

end AddSub

/-! ### Logic -/

theorem guestFlags_logic (r : U64) : guestFlags (logicFlags r) = X86.logicFlags r := rfl

theorem runsTo_tst (s : A64.State) (rn rm : GReg) :
    RunsTo [.logicReg .ands 31 (hostReg rn) (hostReg rm)] s
      ((guestOf s).setFlags (X86.logicFlags ((guestOf s).regs rn &&& (guestOf s).regs rm))) := by
  rw [← guestFlags_logic]
  exact runsTo_flags (by simp [exec, LogicOp.apply])

theorem runsTo_ands (s : A64.State) (rd rn rm : GReg) :
    RunsTo [.logicReg .ands (hostReg rd) (hostReg rn) (hostReg rm)] s
      (((guestOf s).setReg rd ((guestOf s).regs rn &&& (guestOf s).regs rm)).setFlags
        (X86.logicFlags ((guestOf s).regs rn &&& (guestOf s).regs rm))) := by
  rw [← guestFlags_logic]
  exact runsTo_setX_flags (by simp [exec, LogicOp.apply])

/-- A logical operation without flag-setting form, then a test of its result. -/
theorem runsTo_logic_tst (s : A64.State) {op : LogicOp} (hop : op ≠ .ands) (rd rn rm : GReg)
    {v : U64} (hv : op.apply ((guestOf s).regs rn) ((guestOf s).regs rm) = v) :
    RunsTo [.logicReg op (hostReg rd) (hostReg rn) (hostReg rm),
        .logicReg .ands 31 (hostReg rd) (hostReg rd)] s
      (((guestOf s).setReg rd v).setFlags (X86.logicFlags v)) := by
  have he : execSeq [.logicReg op (hostReg rd) (hostReg rn) (hostReg rm)] s =
      some (s.setX (hostReg rd) v) := by
    rw [execSeq_cons]
    simp [exec, hop, hv]
  have htst := runsTo_tst (s.setX (hostReg rd) v) rd rd
  rw [guestOf_setX_hostReg] at htst
  have hself : ((guestOf s).setReg rd v).regs rd = v := Function.update_self _ _ _
  rw [hself, BitVec.and_self] at htst
  exact RunsTo.append he (setX_hostReg_17 s rd v) (setX_hostReg_30 s rd v) htst

end Oryx
