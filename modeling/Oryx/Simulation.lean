/-
Oryx/Simulation.lean

The instructions of an op do what the op means.

`emittedExec` is what the instructions of an opcode make of the guest state,
exactly and for every opcode (`runsTo_opInsns`).  It differs from the x86
meaning `x86Exec` in a few ops, which `Faithful` lists and `emittedExec_eq`
sets apart: PUSH and POP of `RSP` itself (`emittedExec_push_rsp`,
`emittedExec_pop_rsp`), the flags of LOCK ops, and a SUB_RI of the smallest
number.
-/
import Oryx.HostState

namespace Oryx

open A64

/-! ### Conditions -/

/-- A field that names no condition becomes AL. -/
theorem armCond_of_none {cc : CInt} (h : gccCond cc = none) : armCond cc = 0xE := by
  unfold gccCond at h
  unfold armCond
  grind

/-- `arm_cond` names the condition of the `cc` field, and its low bit inverts it. -/
theorem condHolds_armCond {cc : CInt} (h : (gccCond cc).isSome = true) (f : A64.Flags) :
    condHolds (xcond (armCond cc)) f = gccHolds cc (guestFlags f) ∧
      condHolds (xcond (armCond cc ^^^ 1)) f = !gccHolds cc (guestFlags f) := by
  obtain ⟨n, z, c, v⟩ := f
  have hcc : cc = gccEq ∨ cc = gccNe ∨ cc = gccLt ∨ cc = gccGe ∨ cc = gccLe ∨ cc = gccGt := by
    unfold gccCond at h
    grind
  rcases hcc with rfl | rfl | rfl | rfl | rfl | rfl <;>
    cases n <;> cases z <;> cases v <;> exact ⟨rfl, rfl⟩

/-- `CSET` also for a `cc` field that names no condition: its inverted
condition then always holds, and the register becomes 0. -/
theorem runsTo_cset (s : A64.State) (rd : GReg) (cc : CInt) :
    RunsTo [.csinc (hostReg rd) 31 31 (xcond (armCond cc ^^^ 1))] s
      ((guestOf s).setReg rd (if gccHolds cc (guestOf s).flags then 1 else 0)) := by
  apply runsTo_setX
  have hzero : s.getX 31 = 0 := if_pos rfl
  have hcond : condHolds (xcond (armCond cc ^^^ 1)) s.flags = !gccHolds cc (guestOf s).flags := by
    cases hcc : gccCond cc with
    | some c => exact (condHolds_armCond (by rw [hcc]; rfl) s.flags).2
    | none =>
      rw [armCond_of_none hcc, gccHolds, hcc]
      rfl
  simp only [exec, hcond, hzero]
  cases gccHolds cc (guestOf s).flags <;> simp

/-! ### Memory -/

/-- The scaled offset field gives back the offset. -/
theorem scaledAddr_offset12 {imm : U64} {off : U32} (h : scaledImm12 imm = some off)
    (base : U64) : scaledAddr base (offset12 imm) = base + imm := by
  unfold scaledImm12 at h
  split at h
  · cases h
  · rename_i hno
    rw [not_or, not_or, not_lt] at hno
    obtain ⟨hpos, halign, hrange⟩ := hno
    have hlt := imm.isLt
    -- not negative: the signed value is the unsigned one
    have hnat : imm.toInt = imm.toNat := by
      rw [BitVec.toInt_eq_toNat_cond] at hpos ⊢
      split at hpos <;> rename_i hhalf
      · rw [if_pos hhalf]
      · omega
    have hsh : (imm.sshiftRight 3).toInt = imm.toNat / 8 := by
      rw [BitVec.toInt_sshiftRight, hnat, Int.shiftRight_eq_div_pow]
      rfl
    -- aligned: the shift loses nothing
    have hmod : imm.toNat % 8 = 0 := by
      have h7 : (imm &&& 7).toNat = imm.toNat % 8 := by
        rw [BitVec.toNat_and]
        exact Nat.and_two_pow_sub_one_eq_mod imm.toNat 3
      rw [not_not.mp halign] at h7
      exact h7.symm
    have hnat' : (imm.sshiftRight 3).toNat = imm.toNat / 8 := by
      have hr := (imm.sshiftRight 3).isLt
      rw [BitVec.toInt_eq_toNat_cond] at hsh
      split at hsh <;> omega
    rw [hsh] at hrange
    -- in range: the field holds the quotient
    have hoff : (8 * (offset12 imm).setWidth 64 : U64) = imm := by
      apply BitVec.eq_of_toNat_eq
      rw [BitVec.toNat_mul, BitVec.toNat_setWidth, offset12, BitVec.toNat_setWidth, hnat']
      have h8 : (8 : U64).toNat = 8 := rfl
      rw [h8]
      omega
    rw [scaledAddr, hoff]

/-- What a weak or TSO access runs to. -/
theorem runsTo_ldr (s : A64.State) (rt rn : GReg) (imm12 : BitVec 12) :
    RunsTo [.ldr (hostReg rt) (hostReg rn) imm12] s
      ((guestOf s).setReg rt (load64 (guestOf s).mem
        (scaledAddr ((guestOf s).regs rn) imm12))) :=
  runsTo_setX (by simp [exec, guestOf])

theorem runsTo_str (s : A64.State) (rt rn : GReg) (imm12 : BitVec 12) :
    RunsTo [.str (hostReg rt) (hostReg rn) imm12] s
      ((guestOf s).setMem (store64 (guestOf s).mem (scaledAddr ((guestOf s).regs rn) imm12)
        ((guestOf s).regs rt))) :=
  runsTo_mem (by simp [exec, guestOf])

/-- The offset of an access that lowers fits its form. -/
structure OffsetFits (cfg : TransCfg) (i : OryxGinsn) : Prop where
  scaled : orderedAccess cfg i = false ∨ cfg.strength = .tso → ∃ off, scaledImm12 i.imm = some off
  small : orderedAccess cfg i = true → cfg.strength ≠ .tso → i.imm.toNat < 4096

theorem lowerLoadStore_ok {cfg : TransCfg} {i : OryxGinsn} {load : Bool} {d : TransState}
    (h : lowerLoadStore cfg .init i load = .ok d) : OffsetFits cfg i := by
  unfold lowerLoadStore at h
  constructor
  · -- the weak and the fenced form scale the offset
    intro hform
    cases hoff : scaledImm12 i.imm with
    | some off => exact ⟨off, rfl⟩
    | none =>
      rw [hoff] at h
      rcases hform with hweak | htso
      · rw [if_pos hweak] at h
        cases h
      · rw [if_pos htso, ite_self] at h
        cases h
  · -- the acquire and release forms add it
    intro hord htso
    rw [if_neg (by rw [hord]; exact Bool.noConfusion), if_neg htso] at h
    split at h
    · cases h
    · rename_i himm
      have hlt := i.imm.isLt
      rw [BitVec.toInt_eq_toNat_cond] at himm
      split at himm <;> omega

/-- The address computation of an acquire or release access. -/
theorem execSeq_addrInsns (s : A64.State) {i : OryxGinsn} (hn : i.rn.toNat < 16)
    (himm : i.imm.toNat < 4096) :
    ∃ u, execSeq (addrInsns i) s = some u ∧ guestOf u = guestOf s ∧ u.x 17 = s.x 17 ∧
      u.x 30 = s.x 30 ∧ u.getXSP (addrReg i) = (guestOf s).regs (greg i.rn) + i.imm := by
  rw [addrInsns, addrReg, xreg_eq_hostReg hn]
  by_cases h0 : i.imm = 0
  · rw [if_neg (not_not_intro h0), if_neg (not_not_intro h0)]
    refine ⟨s, rfl, rfl, rfl, rfl, ?_⟩
    rw [h0, getXSP_hostReg]
    exact (BitVec.add_zero _).symm
  · rw [if_pos h0, if_pos h0]
    refine ⟨s.setX 16 ((guestOf s).regs (greg i.rn) + i.imm), ?_, guestOf_setX_16 s _,
      setX_16_17 s _, setX_16_30 s _, ?_⟩
    · rw [execSeq_cons]
      simp [exec, addSub_fst, setWidth_of_lt himm, A64.State.setXSP, A64.State.setX]
    · exact getX_setX_16 s _

variable {cfg : TransCfg} {i : OryxGinsn}

/-- A load through an address register runs to the load. -/
theorem runsTo_acquire (s : A64.State) (hn : i.rn.toNat < 16) (himm : i.imm.toNat < 4096)
    (rt : GReg) {ld : Insn}
    (hld : ∀ u, exec ld u =
      some (u.setX (hostReg rt) (load64 u.mem (u.getXSP (addrReg i))))) :
    RunsTo (addrInsns i ++ [ld]) s
      ((guestOf s).setReg rt (load64 (guestOf s).mem ((guestOf s).regs (greg i.rn) + i.imm))) := by
  obtain ⟨u, hu, hg, h17, h30, haddr⟩ := execSeq_addrInsns s hn himm
  have hmem : u.mem = (guestOf s).mem := congrArg X86State.mem hg
  apply RunsTo.append hu h17 h30
  have hrun := runsTo_setX (hld u)
  rwa [haddr, hg, hmem] at hrun

theorem runsTo_release (s : A64.State) (hn : i.rn.toNat < 16) (himm : i.imm.toNat < 4096)
    (rt : GReg) :
    RunsTo (addrInsns i ++ [.stlr (hostReg rt) (addrReg i)]) s
      ((guestOf s).setMem (store64 (guestOf s).mem ((guestOf s).regs (greg i.rn) + i.imm)
        ((guestOf s).regs rt))) := by
  obtain ⟨u, hu, hg, h17, h30, haddr⟩ := execSeq_addrInsns s hn himm
  have hmem : u.mem = (guestOf s).mem := congrArg X86State.mem hg
  apply RunsTo.append hu h17 h30
  have hrun : RunsTo [.stlr (hostReg rt) (addrReg i)] u ((guestOf u).setMem
      (store64 u.mem (u.getXSP (addrReg i)) (u.getX (hostReg rt)))) := runsTo_mem rfl
  rwa [getX_hostReg, haddr, hg, hmem] at hrun

/-- A barrier does nothing to the guest. -/
theorem runsTo_dmb (s : A64.State) (kind : Barrier) : RunsTo [.dmb kind] s (guestOf s) :=
  RunsTo.one rfl rfl rfl

/-- **LOAD**, in all four forms. -/
theorem runsTo_loadInsns (s : A64.State) (hd : i.rd.toNat < 16) (hn : i.rn.toNat < 16)
    (hfit : OffsetFits cfg i) :
    RunsTo (loadInsns cfg i) s ((guestOf s).setReg (greg i.rd)
      (load64 (guestOf s).mem ((guestOf s).regs (greg i.rn) + i.imm))) := by
  have hldr := runsTo_ldr s (greg i.rd) (greg i.rn) (offset12 i.imm)
  have hxd := xreg_eq_hostReg hd
  have hxn := xreg_eq_hostReg hn
  cases hord : orderedAccess cfg i with
  | false =>
    obtain ⟨off, hoff⟩ := hfit.scaled (Or.inl hord)
    rw [scaledAddr_offset12 hoff] at hldr
    rw [loadInsns_weak hord, hxd, hxn]
    exact hldr
  | true =>
    cases hs : cfg.strength with
    | tso =>
      obtain ⟨off, hoff⟩ := hfit.scaled (Or.inr hs)
      rw [scaledAddr_offset12 hoff] at hldr
      -- the fence behind the load changes nothing
      obtain ⟨u, hu, hg, h17, h30⟩ := hldr
      rw [loadInsns_tso hord hs, hxd, hxn, ← hg]
      exact RunsTo.append hu h17 h30 (runsTo_dmb u .ishld)
    -- LDAPR and LDAR differ in order only
    | rcpc =>
      rw [loadInsns_rcpc hord hs, hxd]
      exact runsTo_acquire s hn (hfit.small hord (by rw [hs]; exact OrderStrength.noConfusion))
        (greg i.rd) fun u => rfl
    | sc =>
      rw [loadInsns_sc hord hs, hxd]
      exact runsTo_acquire s hn (hfit.small hord (by rw [hs]; exact OrderStrength.noConfusion))
        (greg i.rd) fun u => rfl

/-- **STORE**, in all four forms. -/
theorem runsTo_storeInsns (s : A64.State) (hd : i.rd.toNat < 16) (hn : i.rn.toNat < 16)
    (hfit : OffsetFits cfg i) :
    RunsTo (storeInsns cfg i) s ((guestOf s).setMem
      (store64 (guestOf s).mem ((guestOf s).regs (greg i.rn) + i.imm)
        ((guestOf s).regs (greg i.rd)))) := by
  have hstr := runsTo_str s (greg i.rd) (greg i.rn) (offset12 i.imm)
  have hxd := xreg_eq_hostReg hd
  have hxn := xreg_eq_hostReg hn
  cases hord : orderedAccess cfg i with
  | false =>
    obtain ⟨off, hoff⟩ := hfit.scaled (Or.inl hord)
    rw [scaledAddr_offset12 hoff] at hstr
    rw [storeInsns_weak hord, hxd, hxn]
    exact hstr
  | true =>
    by_cases hs : cfg.strength = .tso
    · obtain ⟨off, hoff⟩ := hfit.scaled (Or.inr hs)
      rw [scaledAddr_offset12 hoff] at hstr
      rw [storeInsns_tso hord hs, hxd, hxn]
      exact RunsTo.append (show execSeq [.dmb .ishst] s = some s from rfl) rfl rfl hstr
    · rw [storeInsns_release hord hs, hxd]
      exact runsTo_release s hn (hfit.small hord hs) (greg i.rd)

/-! ### Opcodes -/

/-- What the instructions of an opcode make of the guest state, control apart.
It is the x86 meaning but for four kinds of ops (`emittedExec_eq`): PUSH and POP
write `RSP` before they use it, LOCK ops leave the flags alone, and SUB_RI adds
the negated constant. -/
def emittedExec (i : OryxGinsn) (op : GuestOp) (g : X86State) : X86State :=
  let rd := greg i.rd
  let rn := greg i.rn
  match op with
  | .push =>
      -- the register is read after RSP has moved
      let g1 := g.setReg rsp (g.regs rsp - 8)
      g1.setMem (store64 g1.mem (g1.regs rsp) (g1.regs rd))
  | .pop =>
      let g1 := g.setReg rd (load64 g.mem (g.regs rsp))
      g1.setReg rsp (g1.regs rsp + 8)
  | .atomicAdd =>
      g.setMem (store64 g.mem (g.regs rn) (load64 g.mem (g.regs rn) + g.regs rd))
  | .atomicCas =>
      let old := load64 g.mem (g.regs rn)
      (if old = g.regs rax then g.setMem (store64 g.mem (g.regs rn) (g.regs rd)) else g).setReg
        rax old
  | .subRi =>
      (g.setReg rd (g.regs rd + -i.imm)).setFlags (X86.addFlags (g.regs rd) (-i.imm))
  | _ => x86Exec i op g

theorem scaledAddr_zero (base : U64) : scaledAddr base 0 = base := BitVec.add_zero base

/-- `STR Xt, [RSP]` and `LDR Xt, [RSP]`. -/
theorem runsTo_str_rsp (s : A64.State) (rt : GReg) :
    RunsTo [.str (hostReg rt) 4 0] s ((guestOf s).setMem
      (store64 (guestOf s).mem ((guestOf s).regs rsp) ((guestOf s).regs rt))) := by
  have h := runsTo_str s rt rsp 0
  rwa [scaledAddr_zero] at h

theorem runsTo_ldr_rsp (s : A64.State) (rt : GReg) :
    RunsTo [.ldr (hostReg rt) 4 0] s
      ((guestOf s).setReg rt (load64 (guestOf s).mem ((guestOf s).regs rsp))) := by
  have h := runsTo_ldr s rt rsp 0
  rwa [scaledAddr_zero] at h

/-- Two pieces that run, one behind the other. -/
theorem RunsTo.trans {is js : List Insn} {s : A64.State} {g g' : X86State} (h : RunsTo is s g)
    (h' : ∀ u, guestOf u = g → RunsTo js u g') : RunsTo (is ++ js) s g' := by
  obtain ⟨u, hu, hg, h17, h30⟩ := h
  exact RunsTo.append hu h17 h30 (h' u hg)

theorem runsTo_push (s : A64.State) (rt : GReg) :
    RunsTo [.addSubImm true false 4 4 8, .str (hostReg rt) 4 0] s
      (((guestOf s).setReg rsp ((guestOf s).regs rsp - 8)).setMem
        (store64 (guestOf s).mem ((guestOf s).regs rsp - 8)
          (((guestOf s).setReg rsp ((guestOf s).regs rsp - 8)).regs rt))) := by
  apply RunsTo.trans (runsTo_subImm s rsp rsp 8)
  intro u hu
  have h := runsTo_str_rsp u rt
  rwa [hu] at h

theorem runsTo_pop (s : A64.State) (rt : GReg) :
    RunsTo [.ldr (hostReg rt) 4 0, .addSubImm false false 4 4 8] s
      (((guestOf s).setReg rt (load64 (guestOf s).mem ((guestOf s).regs rsp))).setReg rsp
        (((guestOf s).setReg rt (load64 (guestOf s).mem ((guestOf s).regs rsp))).regs rsp + 8)) := by
  apply RunsTo.trans (runsTo_ldr_rsp s rt)
  intro u hu
  have h := runsTo_addImm u rsp rsp 8
  rwa [hu] at h

theorem runsTo_ldaddal (s : A64.State) (rs rn : GReg) :
    RunsTo [.ldaddal (hostReg rs) 31 (hostReg rn)] s
      ((guestOf s).setMem (store64 (guestOf s).mem ((guestOf s).regs rn)
        (load64 (guestOf s).mem ((guestOf s).regs rn) + (guestOf s).regs rs))) :=
  runsTo_mem (by simp [exec, guestOf])

theorem runsTo_casal (s : A64.State) (rt rn : GReg) :
    RunsTo [.casal 0 (hostReg rt) (hostReg rn)] s
      ((if load64 (guestOf s).mem ((guestOf s).regs rn) = (guestOf s).regs rax then
          (guestOf s).setMem (store64 (guestOf s).mem ((guestOf s).regs rn) ((guestOf s).regs rt))
        else guestOf s).setReg rax (load64 (guestOf s).mem ((guestOf s).regs rn))) := by
  have hrax : s.getX 0 = (guestOf s).regs rax := getX_hostReg s rax
  by_cases heq : load64 (guestOf s).mem ((guestOf s).regs rn) = (guestOf s).regs rax
  · -- the values agree: memory gets the new one
    have hold : load64 s.mem ((guestOf s).regs rn) = (guestOf s).regs rax := heq
    have hexec : exec (.casal 0 (hostReg rt) (hostReg rn)) s =
        some (({ s with mem := store64 s.mem ((guestOf s).regs rn) ((guestOf s).regs rt) } :
          A64.State).setX (hostReg rax) (load64 s.mem ((guestOf s).regs rn))) := by
      simp only [exec, getXSP_hostReg, getX_hostReg, hrax, if_pos hold]
      rfl
    refine ⟨_, by rw [execSeq_cons, hexec]; rfl, ?_, ?_, ?_⟩
    · rw [guestOf_setX_hostReg, if_pos heq]
      rfl
    · exact setX_hostReg_17 _ _ _
    · exact setX_hostReg_30 _ _ _
  · -- they differ: only RAX is written
    have hold : ¬ load64 s.mem ((guestOf s).regs rn) = (guestOf s).regs rax := heq
    have hexec : exec (.casal 0 (hostReg rt) (hostReg rn)) s =
        some (s.setX (hostReg rax) (load64 s.mem ((guestOf s).regs rn))) := by
      simp only [exec, getXSP_hostReg, getX_hostReg, hrax, if_neg hold]
      rfl
    rw [if_neg heq]
    exact runsTo_setX hexec

theorem runsTo_movRr (s : A64.State) (rd rn : GReg) :
    RunsTo [.logicReg .orr (hostReg rd) 31 (hostReg rn)] s
      ((guestOf s).setReg rd ((guestOf s).regs rn)) := by
  apply runsTo_setX
  have hzero : s.getX 31 = 0 := if_pos rfl
  simp [exec, LogicOp.apply, hzero]

theorem runsTo_movRi (s : A64.State) (rd : GReg) (v : U64) :
    RunsTo (movimmInsns (hostReg rd) v) s ((guestOf s).setReg rd v) :=
  ⟨_, execSeq_movimmInsns (hostReg_ne (by decide)) s v, guestOf_setX_hostReg s rd v,
    setX_hostReg_17 s rd v, setX_hostReg_30 s rd v⟩

theorem runsTo_lea (s : A64.State) (rd rn : GReg) (d : U64) :
    RunsTo (constInsns d (.addSubImm false false (hostReg rd) (hostReg rn))
        (.addSubImm true false (hostReg rd) (hostReg rn))
        (.addSubReg false false (hostReg rd) (hostReg rn) 16)) s
      ((guestOf s).setReg rd ((guestOf s).regs rn + d)) := by
  refine runsTo_constInsns ?_ ?_ ?_
  · intro imm12 himm
    have h := runsTo_addImm s rd rn imm12
    rwa [himm] at h
  · intro imm12 himm _
    have h := runsTo_subImm s rd rn imm12
    rwa [himm, BitVec.sub_eq_add_neg, BitVec.neg_neg] at h
  · have h := runsTo_addReg (s.setX 16 d) rd rn 16
    rwa [guestOf_setX_16, getX_setX_16] at h

/-- Adding a constant with flags. -/
theorem runsTo_addConst (s : A64.State) (rd : GReg) (d : U64) :
    RunsTo (constInsns d (.addSubImm false true (hostReg rd) (hostReg rd))
        (.addSubImm true true (hostReg rd) (hostReg rd))
        (.addSubReg false true (hostReg rd) (hostReg rd) 16)) s
      (((guestOf s).setReg rd ((guestOf s).regs rd + d)).setFlags
        (X86.addFlags ((guestOf s).regs rd) d)) := by
  refine runsTo_constInsns ?_ ?_ ?_
  · -- the constant fits 12 bits
    intro imm12 himm
    have h := runsTo_addsImm s rd rd imm12
    rwa [himm] at h
  · -- its negation does, and is not the smallest number
    intro imm12 himm hmin
    have h := runsTo_subsImm s rd rd imm12
    have hneg : -d ≠ BitVec.intMin 64 := fun e => hmin (by
      rw [← BitVec.neg_neg (x := d), e]
      rfl)
    rwa [himm, X86.subFlags_eq_addFlags hneg, BitVec.sub_eq_add_neg, BitVec.neg_neg] at h
  · -- it stands in the scratch register
    have h := runsTo_addsReg (s.setX 16 d) rd rd 16
    rwa [guestOf_setX_16, getX_setX_16] at h

theorem runsTo_cmpConst (s : A64.State) (rd : GReg) (d : U64) :
    RunsTo (constInsns d (.addSubImm true true 31 (hostReg rd))
        (.addSubImm false true 31 (hostReg rd)) (.addSubReg true true 31 (hostReg rd) 16)) s
      ((guestOf s).setFlags (X86.subFlags ((guestOf s).regs rd) d)) := by
  refine runsTo_constInsns ?_ ?_ ?_
  · intro imm12 himm
    have h := runsTo_cmpImm s rd imm12
    rwa [himm] at h
  · -- `CMN` of the negated constant
    intro imm12 himm hmin
    have h := runsTo_cmnImm s rd imm12
    rwa [himm, ← X86.subFlags_eq_addFlags hmin] at h
  · have h := runsTo_cmpReg (s.setX 16 d) rd 16
    rwa [guestOf_setX_16, getX_setX_16] at h

/-- **The instructions of an opcode that is no terminator run to its meaning
as emitted.** -/
theorem runsTo_opInsns (s : A64.State) {op : GuestOp} (hd : i.rd.toNat < 16)
    (hn : i.rn.toNat < 16) (hfit : op = .load ∨ op = .store → OffsetFits cfg i)
    (hterm : op.isTerminator = false) :
    RunsTo (opInsns cfg i op) s (emittedExec i op (guestOf s)) := by
  have hxd := xreg_eq_hostReg hd
  have hxn := xreg_eq_hostReg hn
  cases op with
  | load => exact runsTo_loadInsns s hd hn (hfit (Or.inl rfl))
  | store => exact runsTo_storeInsns s hd hn (hfit (Or.inr rfl))
  -- terminators move control: `BlockRun`
  | br => cases hterm
  | jmp => cases hterm
  | ret => cases hterm
  | call => cases hterm
  | x86ret => cases hterm
  | movRr =>
    rw [opInsns, hxd, hxn]
    exact runsTo_movRr s _ _
  | movRi =>
    rw [opInsns, hxd]
    exact runsTo_movRi s _ _
  | addRr =>
    rw [opInsns, hxd, hxn]
    have h := runsTo_addsReg s (greg i.rd) (greg i.rd) (hostReg (greg i.rn))
    rwa [getX_hostReg] at h
  | subRr =>
    rw [opInsns, hxd, hxn]
    have h := runsTo_subsReg s (greg i.rd) (greg i.rd) (hostReg (greg i.rn))
    rwa [getX_hostReg] at h
  | cmpRr =>
    rw [opInsns, hxd, hxn]
    have h := runsTo_cmpReg s (greg i.rd) (hostReg (greg i.rn))
    rwa [getX_hostReg] at h
  | atomicAdd =>
    rw [opInsns, hxd, hxn]
    exact runsTo_ldaddal s _ _
  | atomicCas =>
    rw [opInsns, hxd, hxn]
    exact runsTo_casal s _ _
  | fence => exact runsTo_dmb s _
  | setcc =>
    rw [opInsns, hxd]
    exact runsTo_cset s _ _
  | addRi =>
    rw [opInsns, hxd]
    exact runsTo_addConst s _ _
  | subRi =>
    rw [opInsns, hxd]
    exact runsTo_addConst s _ _
  | cmpRi =>
    rw [opInsns, hxd]
    exact runsTo_cmpConst s _ _
  | testRr =>
    rw [opInsns, hxd, hxn]
    exact runsTo_tst s _ _
  | xorRr =>
    rw [opInsns, hxd, hxn]
    exact runsTo_logic_tst s LogicOp.noConfusion _ _ _ rfl
  | andRr =>
    rw [opInsns, hxd, hxn]
    exact runsTo_ands s _ _ _
  | orRr =>
    rw [opInsns, hxd, hxn]
    exact runsTo_logic_tst s LogicOp.noConfusion _ _ _ rfl
  | lea =>
    rw [opInsns, hxd, hxn]
    exact runsTo_lea s _ _ _
  | push =>
    rw [opInsns, hxd]
    exact runsTo_push s _
  | pop =>
    rw [opInsns, hxd]
    exact runsTo_pop s _

/-! ### Where the emitted meaning is the x86 meaning -/

/-- The ops that are emitted as x86 has them. -/
def Faithful (i : OryxGinsn) (op : GuestOp) : Prop :=
  op ≠ .atomicAdd ∧ op ≠ .atomicCas ∧ (op = .push ∨ op = .pop → greg i.rd ≠ rsp) ∧
    (op = .subRi → i.imm ≠ BitVec.intMin 64)

theorem emittedExec_eq {op : GuestOp} (h : Faithful i op) (g : X86State) :
    emittedExec i op g = x86Exec i op g := by
  obtain ⟨hadd, hcas, hstack, hsub⟩ := h
  cases op with
  | atomicAdd => exact absurd rfl hadd
  | atomicCas => exact absurd rfl hcas
  -- another register than RSP is the same before and after
  | push =>
    have hrd : (g.setReg rsp (g.regs rsp - 8)).regs (greg i.rd) = g.regs (greg i.rd) :=
      Function.update_of_ne (hstack (Or.inl rfl)) _ _
    have hsp : (g.setReg rsp (g.regs rsp - 8)).regs rsp = g.regs rsp - 8 :=
      Function.update_self rsp _ g.regs
    simp only [emittedExec, x86Exec, hrd, hsp]
    rfl
  | pop =>
    have hne := hstack (Or.inr rfl)
    have hsp : (g.setReg (greg i.rd) (load64 g.mem (g.regs rsp))).regs rsp = g.regs rsp :=
      Function.update_of_ne hne.symm _ _
    simp only [emittedExec, x86Exec, hsp]
    simp only [X86State.setReg, Function.update_comm hne]
  -- away from the smallest number the two flag records agree
  | subRi =>
    simp only [emittedExec, x86Exec, X86.subFlags_eq_addFlags (hsub rfl), BitVec.sub_eq_add_neg]
  -- the other meanings are the x86 ones by definition
  | _ => rfl

/-- `PUSH RSP` stores the decremented `RSP`. -/
theorem emittedExec_push_rsp (h : greg i.rd = rsp) (g : X86State) :
    emittedExec i .push g ≠ x86Exec i .push g := by
  intro e
  have hmem : store64 g.mem (g.regs rsp - 8) (g.regs rsp - 8) =
      store64 g.mem (g.regs rsp - 8) (g.regs rsp) := by
    have hm := congrArg X86State.mem e
    simp only [emittedExec, x86Exec, h] at hm
    exact hm
  have hval := store64_injective hmem
  have hsub := congrArg (g.regs rsp - ·) hval
  simp at hsub

/-- `POP RSP` adds 8 to the loaded value. -/
theorem emittedExec_pop_rsp (h : greg i.rd = rsp) (g : X86State) :
    emittedExec i .pop g ≠ x86Exec i .pop g := by
  intro e
  have hreg : load64 g.mem (g.regs rsp) + 8 = load64 g.mem (g.regs rsp) := by
    have hr := congrArg (fun g' => X86State.regs g' rsp) e
    simp only [emittedExec, x86Exec, h] at hr
    exact hr
  have h8 : (8 : U64) = 0 := BitVec.add_right_eq_self.mp hreg
  exact absurd h8 (by decide)

end Oryx
