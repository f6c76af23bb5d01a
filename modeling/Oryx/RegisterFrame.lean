/-
Oryx/RegisterFrame.lean

Which host registers translated code touches.

The trampoline of `oryxrun.c` keeps pointers in `x19` and `x20` across the
block, and reads the next guest PC from `x17`.  `OpFrame` is what the code of
an op may touch: the guest registers, of which it writes only those its
meaning names, the scratch register `x16` after writing it, `x17` in
`GOP_X86RET`, and `x30` in `RET`.  The words each op has emitted keep to it
(`EmittedFrame`), and after linking so do the words of the body and of the
terminator with its branch repointed, with the exit stubs behind them, which
touch `x17` and `x30` only (`LinkedFrame`).  A run then leaves `x18` to `x30`
and the stack pointer as they were, and does not depend on what `x18` to `x29`
and the stack pointer hold (`HostFrame`).
-/
import Oryx.Preservation
import Oryx.Lib.A64.Frame

namespace Oryx

open A64

/-! ### What an op may touch -/

/-- The guest registers the meaning of an op names as written. -/
def namedWrites (i : OryxGinsn) : GuestOp → List GReg
  | .movRr | .movRi | .addRr | .subRr | .load | .setcc | .addRi | .subRi | .xorRr | .andRr
  | .orRr | .lea => [greg i.rd]
  | .push | .call | .x86ret => [rsp]
  | .pop => [greg i.rd, rsp]
  | .atomicCas => [rax]
  | .cmpRr | .cmpRi | .testRr | .store | .atomicAdd | .fence | .br | .jmp | .ret => []

/-- The places the code of an op may write, by its named registers. -/
def MayWrite (W : List GReg) (op : GuestOp) (p : Place) : Prop :=
  (∃ r ∈ W, p = .x (hostReg r)) ∨ p = .x 16 ∨ (p = .x 17 ∧ op = .x86ret)

/-- The places an instruction of an op may read. -/
def MayRead (a : Insn) (p : Place) : Prop :=
  (∃ r : GReg, p = .x (hostReg r)) ∨ p = .x 16 ∨ (p = .x 30 ∧ a = .ret 30)

/-- The scratch register is read only after it has been written. -/
def ScratchFirst (is : List Insn) : Prop :=
  ∀ (k : Nat) (a : Insn), is[k]? = some a → Place.x 16 ∈ a.reads →
    ∃ (j : Nat) (b : Insn), j < k ∧ is[j]? = some b ∧ Place.x 16 ∈ b.writes

/-- The code `is` of an op touches what it may: the meaning of the op leaves the registers alone
that it does not name, and so does the code. -/
structure OpFrame (i : OryxGinsn) (op : GuestOp) (is : List Insn) : Prop where
  meaning : ∀ (g : X86State) (r : GReg), r ∉ namedWrites i op →
    (x86Exec i op g).regs r = g.regs r
  writes : ∀ a ∈ is, ∀ p ∈ a.writes, MayWrite (namedWrites i op) op p
  reads : ∀ a ∈ is, ∀ p ∈ a.reads, MayRead a p
  scratch : ScratchFirst is

/-- A stub writes `x17`, and reads it and, to return, `x30`. -/
structure StubFrame (is : List Insn) : Prop where
  writes : ∀ a ∈ is, ∀ p ∈ a.writes, p = .x 17
  reads : ∀ a ∈ is, ∀ p ∈ a.reads, p = .x 17 ∨ (p = .x 30 ∧ a = .ret 30)

/-- The meaning of an op writes no other registers than it names. -/
theorem x86Exec_regs {i : OryxGinsn} {op : GuestOp} {g : X86State} {r : GReg}
    (h : r ∉ namedWrites i op) : (x86Exec i op g).regs r = g.regs r := by
  have hone : ∀ {k : GReg} {v : U64} {f : GReg → U64}, r ∉ [k] →
      Function.update f k v r = f r := fun hk =>
    Function.update_of_ne (fun e => hk (List.mem_singleton.mpr e)) _ _
  cases op with
  | pop =>
    have hrd : r ∉ [greg i.rd] := fun hm => h (by
      rw [List.mem_singleton.mp hm]
      exact List.mem_cons_self)
    have hsp : r ∉ [rsp] := fun hm => h (List.mem_cons_of_mem _ hm)
    exact (hone hrd).trans (hone hsp)
  | atomicCas =>
    simp only [x86Exec]
    split
    · rfl
    · exact hone h
  | cmpRr | cmpRi | testRr | store | atomicAdd | fence | br | jmp | ret => rfl
  | _ => exact hone h

/-! ### Operands -/

@[simp] theorem zeroOperand_hostReg (r : GReg) : zeroOperand (hostReg r) = [.x (hostReg r)] :=
  zeroOperand_of_ne (hostReg_ne (by decide))

@[simp] theorem spOperand_hostReg (r : GReg) : spOperand (hostReg r) = [.x (hostReg r)] :=
  spOperand_of_ne (hostReg_ne (by decide))

@[simp] theorem zeroOperand_16 : zeroOperand 16 = [.x 16] := rfl
@[simp] theorem spOperand_16 : spOperand 16 = [.x 16] := rfl
@[simp] theorem zeroOperand_17 : zeroOperand 17 = [.x 17] := rfl
@[simp] theorem zeroOperand_30 : zeroOperand 30 = [.x 30] := rfl
@[simp] theorem zeroOperand_31 : zeroOperand 31 = [] := rfl

@[simp] theorem hostReg_ne_16 (r : GReg) : (16 : Reg) ≠ hostReg r :=
  (hostReg_ne (by decide)).symm

/-- One instruction keeps to the frame of its op. -/
def InsnFrame (W : List GReg) (op : GuestOp) (a : Insn) : Prop :=
  (∀ p ∈ a.writes, MayWrite W op p) ∧ ∀ p ∈ a.reads, MayRead a p

theorem mayWrite_hostReg {W : List GReg} {op : GuestOp} {r : GReg} (h : r ∈ W) :
    MayWrite W op (.x (hostReg r)) := Or.inl ⟨r, h, rfl⟩

theorem mayWrite_16 (W : List GReg) (op : GuestOp) : MayWrite W op (.x 16) := Or.inr (Or.inl rfl)

theorem mayRead_hostReg (a : Insn) (r : GReg) : MayRead a (.x (hostReg r)) := Or.inl ⟨r, rfl⟩

theorem mayRead_16 (a : Insn) : MayRead a (.x 16) := Or.inr (Or.inl rfl)

/-! ### Scratch register -/

theorem scratchFirst_of_unread {is : List Insn} (h : ∀ a ∈ is, Place.x 16 ∉ a.reads) :
    ScratchFirst is :=
  fun _ a hk hread => absurd hread (h a (List.mem_of_getElem? hk))

/-- Code that starts by writing the scratch register. -/
theorem scratchFirst_cons {a : Insn} {is : List Insn} (hread : Place.x 16 ∉ a.reads)
    (hwrite : Place.x 16 ∈ a.writes) : ScratchFirst (a :: is) := by
  intro k b hk hb
  cases k with
  | zero =>
    cases hk
    exact absurd hb hread
  | succ k => exact ⟨0, a, Nat.succ_pos k, rfl, hwrite⟩

/-! ### Constants -/

section Const

variable {W : List GReg} {op : GuestOp}

theorem frame_movimm_host {r : GReg} (h : r ∈ W) (v : U64) :
    ∀ a ∈ movimmInsns (hostReg r) v, InsnFrame W op a ∧ Place.x 16 ∉ a.reads := by
  intro a ha
  obtain ⟨keep, imm16, hw, rfl⟩ := mem_movimmInsns ha
  cases keep <;> simp [InsnFrame, Insn.writes, Insn.reads, mayWrite_hostReg h, mayRead_hostReg]

theorem frame_movimm_16 (v : U64) : ∀ a ∈ movimmInsns 16 v, InsnFrame W op a := by
  intro a ha
  obtain ⟨keep, imm16, hw, rfl⟩ := mem_movimmInsns ha
  cases keep <;> simp [InsnFrame, Insn.writes, Insn.reads, mayWrite_16, mayRead_16]

/-- The three shapes of an operation with a constant. -/
theorem frame_constInsns {pos neg : BitVec 12 → Insn} {reg : Insn} (d : U64)
    (hpos : ∀ imm12, InsnFrame W op (pos imm12) ∧ Place.x 16 ∉ (pos imm12).reads)
    (hneg : ∀ imm12, InsnFrame W op (neg imm12) ∧ Place.x 16 ∉ (neg imm12).reads)
    (hreg : InsnFrame W op reg) :
    (∀ a ∈ constInsns d pos neg reg, InsnFrame W op a) ∧
      ScratchFirst (constInsns d pos neg reg) := by
  unfold constInsns
  split
  · rw [List.forall_mem_singleton]
    refine ⟨(hpos _).1, scratchFirst_of_unread ?_⟩
    rw [List.forall_mem_singleton]
    exact (hpos _).2
  · split
    · rw [List.forall_mem_singleton]
      refine ⟨(hneg _).1, scratchFirst_of_unread ?_⟩
      rw [List.forall_mem_singleton]
      exact (hneg _).2
    · rw [List.forall_mem_append, List.forall_mem_singleton]
      refine ⟨⟨frame_movimm_16 d, hreg⟩, ?_⟩
      -- the constant's first instruction is the `MOVZ`
      exact scratchFirst_cons (List.not_mem_nil) List.mem_cons_self

/-- Adding a constant to a register of the guest. -/
theorem frame_constRd {rd rn : GReg} (h : rd ∈ W) (d : U64) (S : Bool) :
    (∀ a ∈ constInsns d (.addSubImm false S (hostReg rd) (hostReg rn))
        (.addSubImm true S (hostReg rd) (hostReg rn))
        (.addSubReg false S (hostReg rd) (hostReg rn) 16), InsnFrame W op a) ∧
      ScratchFirst (constInsns d (.addSubImm false S (hostReg rd) (hostReg rn))
        (.addSubImm true S (hostReg rd) (hostReg rn))
        (.addSubReg false S (hostReg rd) (hostReg rn) 16)) := by
  have himm : ∀ sub imm12, InsnFrame W op (.addSubImm sub S (hostReg rd) (hostReg rn) imm12) ∧
      Place.x 16 ∉ (Insn.addSubImm sub S (hostReg rd) (hostReg rn) imm12).reads := by
    intro sub imm12
    cases S <;> simp [InsnFrame, Insn.writes, Insn.reads, mayWrite_hostReg h, mayRead_hostReg]
  apply frame_constInsns d (himm false) (himm true)
  simp [InsnFrame, Insn.writes, Insn.reads, mayWrite_hostReg h, mayRead_hostReg, mayRead_16]

end Const

/-! ### Accesses -/

section Access

variable {i : OryxGinsn} {W : List GReg} {op : GuestOp}

/-- The address of an access without offset field, then the access itself. -/
theorem frame_addrInsns (hn : i.rn.toNat < 16) {mk : Reg → Insn} (h16 : InsnFrame W op (mk 16))
    (hreg : ∀ r : GReg, InsnFrame W op (mk (hostReg r)) ∧ Place.x 16 ∉ (mk (hostReg r)).reads) :
    (∀ b ∈ addrInsns i ++ [mk (addrReg i)], InsnFrame W op b) ∧
      ScratchFirst (addrInsns i ++ [mk (addrReg i)]) := by
  have hxn := xreg_eq_hostReg hn
  unfold addrInsns addrReg
  by_cases h0 : i.imm = 0
  · rw [if_neg (not_not_intro h0), if_neg (not_not_intro h0), List.nil_append,
      List.forall_mem_singleton, hxn]
    refine ⟨(hreg _).1, scratchFirst_of_unread ?_⟩
    rw [List.forall_mem_singleton]
    exact (hreg _).2
  · rw [if_pos h0, if_pos h0, List.singleton_append, List.forall_mem_cons,
      List.forall_mem_singleton, hxn]
    refine ⟨⟨?_, h16⟩, scratchFirst_cons ?_ ?_⟩
    · simp [InsnFrame, Insn.writes, Insn.reads, mayWrite_16, mayRead_hostReg]
    · simp [Insn.reads]
    · simp [Insn.writes]

theorem frame_loadInsns (cfg : TransCfg) (hd : i.rd.toNat < 16) (hn : i.rn.toNat < 16) :
    (∀ a ∈ loadInsns cfg i, InsnFrame [greg i.rd] .load a) ∧ ScratchFirst (loadInsns cfg i) := by
  have hxd := xreg_eq_hostReg hd
  have hxn := xreg_eq_hostReg hn
  have hmem : greg i.rd ∈ [greg i.rd] := List.mem_cons_self
  have hldr : InsnFrame [greg i.rd] .load (.ldr (xreg i.rd) (xreg i.rn) (offset12 i.imm)) ∧
      Place.x 16 ∉ (Insn.ldr (xreg i.rd) (xreg i.rn) (offset12 i.imm)).reads := by
    rw [hxd, hxn]
    simp [InsnFrame, Insn.writes, Insn.reads, mayWrite_hostReg hmem, mayRead_hostReg]
  cases hord : orderedAccess cfg i with
  | false =>
    rw [loadInsns_weak hord]
    refine ⟨List.forall_mem_singleton.mpr hldr.1, scratchFirst_of_unread ?_⟩
    exact List.forall_mem_singleton.mpr hldr.2
  | true =>
    cases hs : cfg.strength with
    | tso =>
      rw [loadInsns_tso hord hs]
      have hdmb : InsnFrame [greg i.rd] .load (.dmb .ishld) :=
        ⟨fun _ h => (nomatch h), fun _ h => nomatch h⟩
      refine ⟨List.forall_mem_cons.mpr ⟨hldr.1, List.forall_mem_singleton.mpr hdmb⟩,
        scratchFirst_of_unread (List.forall_mem_cons.mpr ⟨hldr.2, ?_⟩)⟩
      exact List.forall_mem_singleton.mpr List.not_mem_nil
    -- with a displacement the address stands in `x16`
    | rcpc =>
      rw [loadInsns_rcpc hord hs, hxd]
      apply @frame_addrInsns i _ _ hn (Insn.ldapr (hostReg (greg i.rd)))
      · simp [InsnFrame, Insn.writes, Insn.reads, mayWrite_hostReg hmem, mayRead_16]
      · intro r
        simp [InsnFrame, Insn.writes, Insn.reads, mayWrite_hostReg hmem, mayRead_hostReg]
    | sc =>
      rw [loadInsns_sc hord hs, hxd]
      apply @frame_addrInsns i _ _ hn (Insn.ldar (hostReg (greg i.rd)))
      · simp [InsnFrame, Insn.writes, Insn.reads, mayWrite_hostReg hmem, mayRead_16]
      · intro r
        simp [InsnFrame, Insn.writes, Insn.reads, mayWrite_hostReg hmem, mayRead_hostReg]

theorem frame_storeInsns (cfg : TransCfg) (hd : i.rd.toNat < 16) (hn : i.rn.toNat < 16) :
    (∀ a ∈ storeInsns cfg i, InsnFrame [] .store a) ∧ ScratchFirst (storeInsns cfg i) := by
  have hxd := xreg_eq_hostReg hd
  have hxn := xreg_eq_hostReg hn
  have hstr : InsnFrame [] .store (.str (xreg i.rd) (xreg i.rn) (offset12 i.imm)) ∧
      Place.x 16 ∉ (Insn.str (xreg i.rd) (xreg i.rn) (offset12 i.imm)).reads := by
    rw [hxd, hxn]
    simp [InsnFrame, Insn.writes, Insn.reads, mayRead_hostReg]
  cases hord : orderedAccess cfg i with
  | false =>
    rw [storeInsns_weak hord]
    refine ⟨List.forall_mem_singleton.mpr hstr.1, scratchFirst_of_unread ?_⟩
    exact List.forall_mem_singleton.mpr hstr.2
  | true =>
    by_cases hs : cfg.strength = .tso
    · rw [storeInsns_tso hord hs]
      have hdmb : InsnFrame [] .store (.dmb .ishst) :=
        ⟨fun _ h => (nomatch h), fun _ h => nomatch h⟩
      refine ⟨List.forall_mem_cons.mpr ⟨hdmb, List.forall_mem_singleton.mpr hstr.1⟩,
        scratchFirst_of_unread (List.forall_mem_cons.mpr ⟨List.not_mem_nil, ?_⟩)⟩
      exact List.forall_mem_singleton.mpr hstr.2
    · rw [storeInsns_release hord hs, hxd]
      apply @frame_addrInsns i _ _ hn (Insn.stlr (hostReg (greg i.rd)))
      · simp [InsnFrame, Insn.writes, Insn.reads, mayRead_16, mayRead_hostReg]
      · intro r
        simp [InsnFrame, Insn.writes, Insn.reads, mayRead_hostReg]

end Access

/-! ### Opcodes -/

theorem hostReg_rsp : (4 : Reg) = hostReg rsp := rfl
theorem hostReg_rax : (0 : Reg) = hostReg rax := rfl

theorem mayWrite_17 (W : List GReg) : MayWrite W .x86ret (.x 17) := Or.inr (Or.inr ⟨rfl, rfl⟩)

theorem mayRead_30 : MayRead (.ret 30) (.x 30) := Or.inr (Or.inr ⟨rfl, rfl⟩)

/-- **The code of an op keeps to its frame.** -/
theorem frame_opInsns (cfg : TransCfg) {i : OryxGinsn} (hd : i.rd.toNat < 16)
    (hn : i.rn.toNat < 16) (op : GuestOp) :
    (∀ a ∈ opInsns cfg i op, InsnFrame (namedWrites i op) op a) ∧
      ScratchFirst (opInsns cfg i op) := by
  have hxd := xreg_eq_hostReg hd
  have hxn := xreg_eq_hostReg hn
  have hrd : greg i.rd ∈ [greg i.rd] := List.mem_cons_self
  have hpop : greg i.rd ∈ [greg i.rd, rsp] := List.mem_cons_self
  have hpop' : rsp ∈ [greg i.rd, rsp] := List.mem_cons_of_mem _ List.mem_cons_self
  have hsp : rsp ∈ [rsp] := List.mem_cons_self
  have hax : rax ∈ [rax] := List.mem_cons_self
  cases op with
  | load => exact frame_loadInsns cfg hd hn
  | store => exact frame_storeInsns cfg hd hn
  -- one register, and no scratch
  | movRi =>
    rw [opInsns, hxd]
    have h : ∀ a ∈ movimmInsns (hostReg (greg i.rd)) i.imm,
        InsnFrame [greg i.rd] .movRi a ∧ Place.x 16 ∉ a.reads := frame_movimm_host hrd i.imm
    exact ⟨fun a ha => (h a ha).1, scratchFirst_of_unread fun a ha => (h a ha).2⟩
  -- the constant may stand in `x16`, written before it is read
  | lea =>
    rw [opInsns, hxd, hxn]
    exact frame_constRd hrd i.imm false
  | addRi =>
    rw [opInsns, hxd]
    exact frame_constRd hrd i.imm true
  | subRi =>
    rw [opInsns, hxd]
    exact frame_constRd hrd (-i.imm) true
  | cmpRi =>
    rw [opInsns, hxd]
    apply frame_constInsns
    · intro imm12
      simp [InsnFrame, Insn.writes, Insn.reads, mayRead_hostReg]
    · intro imm12
      simp [InsnFrame, Insn.writes, Insn.reads, mayRead_hostReg]
    · simp [InsnFrame, Insn.writes, Insn.reads, mayRead_hostReg, mayRead_16]
  -- the return PC goes through `x16`
  | call =>
    rw [opInsns, hostReg_rsp]
    refine ⟨List.forall_mem_append.mpr ⟨frame_movimm_16 i.imm, ?_⟩,
      scratchFirst_cons List.not_mem_nil List.mem_cons_self⟩
    simp [InsnFrame, Insn.writes, Insn.reads, namedWrites, mayWrite_hostReg hsp, mayRead_hostReg,
      mayRead_16]
  | push =>
    rw [opInsns, hxd, hostReg_rsp]
    refine ⟨?_, scratchFirst_of_unread ?_⟩ <;>
      simp [InsnFrame, Insn.writes, Insn.reads, namedWrites, mayWrite_hostReg hsp, mayRead_hostReg]
  | pop =>
    rw [opInsns, hxd, hostReg_rsp]
    refine ⟨?_, scratchFirst_of_unread ?_⟩ <;>
      simp [InsnFrame, Insn.writes, Insn.reads, namedWrites, mayWrite_hostReg hpop,
        mayWrite_hostReg hpop', mayRead_hostReg]
  -- `x17` is written here only, `x30` read by the two RETs only
  | x86ret =>
    rw [opInsns, hostReg_rsp]
    refine ⟨?_, scratchFirst_of_unread ?_⟩ <;>
      simp [InsnFrame, Insn.writes, Insn.reads, namedWrites, mayWrite_hostReg hsp, mayRead_hostReg,
        mayWrite_17, mayRead_30]
  | ret =>
    rw [opInsns]
    refine ⟨?_, scratchFirst_of_unread ?_⟩ <;>
      simp [InsnFrame, Insn.writes, Insn.reads, mayRead_30]
  | atomicCas =>
    rw [opInsns, hxd, hxn, hostReg_rax]
    refine ⟨?_, scratchFirst_of_unread ?_⟩ <;>
      simp [InsnFrame, Insn.writes, Insn.reads, namedWrites, mayWrite_hostReg hax, mayRead_hostReg]
  | _ =>
    rw [opInsns]
    try rw [hxd]
    try rw [hxn]
    refine ⟨?_, scratchFirst_of_unread ?_⟩ <;>
      simp [InsnFrame, Insn.writes, Insn.reads, namedWrites, mayWrite_hostReg hrd, mayRead_hostReg]

/-! ### Terminators and stubs -/

/-- The code of a linked terminator, without its stubs. -/
def termCode (i : OryxGinsn) : GuestOp → List Insn
  | .br => [.bcond (xcond (armCond i.cc)) 6]
  | .jmp => [.b 1]
  | .call => movimmInsns 16 i.imm ++ [.addSubImm true false 4 4 8, .str 16 4 0, .b 1]
  | .x86ret => [.ldr 17 4 0, .addSubImm false false 4 4 8, .ret 30]
  | .ret => [.ret 30]
  | _ => []

/-- The PCs of its stubs. -/
def termStubs (cfg : TransCfg) (i : OryxGinsn) : GuestOp → List U64
  | .br => [cfg.guestPc + cfg.guestLen.setWidth 64, i.target]
  | .jmp | .call => [i.target]
  | _ => []

theorem termInsns_eq (cfg : TransCfg) (i : OryxGinsn) (op : GuestOp) :
    termInsns cfg i op = termCode i op ++ (termStubs cfg i op).flatMap setpcInsns := by
  cases op with
  | call => simp [termInsns, termCode, termStubs]
  | br => simp [termInsns, termCode, termStubs]
  | jmp => simp [termInsns, termCode, termStubs]
  | _ => rfl

theorem frame_termCode (i : OryxGinsn) {op : GuestOp} (hterm : op.isTerminator = true) :
    (∀ a ∈ termCode i op, InsnFrame (namedWrites i op) op a) ∧ ScratchFirst (termCode i op) := by
  have hsp : rsp ∈ [rsp] := List.mem_cons_self
  cases op with
  | call =>
    rw [termCode, hostReg_rsp]
    refine ⟨List.forall_mem_append.mpr ⟨frame_movimm_16 i.imm, ?_⟩,
      scratchFirst_cons List.not_mem_nil List.mem_cons_self⟩
    simp [InsnFrame, Insn.writes, Insn.reads, namedWrites, mayWrite_hostReg hsp, mayRead_hostReg,
      mayRead_16]
  | x86ret =>
    rw [termCode, hostReg_rsp]
    refine ⟨?_, scratchFirst_of_unread ?_⟩ <;>
      simp [InsnFrame, Insn.writes, Insn.reads, namedWrites, mayWrite_hostReg hsp, mayRead_hostReg,
        mayWrite_17, mayRead_30]
  | ret | br | jmp =>
    rw [termCode]
    refine ⟨?_, scratchFirst_of_unread ?_⟩ <;>
      simp [InsnFrame, Insn.writes, Insn.reads, mayRead_30]
  | _ => cases hterm

theorem stubFrame_setpc (pc : U64) : StubFrame (setpcInsns pc) := by
  constructor <;> simp [setpcInsns, Insn.writes, Insn.reads]

/-! ### Blocks -/

theorem opFrame_of {i : OryxGinsn} {op : GuestOp} {is : List Insn}
    (h : (∀ a ∈ is, InsnFrame (namedWrites i op) op a) ∧ ScratchFirst is) : OpFrame i op is where
  meaning _ _ hr := x86Exec_regs hr
  writes a ha := (h.1 a ha).1
  reads a ha p hp := (h.1 a ha).2 p hp
  scratch := h.2

theorem opFrame_insnsOf (cfg : TransCfg) {i : OryxGinsn} {op : GuestOp}
    (hop : i.opcode = some op) (hd : i.rd.toNat < 16) (hn : i.rn.toNat < 16) :
    OpFrame i op (insnsOf cfg i) := by
  rw [insnsOf, hop]
  exact opFrame_of (frame_opInsns cfg hd hn op)

/-- The words of each op decode to its code, which keeps to the frame of the op. -/
def OpsFrame (cfg : TransCfg) (ops : List OryxGinsn) : Prop :=
  ∀ i ∈ ops, DecodesTo (opWords cfg i) (insnsOf cfg i) ∧
    ∃ op, i.opcode = some op ∧ OpFrame i op (insnsOf cfg i)

/-- Before linking: the words of the ops, one behind the other, and no others. -/
structure EmittedFrame (cfg : TransCfg) (ops : List OryxGinsn) (ws : List Word) : Prop where
  words : ws = ops.flatMap (opWords cfg)
  decodes : DecodesTo ws (ops.flatMap (insnsOf cfg))
  ops : OpsFrame cfg ops

/-- After linking: the body, the terminator, of which the branch alone is another, and the stubs
of its exits. -/
structure LinkedFrame (cfg : TransCfg) (ws : List Word) (body : List OryxGinsn)
    (last : OryxGinsn) (op : GuestOp) : Prop where
  last_op : last.opcode = some op
  decodes : DecodesTo ws (body.flatMap (insnsOf cfg) ++ termCode last op ++
    (termStubs cfg last op).flatMap setpcInsns)
  ops : OpsFrame cfg body
  front : (termCode last op).dropLast = (insnsOf cfg last).dropLast
  length : (termCode last op).length = (insnsOf cfg last).length
  term : OpFrame last op (termCode last op)
  stubs : ∀ pc ∈ termStubs cfg last op, StubFrame (setpcInsns pc)

variable {cfg : TransCfg} {ops body : List OryxGinsn} {last : OryxGinsn} {op : GuestOp}
  {ws : List Word}

theorem LowersTo.opsFrame {ds : List TransState} (h : LowersTo cfg ops ds) :
    OpsFrame cfg ops := by
  intro i hi
  obtain ⟨d, hd⟩ := h.lowers i hi
  obtain ⟨hregs, op, hop, -⟩ := lowered_ok hd
  obtain ⟨hrd, hrn⟩ := i.regsOk_iff.mp hregs
  exact ⟨decode_opWords hd, op, hop, opFrame_insnsOf cfg hop hrd hrn⟩

/-- Linking repoints the branch at the end of the terminator, where it has one. -/
theorem dropLast_termCode (cfg : TransCfg) (hop : last.opcode = some op)
    (hterm : op.isTerminator = true) :
    (termCode last op).dropLast = (insnsOf cfg last).dropLast ∧
      (termCode last op).length = (insnsOf cfg last).length := by
  rw [insnsOf, hop]
  cases op with
  | call =>
    have hsplit : ∀ b : Insn, movimmInsns 16 last.imm ++ [.addSubImm true false 4 4 8,
        .str 16 4 0, b] = (movimmInsns 16 last.imm ++ [.addSubImm true false 4 4 8,
        .str 16 4 0]) ++ [b] := by
      intro b
      rw [List.append_assoc]
      rfl
    dsimp only [termCode, opInsns]
    rw [hsplit, hsplit, List.dropLast_concat, List.dropLast_concat]
    exact ⟨rfl, by simp only [List.length_append, List.length_singleton]⟩
  | br | jmp | x86ret | ret => exact ⟨rfl, rfl⟩
  | _ => cases hterm

theorem LinkedBlock.linkedFrame (h : LinkedBlock cfg ops ws body last op) :
    LinkedFrame cfg ws body last op := by
  obtain ⟨hfront, hlength⟩ := dropLast_termCode cfg h.last_op h.terminates
  refine ⟨h.last_op, ?_, fun i hi => ⟨h.body_words i hi, ?_⟩, hfront, hlength,
    opFrame_of (frame_termCode last h.terminates), fun pc _ => stubFrame_setpc pc⟩
  · have hdec := h.decodes
    rw [termInsns_eq, ← List.append_assoc] at hdec
    exact hdec
  · obtain ⟨op', hop', -, hd, hn, -⟩ := h.body_ok i hi
    exact ⟨op', hop', opFrame_insnsOf cfg hop' hd hn⟩

/-! ### Runs -/

/-- The places that belong to the trampoline. -/
def HostPlace (p : Place) : Prop := p = .sp ∨ ∃ r : Reg, 18 ≤ r.val ∧ p = .x r

theorem HostPlace.not_mayWrite {p : Place} (h : HostPlace p) (W : List GReg) (op : GuestOp) :
    ¬ MayWrite W op p := by
  rcases h with rfl | ⟨k, hk, rfl⟩
  · rintro (⟨_, -, hr⟩ | hr | ⟨hr, -⟩) <;> cases hr
  · rintro (⟨r, -, hr⟩ | hr | ⟨hr, -⟩) <;> cases hr
    · have hlt := r.isLt
      have hval : (hostReg r).val = r.val := rfl
      omega
    · exact absurd hk (by decide)
    · exact absurd hk (by decide)

/-- The registers a block may read: guest, scratch and next-PC registers, and the link
register. -/
def blockReads : List Place :=
  ((List.finRange 18).map fun k => .x (k.castLE (by decide))) ++ [.x 30]

theorem hostReg_mem_blockReads : ∀ r : GReg, Place.x (hostReg r) ∈ blockReads := by decide

/-- A run of a block keeps what the trampoline has, and does not depend on what it has in the
registers the block does not read. -/
structure HostFrame (ws : List Word) : Prop where
  keeps : ∀ (s s' : A64.State) (t : U64), Returns ws 0 s t s' →
    ∀ p, HostPlace p → s'.get p = s.get p
  ignores : ∀ (s s' u : A64.State) (t : U64), Agree blockReads s u → Returns ws 0 s t s' →
    ∃ u', Returns ws 0 u t u' ∧ Agree blockReads s' u'

/-- A word of a linked block is a word of an op or of a stub. -/
theorem LinkedFrame.cases (h : LinkedFrame cfg ws body last op) {w : Word} (hw : w ∈ ws)
    {a : Insn} (ha : decode w = some a) :
    (∃ i op' is, OpFrame i op' is ∧ a ∈ is) ∨ ∃ is, StubFrame is ∧ a ∈ is := by
  have hsome : some a ∈ (body.flatMap (insnsOf cfg) ++ termCode last op ++
      (termStubs cfg last op).flatMap setpcInsns).map some := by
    rw [← h.decodes, ← ha]
    exact List.mem_map_of_mem hw
  obtain ⟨b, hb, he⟩ := List.mem_map.mp hsome
  cases he
  rcases List.mem_append.mp hb with hb | hb
  · rcases List.mem_append.mp hb with hb | hb
    · obtain ⟨i, hi, hai⟩ := List.mem_flatMap.mp hb
      obtain ⟨-, op', -, hframe⟩ := h.ops i hi
      exact Or.inl ⟨i, op', _, hframe, hai⟩
    · exact Or.inl ⟨last, op, _, h.term, hb⟩
  · obtain ⟨pc, hpc, hat⟩ := List.mem_flatMap.mp hb
    exact Or.inr ⟨_, h.stubs pc hpc, hat⟩

/-- No word of a linked block writes a place of the trampoline. -/
theorem LinkedFrame.unwritten (h : LinkedFrame cfg ws body last op) {p : Place}
    (hp : HostPlace p) : Unwritten ws p := by
  intro w hw a ha hwrite
  rcases h.cases hw ha with ⟨i, op', is, hframe, hmem⟩ | ⟨is, hstub, hmem⟩
  · exact hp.not_mayWrite _ _ (hframe.writes a hmem p hwrite)
  · have h17 := hstub.writes a hmem p hwrite
    exact hp.not_mayWrite [] .x86ret (Or.inr (Or.inr ⟨h17, rfl⟩))

theorem LinkedFrame.readsWithin (h : LinkedFrame cfg ws body last op) :
    ReadsWithin ws blockReads := by
  intro w hw a ha p hp
  rcases h.cases hw ha with ⟨i, op', is, hframe, hmem⟩ | ⟨is, hstub, hmem⟩
  · rcases hframe.reads a hmem p hp with ⟨r, rfl⟩ | rfl | ⟨rfl, -⟩
    · exact hostReg_mem_blockReads r
    · decide
    · decide
  · rcases hstub.reads a hmem p hp with rfl | ⟨rfl, -⟩
    · decide
    · decide

theorem LinkedFrame.hostFrame (h : LinkedFrame cfg ws body last op) : HostFrame ws where
  keeps _ _ _ hrun _ hp := Returns.frame (h.unwritten hp) hrun
  ignores _ _ _ _ hagree hrun := Returns.agree h.readsWithin hagree hrun

/-- **Translated code respects the trampoline's registers**, before and after linking. -/
theorem respects_registers {profileId : U32} {tu : OryxTu} {st : OryxMmStats}
    (h : oryxTranslateEx ops cfg profileId = .ok (tu, st)) :
    EmittedFrame cfg ops (codeWords tu) ∧
      ∃ exe body last op, oryxExecMapLinked tu = .ok exe ∧ ops = body ++ [last] ∧
        LinkedFrame cfg exe.words body last op ∧ HostFrame exe.words := by
  obtain ⟨hwords, hdec⟩ := codeWords_translated h
  obtain ⟨_, _, _, _, ht⟩ := oryxTranslateEx_ok h
  obtain ⟨exe, body, last, op, hlink, hblock⟩ := linked_translated h
  refine ⟨⟨hwords, ?_, ht.lowersTo.opsFrame⟩, exe, body, last, op, hlink, hblock.ops_eq,
    hblock.linkedFrame, hblock.linkedFrame.hostFrame⟩
  rw [hwords]
  exact hdec

theorem respects_registers_pushPopRet :
    ∃ tu st, oryxTranslateEx pushPopRet (blockCfg .conservative .sc) 0 = .ok (tu, st) ∧
      EmittedFrame (blockCfg .conservative .sc) pushPopRet (codeWords tu) ∧
      ∃ exe body last op, oryxExecMapLinked tu = .ok exe ∧ pushPopRet = body ++ [last] ∧
        LinkedFrame (blockCfg .conservative .sc) exe.words body last op ∧ HostFrame exe.words :=
  ⟨_, _, rfl, @respects_registers (blockCfg .conservative .sc) pushPopRet 0 _ _ rfl⟩

end Oryx
