/-
Oryx/ProgramMeaning.lean

What a whole program means: the dispatcher over an image of x86 code, from
its bytes.

`oryx_x86_fetch` hands the dispatcher the blocks of the image, decoded one at
a time; each is translated, linked, cached and run through the trampoline.
Beside it stands the x86 machine of `Lib/X86/Machine`, which runs the bytes
of the image one instruction after another.

The decoder reads an encoding in one way only, so the machine is
deterministic (`BlockStep.unique`).  A turn of the dispatcher is a block step
of the machine (`turn_follows`), as long as the blocks the machine comes to
read no flags from before their start and push or pop no stack pointer
(`CleanRun`); the run is then the machine's run, whatever the policy, the
strength and the host's flags (`oryxRunProgram_x86`).
-/
import Oryx.Lib.X86.Machine
import Oryx.Pipeline
import Oryx.Trampoline

namespace Oryx

open X86

/-! ### The fetch callback -/

/-- `ORYX_ERR_UNSUPPORTED`. -/
def oryxErrUnsupported : CInt := -100

/-- The values of the decoder's codes. -/
def DecodeErr.code : DecodeErr → CInt
  | .inval => OryxErr.inval.code
  | .notfound => OryxErr.notfound.code
  | .format => OryxErr.format.code
  | .unsupported => oryxErrUnsupported

theorem DecodeErr.code_ne_ok (e : DecodeErr) : e.code ≠ oryxOk := by
  cases e <;> decide

/-- `oryx_x86_fetch`.  The call always ends and reads inside the image (`decodes_safely`). -/
def oryxX86Fetch (img : OryxX86Image) (pc : U64) : FetchAnswer :=
  match oryxX86DecodeBlock img pc oryxMaxBlockOps with
  | .ok ops len => ⟨oryxOk, ops, len⟩
  | .error e _ => ⟨e.code, [], 0⟩
  | .fault _ | .running _ => ⟨oryxErrUnsupported, [], 0⟩

/-! ### One reading of the bytes -/

@[simp] theorem greg_regField (r : X86.Reg) : greg (regField r) = r := by
  revert r
  decide

/-- The condition a `cc` field names comes back. -/
theorem gccCond_condIr (c : X86.Cond) : gccCond (condIr c) = some c := by
  cases c <;> rfl

/-- The instruction that has an op, when it ends at `next`. -/
def irInsn (next : U64) (g : OryxGinsn) : X86.Insn :=
  let rd := greg g.rd
  let rn := greg g.rn
  match g.opcode with
  | some .movRr => .mov rd rn
  | some .movRi => .movImm rd g.imm
  | some .addRr => .alu .add rd rn
  | some .orRr => .alu .or rd rn
  | some .andRr => .alu .and rd rn
  | some .subRr => .alu .sub rd rn
  | some .xorRr => .alu .xor rd rn
  | some .cmpRr => .alu .cmp rd rn
  | some .testRr => .alu .test rd rn
  | some .addRi => .aluImm .add rd g.imm
  | some .subRi => .aluImm .sub rd g.imm
  | some .cmpRi => .aluImm .cmp rd g.imm
  | some .lea => .lea rd rn g.imm
  | some .push => .push rd
  | some .pop => .pop rd
  | some .call => .call (g.target - next)
  | some .br => .jcc ((gccCond g.cc).getD .e) (g.target - next)
  | some .jmp => .jmp (g.target - next)
  | some .x86ret => .ret
  | _ => .endbr64

theorem irInsn_insnIr {next : U64} {i : X86.Insn} {g : OryxGinsn} (h : insnIr next i = some g) :
    irInsn next g = i := by
  have hrel : ∀ rel : U64, next + rel - next = rel := fun rel => by
    rw [BitVec.add_comm, BitVec.add_sub_cancel]
  cases i with
  | endbr64 => cases h
  | mov dst src =>
    cases h
    show X86.Insn.mov (greg (regField dst)) (greg (regField src)) = _
    rw [greg_regField, greg_regField]
  | movImm dst imm =>
    cases h
    show X86.Insn.movImm (greg (regField dst)) imm = _
    rw [greg_regField]
  | alu op dst src =>
    cases h
    have hregs : X86.Insn.alu op (greg (regField dst)) (greg (regField src)) = .alu op dst src := by
      rw [greg_regField, greg_regField]
    rw [← hregs]
    cases op <;> rfl
  | aluImm op dst imm =>
    cases h
    have hreg : X86.Insn.aluImm op (greg (regField dst)) imm = .aluImm op dst imm := by
      rw [greg_regField]
    rw [← hreg]
    cases op <;> rfl
  | lea dst base disp =>
    cases h
    show X86.Insn.lea (greg (regField dst)) (greg (regField base)) disp = _
    rw [greg_regField, greg_regField]
  | push src =>
    cases h
    show X86.Insn.push (greg (regField src)) = _
    rw [greg_regField]
  | pop dst =>
    cases h
    show X86.Insn.pop (greg (regField dst)) = _
    rw [greg_regField]
  | call rel =>
    cases h
    exact congrArg X86.Insn.call (hrel rel)
  | jcc cond rel =>
    cases h
    show X86.Insn.jcc ((gccCond (condIr cond)).getD .e) (next + rel - next) = _
    rw [gccCond_condIr, hrel]
    rfl
  | jmp rel =>
    cases h
    exact congrArg X86.Insn.jmp (hrel rel)
  | ret =>
    cases h
    rfl

/-- What a turn comes to tells the instruction. -/
theorem actionOf_injective {next : U64} {i j : X86.Insn}
    (h : actionOf next i = actionOf next j) : i = j := by
  unfold actionOf at h
  cases hi : insnIr next i with
  | none =>
    cases hj : insnIr next j with
    | none => rw [insnIr_eq_none_iff.mp hi, insnIr_eq_none_iff.mp hj]
    | some g =>
      rw [hi, hj] at h
      cases h
  | some g =>
    cases hj : insnIr next j with
    | none =>
      rw [hi, hj] at h
      cases h
    | some g' =>
      rw [hi, hj] at h
      injection h with hg
      rw [← irInsn_insnIr hi, ← irInsn_insnIr hj, hg]

/-- **Bytes are read in one way**: two encoded instructions at the start of the same bytes are
one. -/
theorem encoded_unique {e e' : Encoded} {bs : List Byte} (h : e.bytes <+: bs)
    (h' : e'.bytes <+: bs) : e = e' := by
  obtain ⟨r, hr⟩ := h
  obtain ⟨r', hr'⟩ := h'
  -- both are what the decoder takes
  have hstep := @decodeStep_whole bs ⟨0, 0⟩ e r (Nat.zero_le _) hr.symm
  rw [@decodeStep_whole bs ⟨0, 0⟩ e' r' (Nat.zero_le _) hr'.symm, Except.ok.injEq,
    Prod.mk.injEq] at hstep
  obtain ⟨haction, hcursor⟩ := hstep
  have hlen : e'.bytes.length = e.bytes.length := by
    have hoff := congrArg Cursor.off hcursor
    rwa [Cursor.advance_off, Cursor.advance_off, Nat.zero_add, Nat.zero_add] at hoff
  rw [hcursor] at haction
  have hinsn := actionOf_injective haction
  have hbytes : e'.bytes = e.bytes :=
    (List.append_inj (hr'.trans hr.symm) hlen).1
  obtain ⟨i, b, hb⟩ := e
  obtain ⟨i', b', hb'⟩ := e'
  cases hinsn
  cases hbytes
  rfl

/-- Two blocks at the start of the same bytes are one. -/
theorem block_unique {run run' : List Encoded} {bs : List Byte} (h : IsBlock run)
    (h' : IsBlock run') (hbs : codeBytes run <+: bs) (hbs' : codeBytes run' <+: bs) :
    run = run' := by
  induction run generalizing run' bs with
  | nil =>
    obtain ⟨body, last, hnil, -⟩ := h
    exact absurd hnil.symm (List.append_ne_nil_of_right_ne_nil _ (List.cons_ne_nil _ _))
  | cons e run ih =>
    cases run' with
    | nil =>
      obtain ⟨body, last, hnil, -⟩ := h'
      exact absurd hnil.symm (List.append_ne_nil_of_right_ne_nil _ (List.cons_ne_nil _ _))
    | cons e' run' =>
      rw [codeBytes_cons] at hbs hbs'
      cases encoded_unique ((List.prefix_append _ _).trans hbs)
        ((List.prefix_append _ _).trans hbs')
      obtain ⟨rest, rfl⟩ := (List.prefix_append _ _).trans hbs
      rw [List.prefix_append_right_inj] at hbs hbs'
      rcases h.cases with ⟨_, heq, hterm⟩ | ⟨_, _, heq, hopen, hrest⟩
      · cases heq
        rcases h'.cases with ⟨_, heq', -⟩ | ⟨_, _, heq', hopen', -⟩
        · cases heq'
          rfl
        · cases heq'
          rw [hterm] at hopen'
          cases hopen'
      · cases heq
        rcases h'.cases with ⟨_, heq', hterm'⟩ | ⟨_, _, heq', -, hrest'⟩
        · cases heq'
          rw [hopen] at hterm'
          cases hterm'
        · cases heq'
          rw [ih hrest hrest' hbs hbs']

/-- The image as the text of a machine. -/
def OryxX86Image.text (img : OryxX86Image) : Text := ⟨img.base, img.bytes⟩

section Machine

variable {t : Text} {m m₁ m₂ : Machine}

/-- The machine is deterministic, a block at a time, -/
theorem BlockStep.unique (h₁ : BlockStep t m m₁) (h₂ : BlockStep t m m₂) : m₁ = m₂ := by
  obtain ⟨run₁, hblock₁, h₁⟩ := h₁
  obtain ⟨run₂, hblock₂, h₂⟩ := h₂
  rw [block_unique hblock₁ hblock₂ h₁.prefix_drop h₂.prefix_drop]

/-- and over a number of blocks. -/
theorem BlockSteps.unique {n : Nat} (h₁ : BlockSteps t n m m₁) (h₂ : BlockSteps t n m m₂) :
    m₁ = m₂ := by
  induction h₁ with
  | refl =>
    cases h₂
    rfl
  | head hstep _ ih =>
    cases h₂ with
    | head hstep' hrest' =>
      cases BlockStep.unique hstep hstep'
      exact ih hrest'

end Machine

/-! ### The meaning of a decoded block -/

/-- The guest machine inside the x86 machine. -/
def guestMachine (m : Machine) : X86State := ⟨m.regs, m.flags, m.mem⟩

theorem x86Step_ginsn (op : GuestOp) (rd rn : CInt) (imm : U64) (g : X86State) :
    x86Step g (ginsn op rd rn imm) = x86Exec (ginsn op rd rn imm) op g := by
  have hop : (ginsn op rd rn imm).opcode = some op := GuestOp.ofCode_code op
  rw [x86Step, hop]

theorem guest_alu (m : Machine) (op : AluOp) (dst src : X86.Reg) (g : OryxGinsn)
    (hrd : greg g.rd = dst) (hrn : greg g.rn = src) :
    guestMachine (m.alu op dst (m.regs src)) = x86Exec g (aluIr op) (guestMachine m) := by
  subst hrd hrn
  cases op <;> rfl

theorem guest_aluImm (m : Machine) (op : ImmOp) (dst : X86.Reg) (g : OryxGinsn)
    (hrd : greg g.rd = dst) :
    guestMachine (m.alu op.alu dst g.imm) = x86Exec g (immIr op) (guestMachine m) := by
  subst hrd
  cases op <;> rfl

/-- **An instruction means what its op means**, the transfer of control apart. -/
theorem guest_exec {i : X86.Insn} {next : U64} {g : OryxGinsn} (h : insnIr next i = some g)
    (m : Machine) : guestMachine (i.exec next m) = x86Step (guestMachine m) g := by
  cases i with
  | endbr64 => cases h
  | mov dst src =>
    cases h
    rw [x86Step_ginsn, x86Exec]
    dsimp only [ginsn]
    rw [greg_regField, greg_regField]
    rfl
  | movImm dst imm =>
    cases h
    rw [x86Step_ginsn, x86Exec]
    dsimp only [ginsn]
    rw [greg_regField]
    rfl
  | alu op dst src =>
    cases h
    rw [x86Step_ginsn]
    exact guest_alu m op dst src _ (greg_regField dst) (greg_regField src)
  | aluImm op dst imm =>
    cases h
    rw [x86Step_ginsn]
    exact guest_aluImm m op dst (ginsn (immIr op) (regField dst) 0 imm) (greg_regField dst)
  | lea dst base disp =>
    cases h
    rw [x86Step_ginsn, x86Exec]
    dsimp only [ginsn]
    rw [greg_regField, greg_regField]
    rfl
  | push src =>
    cases h
    rw [x86Step_ginsn, x86Exec]
    dsimp only [ginsn]
    rw [greg_regField]
    rfl
  | pop dst =>
    cases h
    rw [x86Step_ginsn, x86Exec]
    dsimp only [ginsn]
    rw [greg_regField]
    rfl
  | call rel =>
    cases h
    rfl
  | jcc cond rel =>
    cases h
    rfl
  | jmp rel =>
    cases h
    rfl
  | ret =>
    cases h
    rfl

/-- **And goes where its op goes**, when it ends the block of `len` bytes at `pc`. -/
theorem rip_exec {i : X86.Insn} {next pc : U64} {len : U32} {g : OryxGinsn}
    (h : insnIr next i = some g) (hterm : i.isTerminator = true)
    (hnext : next = pc + len.setWidth 64) (m : Machine) :
    (i.exec next m).rip = x86NextPc pc len g (guestMachine m) := by
  cases i with
  | call | jmp | ret =>
    cases h
    rfl
  | jcc cond rel =>
    cases h
    show (if cond.holds m.flags = true then next + rel else next) =
      if gccHolds (condIr cond) m.flags = true then next + rel else pc + len.setWidth 64
    rw [gccHolds, gccCond_condIr, hnext]
    rfl
  | _ => cases hterm

theorem guest_encoded (e : Encoded) (m : Machine) :
    guestMachine (e.exec m) =
      (insnIr (m.rip + BitVec.ofNat 64 e.bytes.length) e.insn).toList.foldl x86Step
        (guestMachine m) := by
  cases hir : insnIr (m.rip + BitVec.ofNat 64 e.bytes.length) e.insn with
  | none =>
    rw [Encoded.exec, insnIr_eq_none_iff.mp hir]
    rfl
  | some g => exact guest_exec hir m

/-- The straight-line part of a block. -/
theorem guest_execRun {run : List Encoded} (hopen : ∀ e ∈ run, e.insn.isTerminator = false)
    (m : Machine) :
    guestMachine (execRun run m) = x86Run (runOps m.rip run) (guestMachine m) ∧
      (execRun run m).rip = m.rip + BitVec.ofNat 64 (codeBytes run).length := by
  induction run generalizing m with
  | nil => exact ⟨rfl, (BitVec.add_zero m.rip).symm⟩
  | cons e run ih =>
    rw [List.forall_mem_cons] at hopen
    obtain ⟨hguest, hrip⟩ := ih hopen.2 (e.exec m)
    rw [Encoded.exec_rip hopen.1] at hguest hrip
    constructor
    · rw [execRun_cons, hguest, runOps, x86Run, x86Run, List.foldl_append, guest_encoded]
    · rw [execRun_cons, hrip, codeBytes_cons, List.length_append, BitVec.ofNat_add,
        BitVec.add_assoc]

theorem runOps_append (pc : U64) (run run' : List Encoded) :
    runOps pc (run ++ run') =
      runOps pc run ++ runOps (pc + BitVec.ofNat 64 (codeBytes run).length) run' := by
  induction run generalizing pc with
  | nil =>
    rw [codeBytes_nil, List.length_nil, BitVec.add_zero]
    rfl
  | cons e run ih =>
    rw [List.cons_append, runOps, runOps, ih, codeBytes_cons, List.length_append,
      BitVec.ofNat_add, BitVec.add_assoc, List.append_assoc]

/-- **A block means what its ops mean**: where it ends and in which state. -/
theorem x86Block_runOps {run : List Encoded} (hblock : IsBlock run) {len : U32}
    (hlen : len.toNat = (codeBytes run).length) (m : Machine) :
    x86Block m.rip len (runOps m.rip run) (guestMachine m) =
      (guestMachine (execRun run m), (execRun run m).rip) := by
  obtain ⟨body, last, rfl, hopen, hterm⟩ := hblock
  obtain ⟨hguest, hrip⟩ := guest_execRun hopen m
  have hrun : execRun (body ++ [last]) m = last.exec (execRun body m) := List.foldl_append
  have hnext : (execRun body m).rip + BitVec.ofNat 64 last.bytes.length =
      m.rip + len.setWidth 64 := by
    have hwidth : len.setWidth 64 = BitVec.ofNat 64 (codeBytes (body ++ [last])).length := by
      apply BitVec.eq_of_toNat_eq
      rw [BitVec.toNat_setWidth, BitVec.toNat_ofNat, hlen]
    have hbytes : codeBytes (body ++ [last]) = codeBytes body ++ last.bytes := by
      rw [codeBytes, codeBytes, List.flatMap_append, List.flatMap_singleton]
    rw [hwidth, hrip, hbytes, List.length_append, BitVec.ofNat_add, BitVec.add_assoc]
  -- the last instruction is no `endbr64`, so it has an op
  cases hir : insnIr ((execRun body m).rip + BitVec.ofNat 64 last.bytes.length) last.insn with
  | none =>
    rw [insnIr_eq_none_iff.mp hir] at hterm
    cases hterm
  | some g =>
    have hops : runOps m.rip (body ++ [last]) = runOps m.rip body ++ [g] := by
      rw [hrip] at hir
      rw [runOps_append, runOps, hir]
      rfl
    rw [hops, x86Block_append, hrun, ← hguest, Encoded.exec, guest_exec hir,
      rip_exec hir hterm hnext]

/-! ### Clean blocks -/

/-- The block reads no flags from before its start, and pushes and pops no stack pointer. -/
structure CleanRun (run : List Encoded) : Prop where
  flags : flagsLocal run = true
  stack : ∀ e ∈ run, e.insn ≠ .push stackReg ∧ e.insn ≠ .pop stackReg

/-- A sign-extended number of fewer bits is not the smallest of all. -/
theorem signExtend_ne_intMin {w : Nat} (hw : w < 64) (x : BitVec w) :
    x.signExtend 64 ≠ BitVec.intMin 64 := by
  intro h
  have hle := BitVec.le_toInt x
  have heq : x.toInt = (BitVec.intMin 64).toInt := by
    rw [← h, BitVec.toInt_signExtend_of_le (Nat.le_of_lt hw)]
  have hmin : (BitVec.intMin 64).toInt = -2 ^ 63 := by decide
  rw [heq, hmin] at hle
  have hpow : (2 : Int) ^ (w - 1) ≤ 2 ^ 62 :=
    pow_le_pow_right₀ (by decide) (by omega)
  omega

/-- The constants of group 1 are sign-extended ones. -/
theorem aluImm_ne_intMin (e : Encoded) {op : ImmOp} {dst : X86.Reg} {imm : U64}
    (h : e.insn = .aluImm op dst imm) : imm ≠ BitVec.intMin 64 := by
  obtain ⟨i, bs, henc⟩ := e
  cases henc with
  | endbr64 => cases h
  | row p hrow =>
    cases hrow with
    | aluMI8 hw op' rm imm' =>
      cases h
      exact signExtend_ne_intMin (by decide) imm'
    | aluMI32 hw op' rm imm' =>
      cases h
      exact signExtend_ne_intMin (by decide) imm'
    | _ => cases h

theorem faithful_of_op {g : OryxGinsn} {op : GuestOp}
    (h : op ∉ [GuestOp.atomicAdd, .atomicCas, .push, .pop, .subRi]) : Faithful g op := by
  simp only [List.mem_cons, List.not_mem_nil, or_false, not_or] at h
  obtain ⟨hadd, hcas, hpush, hpop, hsub⟩ := h
  refine ⟨hadd, hcas, ?_, fun hop => absurd hop hsub⟩
  rintro (hop | hop)
  · exact absurd hop hpush
  · exact absurd hop hpop

/-- The op of an instruction that pushes and pops no stack pointer is translated to what x86
says. -/
theorem meansX86_insnIr (e : Encoded) {next : U64} {g : OryxGinsn}
    (h : insnIr next e.insn = some g)
    (hstack : e.insn ≠ .push stackReg ∧ e.insn ≠ .pop stackReg) : MeansX86 g := by
  intro op hop
  cases hi : e.insn with
  | alu op' dst src =>
    rw [hi] at h
    cases h
    cases (GuestOp.ofCode_code (aluIr op')).symm.trans hop
    cases op' <;> exact faithful_of_op (by decide)
  | aluImm op' dst imm =>
    have himm := aluImm_ne_intMin e hi
    rw [hi] at h
    cases h
    cases (GuestOp.ofCode_code (immIr op')).symm.trans hop
    cases op' with
    | sub =>
      refine ⟨by decide, by decide, ?_, fun _ => himm⟩
      rintro (hstack | hstack) <;> cases hstack
    | _ => exact faithful_of_op (by decide)
  | push src =>
    rw [hi] at h hstack
    cases h
    cases hop
    refine ⟨by decide, by decide, fun _ hsp => hstack.1 ?_, GuestOp.noConfusion⟩
    exact congrArg X86.Insn.push ((greg_regField src).symm.trans hsp)
  | pop dst =>
    rw [hi] at h hstack
    cases h
    cases hop
    refine ⟨by decide, by decide, fun _ hsp => hstack.2 ?_, GuestOp.noConfusion⟩
    exact congrArg X86.Insn.pop ((greg_regField dst).symm.trans hsp)
  | endbr64 =>
    rw [hi] at h
    cases h
  | _ =>
    rw [hi] at h
    cases h
    cases hop
    exact faithful_of_op (by decide)

theorem CleanRun.meansX86 {run : List Encoded} (h : CleanRun run) (pc : U64) :
    ∀ g ∈ runOps pc run, MeansX86 g := by
  have hstack := h.stack
  clear h
  induction run generalizing pc with
  | nil => exact fun g hg => absurd hg List.not_mem_nil
  | cons e run ih =>
    rw [List.forall_mem_cons] at hstack
    intro g hg
    rw [runOps] at hg
    rcases List.mem_append.mp hg with hg | hg
    · exact meansX86_insnIr e (Option.mem_toList.mp hg) hstack.1
    · exact ih _ hstack.2 g hg

/-! ### A turn of the dispatcher -/

section Turn

variable {img : OryxX86Image} {policy : MmPolicy} {strength : OrderStrength} {pc : U64}

/-- A block that is built stands in the image, and is linked from its ops. -/
theorem blockAt_of_build (himg : img.Small) {exe : OryxExec}
    (h : oryxBuildBlock (oryxX86Fetch img) policy strength pc = .ok exe) :
    ∃ run body last op, img.Inside pc ∧ img.BlockAt pc oryxMaxBlockOps run ∧
      (oryxX86Fetch img pc).len.toNat = (codeBytes run).length ∧
      LinkedBlock (blockAt (oryxX86Fetch img) policy strength pc) (runOps pc run) exe.words
        body last op := by
  obtain ⟨body, last, op, hlinked⟩ := linkedBlock_of_build h
  cases hdec : oryxX86DecodeBlock img pc oryxMaxBlockOps with
  | ok ops len =>
    obtain ⟨run, hrun, hops, hlen⟩ := exactBlockAt_of_ok himg hdec
    have hfetch : oryxX86Fetch img pc = ⟨oryxOk, ops, len⟩ := by rw [oryxX86Fetch, hdec]
    rw [hfetch] at hlinked ⊢
    cases hops
    exact ⟨run, body, last, op, (inside_of_ok hdec).2, hrun, hlen, hlinked⟩
  | error e w =>
    have hfetch : (oryxX86Fetch img pc).ops = [] := by rw [oryxX86Fetch, hdec]
    rw [hfetch] at hlinked
    exact absurd hlinked.ops_eq.symm (List.append_ne_nil_of_right_ne_nil _ (List.cons_ne_nil _ _))
  | fault w => exact absurd hdec ((decodes_safely himg pc oryxMaxBlockOps).reads w)
  | running w => exact absurd hdec ((decodes_safely himg pc oryxMaxBlockOps).ends w)

/-- A block that is not built is one the decoder refuses. -/
theorem decodeError_of_build (himg : img.Small) {rc : CInt}
    (h : oryxBuildBlock (oryxX86Fetch img) policy strength pc = .error rc) :
    ∃ e w, oryxX86DecodeBlock img pc oryxMaxBlockOps = .error e w ∧ rc = e.code := by
  cases hdec : oryxX86DecodeBlock img pc oryxMaxBlockOps with
  | ok ops len =>
    -- what is decoded is translated and linked
    have hfetch : oryxX86Fetch img pc = ⟨oryxOk, ops, len⟩ := by rw [oryxX86Fetch, hdec]
    obtain ⟨⟨tu, st⟩, htrans⟩ := translates_decoded (by decide) hdec
      (blockAt (oryxX86Fetch img) policy strength pc) 0
    have hsize := (decodes_safely himg pc oryxMaxBlockOps).accepted ops len hdec
    obtain ⟨exe, -, -, -, hbuild, -⟩ := @oryxBuildBlock_ok (oryxX86Fetch img) policy strength pc
      tu st (by rw [hfetch]) (by
        rw [hfetch, not_or, Nat.not_lt]
        exact ⟨Nat.ne_of_gt hsize.nonempty, hsize.fits⟩) (by rw [hfetch]; exact htrans)
    rw [h] at hbuild
    cases hbuild
  | error e w =>
    have hfetch : oryxX86Fetch img pc = ⟨e.code, [], 0⟩ := by rw [oryxX86Fetch, hdec]
    have hrc : (oryxX86Fetch img pc).rc ≠ oryxOk := by
      rw [hfetch]
      exact e.code_ne_ok
    rw [oryxBuildBlock_of_fetch hrc, hfetch] at h
    exact ⟨e, w, rfl, (Except.error.inj h).symm⟩
  | fault w => exact absurd hdec ((decodes_safely himg pc oryxMaxBlockOps).reads w)
  | running w => exact absurd hdec ((decodes_safely himg pc oryxMaxBlockOps).ends w)

/-- A decoded branch has one of the conditions of x86. -/
theorem branch_cc_runOps {run : List Encoded} {g : OryxGinsn} (h : g ∈ runOps pc run)
    (hop : g.opcode = some .br) : (gccCond g.cc).isSome = true := by
  obtain ⟨next, i, hi⟩ := mem_runOps h
  cases i with
  | jcc cond rel =>
    cases hi
    show (gccCond (condIr cond)).isSome = true
    rw [gccCond_condIr]
    rfl
  | alu op dst src =>
    cases hi
    have hcode := (GuestOp.ofCode_code (aluIr op)).symm.trans hop
    cases op <;> cases hcode
  | aluImm op dst imm =>
    cases hi
    have hcode := (GuestOp.ofCode_code (immIr op)).symm.trans hop
    cases op <;> cases hcode
  | _ =>
    cases hi <;> cases hop

/-- The host holds the machine's registers and memory. -/
structure Follows (h : Host) (m : Machine) : Prop where
  regs : h.guest.regs = m.regs
  mem : h.cpu.mem = m.mem

/-- **A turn is a block step.** -/
theorem turn_follows {exe : OryxExec} {run : List Encoded} {m : Machine} {h : Host}
    (hfollows : Follows h m) (hclean : CleanRun run) (hblock : IsBlock run) {len : U32}
    (hlen : len.toNat = (codeBytes run).length) {cfg : TransCfg}
    (hcfg : cfg.guestPc = m.rip ∧ cfg.guestLen = len) {body : List OryxGinsn}
    {last : OryxGinsn} {op : GuestOp}
    (hlinked : LinkedBlock cfg (runOps m.rip run) exe.words body last op) :
    TrampReturns exe h ∧ ∀ pc' h', TrampRuns exe h pc' h' →
      (execRun run m).rip = pc' ∧ Follows h' (execRun run m) := by
  have hmem : ∀ i ∈ body, i ∈ runOps m.rip run := fun i hi =>
    hlinked.ops_eq ▸ List.mem_append_left _ hi
  have hlast : last ∈ runOps m.rip run := hlinked.ops_eq ▸ List.mem_append_right _ List.mem_cons_self
  obtain ⟨hreturns, hruns⟩ := hlinked.tramp_x86 (fun i hi => hclean.meansX86 _ i (hmem i hi))
    (fun hop => branch_cc_runOps hlast (hlinked.last_op.trans (congrArg some hop))) h
  refine ⟨hreturns, fun pc' h' hrun => ?_⟩
  obtain ⟨f, g, hblockEq, hregs, hmem'⟩ := hruns pc' h' hrun
  -- the machine with the host's flags does the same, since the block reads none of them
  have hguest : (⟨h.guest.regs, f, h.cpu.mem⟩ : X86State) = guestMachine (m.setFlags f) := by
    rw [hfollows.regs, hfollows.mem]
    rfl
  have hx86 := x86Block_runOps hblock hlen (m.setFlags f)
  rw [hcfg.1, hcfg.2, hguest] at hblockEq
  rw [show (m.setFlags f).rip = m.rip from rfl, hblockEq, Prod.mk.injEq] at hx86
  obtain ⟨rfl, rfl⟩ := hx86
  have hagree : Agree (execRun run m) (execRun run (m.setFlags f)) :=
    execRun_agree hclean.flags ⟨rfl, rfl, rfl⟩
  exact ⟨hagree.rip, hregs.trans hagree.regs.symm, hmem'.trans hagree.mem.symm⟩

end Turn

/-! ### Programs -/

/-- A function for the trampoline: where the block returns, some call of it. -/
def IsTrampoline (tramp : OryxExec → Host → U64 × Host) : Prop :=
  ∀ e h, TrampReturns e h → TrampRuns e h (tramp e h).1 (tramp e h).2

/-- The blocks the machine comes to are clean. -/
def RunsClean (img : OryxX86Image) (m : Machine) : Prop :=
  ∀ k m₁ run, BlockSteps img.text k m m₁ → img.BlockAt m₁.rip oryxMaxBlockOps run → CleanRun run

section Program

variable {img : OryxX86Image} {policy : MmPolicy} {strength : OrderStrength}
  {tramp : OryxExec → Host → U64 × Host}

theorem OryxX86Image.BlockAt.holds {pc : U64} {cap : Nat} {run : List Encoded}
    (h : img.BlockAt pc cap run) (hin : img.Inside pc) : img.text.Holds pc (codeBytes run) where
  base_le := hin.base_le
  prefix_drop := by
    have hoff := hin.offset_eq
    have hsub : pc.toNat - img.text.base.toNat = img.offset pc := by
      show pc.toNat - img.base.toNat = _
      omega
    rw [hsub]
    exact h.bytes

/-- A chain of the dispatcher is the machine's, block by block. -/
theorem BlockChain.follows (himg : img.Small) (htramp : IsTrampoline tramp) {n : Nat}
    {pc pc' : U64} {h h' : Host}
    (hchain : BlockChain (oryxX86Fetch img) policy strength tramp n pc h pc' h') {m : Machine}
    (hpc : m.rip = pc) (hfollows : Follows h m) (hclean : RunsClean img m) :
    ∃ m', BlockSteps img.text n m m' ∧ m'.rip = pc' ∧ Follows h' m' := by
  induction hchain generalizing m with
  | nil => exact ⟨m, .refl m, hpc, hfollows⟩
  | cons hne hbuild hrest ih =>
    obtain ⟨run, body, last, op, hin, hat, hlen, hlinked⟩ := blockAt_of_build himg hbuild
    subst hpc
    have hclean₁ := hclean 0 m run (.refl m) hat
    obtain ⟨hreturns, hruns⟩ :=
      turn_follows hfollows hclean₁ hat.isBlock hlen ⟨rfl, rfl⟩ hlinked
    obtain ⟨hrip, hfollows'⟩ := hruns _ _ (htramp _ _ hreturns)
    have hstep : BlockStep img.text m (execRun run m) :=
      .block m run hat.isBlock (hat.holds hin)
    obtain ⟨m', hsteps, hrip', hfollows''⟩ := ih hrip hfollows'
      fun k m₁ run' hk => hclean (k + 1) m₁ run' (.head hstep hk)
    exact ⟨m', .head hstep hsteps, hrip', hfollows''⟩

variable (img) in
/-- Why a run that has counted `steps` blocks of at most `limit` stops at a PC, by its code. -/
inductive StopsAt (limit steps pc : U64) : CInt → Prop
  | halted (hpc : pc = oryxHaltPc) : StopsAt limit steps pc oryxOk
  | limit (hpc : pc ≠ oryxHaltPc) (hsteps : steps = limit) : StopsAt limit steps pc oryxErrSteps
  | refused (hpc : pc ≠ oryxHaltPc) (hsteps : steps < limit) {e : DecodeErr} {w : List OryxGinsn}
      (hdec : oryxX86DecodeBlock img pc oryxMaxBlockOps = .error e w) :
      StopsAt limit steps pc e.code

/-- **What a whole program means**: under every policy and strength, and whatever the host's
flags are on entry to its blocks, a run of the dispatcher over an image leaves the registers and
the memory of the x86 machine after as many blocks as it counts.  The machine is then at the
halt, or the limit is reached, or the decoder refuses the block at its `rip`, and the return code
says which. -/
theorem oryxRunProgram_x86 (himg : img.Small) (htramp : IsTrampoline tramp) {m : Machine}
    {h : Host} (hfollows : Follows h m) (hclean : RunsClean img m) (maxSteps : U64)
    {r : RunResult Host}
    (hr : oryxRunProgram (oryxX86Fetch img) policy strength tramp m.rip h maxSteps = r) :
    ∃ m', BlockSteps img.text r.steps.toNat m m' ∧
      (∀ m'', BlockSteps img.text r.steps.toNat m m'' → m'' = m') ∧
      Relation.ReflTransGen (Step img.text) m m' ∧ Follows r.guest m' ∧
      StopsAt img (effectiveMaxSteps maxSteps) r.steps m'.rip r.rc := by
  have heq : r = freshRunProgram (oryxX86Fetch img) policy strength tramp m.rip h maxSteps :=
    hr.symm.trans (dispatchLoop_eq cacheOk_flushed)
  obtain ⟨n, pc', hchain, -, hsteps, hend⟩ :=
    @freshLoop_chain Host (oryxX86Fetch img) policy strength tramp (effectiveMaxSteps maxSteps)
      m.rip 0 h (by rw [BitVec.le_def]; exact Nat.zero_le _)
  rw [← freshRunProgram, ← heq] at hchain hsteps hend
  obtain ⟨m', hblocks, rfl, hfollows'⟩ := hchain.follows himg htramp rfl hfollows hclean
  have hzero : (0 : U64).toNat = 0 := rfl
  rw [hzero, Nat.zero_add] at hsteps
  rw [hzero, Nat.sub_zero] at hend
  have hbounded : img.text.Bounded := himg.end_lt
  rw [hsteps]
  refine ⟨m', hblocks, fun m'' h'' => BlockSteps.unique h'' hblocks, hblocks.steps hbounded,
    hfollows', ?_⟩
  rcases hend with ⟨hpc, hrc⟩ | ⟨hpc, hk, hrc⟩ | ⟨hpc, hk, hbuild⟩
  · rw [hrc]
    exact .halted hpc
  · rw [hrc]
    exact .limit hpc (BitVec.eq_of_toNat_eq (hsteps.trans hk))
  · obtain ⟨e, w, hdec, hrc⟩ := decodeError_of_build himg hbuild
    rw [hrc]
    refine .refused hpc ?_ hdec
    rw [BitVec.lt_def, hsteps]
    exact hk

end Program

/-! ### `mov rax, 7; ret` -/

open Classical in
/-- There is a function for the trampoline. -/
theorem exists_isTrampoline : ∃ tramp, IsTrampoline tramp := by
  have hex : ∀ (e : OryxExec) (h : Host), ∃ r : U64 × Host,
      TrampReturns e h → TrampRuns e h r.1 r.2 := by
    intro e h
    by_cases hret : TrampReturns e h
    · obtain ⟨s', hs'⟩ := hret h.cpu 0 rfl
      exact ⟨(s'.x 17, _), fun _ => .call h.cpu 0 s' rfl hs'⟩
    · exact ⟨(0, h), fun hret' => absurd hret' hret⟩
  choose f hf using hex
  exact ⟨f, hf⟩

def sevenImage : OryxX86Image where
  bytes := [0x48, 0xC7, 0xC0, 0x07, 0x00, 0x00, 0x00, 0xC3]
  base := 0x400000
  lt := by decide

/-- At the start of the image, with the halt PC on the stack. -/
def sevenMachine : Machine where
  rip := 0x400000
  regs _ := 0
  flags := ⟨false, false, false⟩
  mem _ := 0xFF

theorem encodes_movSeven :
    Encodes (.movImm 0 7) [0x48, 0xC7, 0xC0, 0x07, 0x00, 0x00, 0x00] :=
  Encodes.row (some ⟨true, false, false, false⟩) (Row.movMI rfl 0 7)

theorem encodes_ret : Encodes .ret [0xC3] := Encodes.row none Row.ret

def sevenRun : List Encoded := [⟨_, _, encodes_movSeven⟩, ⟨_, _, encodes_ret⟩]

theorem isBlock_sevenRun : IsBlock sevenRun :=
  (isBlock_singleton rfl).cons rfl

/-- It has returned to the halt PC. -/
theorem rip_sevenRun : (execRun sevenRun sevenMachine).rip = oryxHaltPc := by
  show load64 (fun _ => 0xFF) 0 = oryxHaltPc
  decide

/-- No block stands at the halt PC. -/
theorem no_bytes_at_halt {run : List Encoded} (hblock : IsBlock run) {k : Nat}
    (hk : sevenImage.bytes.length ≤ k) : ¬ codeBytes run <+: sevenImage.bytes.drop k := by
  intro hpre
  rw [List.drop_eq_nil_of_le hk] at hpre
  obtain ⟨body, last, rfl, -⟩ := hblock
  have hpos := last.encodes.length_pos
  have hlen := hpre.length_le
  rw [codeBytes, List.flatMap_append, List.length_append, List.flatMap_singleton,
    List.length_nil] at hlen
  omega

theorem blockSteps_seven {k : Nat} {m : Machine}
    (h : BlockSteps sevenImage.text k sevenMachine m) :
    m = sevenMachine ∨ m = execRun sevenRun sevenMachine := by
  have hfirst : BlockStep sevenImage.text sevenMachine (execRun sevenRun sevenMachine) :=
    .block _ sevenRun isBlock_sevenRun ⟨Nat.le_refl _, List.prefix_rfl⟩
  cases h with
  | refl => exact Or.inl rfl
  | head hstep hrest =>
    cases BlockStep.unique hfirst hstep
    cases hrest with
    | refl => exact Or.inr rfl
    | head hstep _ =>
      obtain ⟨run, hblock, hbase, hpre⟩ := hstep
      rw [rip_sevenRun] at hpre
      exact absurd hpre (no_bytes_at_halt hblock (by decide))

theorem runsClean_seven : RunsClean sevenImage sevenMachine := by
  intro k m run hsteps hat
  rcases blockSteps_seven hsteps with rfl | rfl
  · cases block_unique isBlock_sevenRun hat.isBlock List.prefix_rfl hat.bytes
    refine ⟨rfl, ?_⟩
    rw [sevenRun, List.forall_mem_cons, List.forall_mem_singleton]
    exact ⟨⟨by decide, by decide⟩, by decide, by decide⟩
  · have hbytes := hat.bytes
    rw [rip_sevenRun] at hbytes
    exact absurd hbytes (no_bytes_at_halt hat.isBlock (by decide))

/-- The host on entry to the program. -/
def sevenHost : Host := ⟨⟨sevenMachine.regs⟩, entryState (guestMachine sevenMachine)
  ⟨false, false, false, false⟩⟩

theorem oryxRunProgram_x86_seven :
    ∃ tramp r m', oryxRunProgram (oryxX86Fetch sevenImage) .drf .sc tramp 0x400000 sevenHost 0 = r ∧
      BlockSteps sevenImage.text r.steps.toNat sevenMachine m' ∧ Follows r.guest m' ∧
      StopsAt sevenImage (effectiveMaxSteps 0) r.steps m'.rip r.rc := by
  obtain ⟨tramp, htramp⟩ := exists_isTrampoline
  obtain ⟨m', hsteps, -, -, hfollows, hstops⟩ :=
    @oryxRunProgram_x86 sevenImage .drf .sc tramp ⟨by decide, by decide⟩ htramp sevenMachine
      sevenHost ⟨rfl, rfl⟩ runsClean_seven 0 _ rfl
  exact ⟨tramp, _, m', rfl, hsteps, hfollows, hstops⟩

end Oryx
