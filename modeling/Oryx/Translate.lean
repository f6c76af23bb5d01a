/-
Oryx/Translate.lean

The translator `oryx_translate_ex`: the lowering loop, the block hash and the
unit it builds.

`TransState` is what the loop carries: the emitted words (the code buffer,
whose bytes are each word's four little-endian bytes), the relocations, the
exits, the terminator flag and the counters.  `lowerOp` is the switch, one
case per opcode, and `lowerInsn` one pass of the loop; allocations succeed.

What an instruction appends does not depend on what was emitted before it.
`lowered` is what it appends to an empty state, and `lowerInsn_eq` says that
a pass of the loop appends exactly that; `lowerBlock_words` follows for the
whole block, so that every later result about emitted code is about
`lowered`, op by op.
-/
import Oryx.Encoders
import Mathlib.Data.List.Induction
import Mathlib.Data.List.Forall2

namespace Oryx

open A64

/-! ### The state of the loop -/

/-- `oryx_mm_stats`. -/
@[ext] structure OryxMmStats where
  plainLoads : U32
  plainStores : U32
  orderedLoads : U32
  orderedStores : U32
  atomics : U32
  fences : U32
  deriving DecidableEq

namespace OryxMmStats

instance : Add OryxMmStats where
  add a b :=
    ⟨a.plainLoads + b.plainLoads, a.plainStores + b.plainStores, a.orderedLoads + b.orderedLoads,
      a.orderedStores + b.orderedStores, a.atomics + b.atomics, a.fences + b.fences⟩

def zero : OryxMmStats := ⟨0, 0, 0, 0, 0, 0⟩

/-- One lowered operation of each kind. -/
def plainLoad : OryxMmStats := { zero with plainLoads := 1 }
def plainStore : OryxMmStats := { zero with plainStores := 1 }
def orderedLoad : OryxMmStats := { zero with orderedLoads := 1 }
def orderedStore : OryxMmStats := { zero with orderedStores := 1 }
def atomic : OryxMmStats := { zero with atomics := 1 }
def fence : OryxMmStats := { zero with fences := 1 }

theorem add_zero (a : OryxMmStats) : a + zero = a := by
  ext1 <;> exact BitVec.add_zero _

theorem add_assoc (a b c : OryxMmStats) : a + b + c = a + (b + c) := by
  ext1 <;> exact BitVec.add_assoc _ _ _

end OryxMmStats

/-- The parameters of a translation that the loop reads. -/
structure TransCfg where
  policy : MmPolicy
  strength : OrderStrength
  guestPc : U64
  guestLen : U32
  deriving DecidableEq

/-- What `oryx_translate_ex` has built up in its loop. -/
@[ext] structure TransState where
  code : List Word
  relocs : List OryxReloc
  exits : List U64
  terminated : Bool
  st : OryxMmStats
  deriving DecidableEq

def TransState.init : TransState where
  code := []
  relocs := []
  exits := []
  terminated := false
  st := .zero

namespace TransState

/-- `EMIT`. -/
def emit (s : TransState) (w : Word) : TransState := { s with code := s.code ++ [w] }

/-- `(uint32_t)code.len`. -/
def codeLen (s : TransState) : U32 := BitVec.ofNat 32 (4 * s.code.length)

/-- `ADD_RELOC(code.len, ORYX_RELOC_BRANCH_GUEST_PC, tgt)`. -/
def addReloc (s : TransState) (tgt : U64) : TransState :=
  { s with relocs := s.relocs ++ [⟨s.codeLen, relocBranchGuestPc, tgt⟩] }

/-- `ADD_EXIT`. -/
def addExit (s : TransState) (pc : U64) : TransState := { s with exits := s.exits ++ [pc] }

/-- `terminated = 1`. -/
def terminate (s : TransState) : TransState := { s with terminated := true }

/-- `st.counter++`. -/
def count (s : TransState) (k : OryxMmStats) : TransState := { s with st := s.st + k }

/-- Several `EMIT`s. -/
def emitAll (s : TransState) (ws : List Word) : TransState := { s with code := s.code ++ ws }

variable (s : TransState)

@[simp] theorem emit_code (w : Word) : (s.emit w).code = s.code ++ [w] := rfl
@[simp] theorem emitAll_code (ws : List Word) : (s.emitAll ws).code = s.code ++ ws := rfl
@[simp] theorem addReloc_code (tgt : U64) : (s.addReloc tgt).code = s.code := rfl
@[simp] theorem addExit_code (pc : U64) : (s.addExit pc).code = s.code := rfl
@[simp] theorem terminate_code : s.terminate.code = s.code := rfl
@[simp] theorem count_code (k : OryxMmStats) : (s.count k).code = s.code := rfl
@[simp] theorem init_code : init.code = [] := rfl

end TransState

/-- The words of `emit_movimm`: a `MOVZ`, and a `MOVK` for each further lane
that is not zero. -/
def movimmWords (reg : CInt) (v : U64) : List Word :=
  encMovz reg ((v &&& 0xffff).setWidth 32) 0 ::
    [1, 2, 3].filterMap fun hw =>
      let lane : U32 := ((v >>> (16 * hw) &&& 0xffff).setWidth 32)
      if lane ≠ 0 then some (encMovk reg lane (BitVec.ofNat 32 hw)) else none

/-- `emit_movimm`. -/
def emitMovimm (s : TransState) (reg : CInt) (v : U64) : TransState :=
  s.emitAll (movimmWords reg v)

@[simp] theorem emitMovimm_code (s : TransState) (reg : CInt) (v : U64) :
    (emitMovimm s reg v).code = s.code ++ movimmWords reg v := rfl

/-! ### Lowering -/

/-- The scaled offset of a weak access: `imm` must be 8-aligned and in range. -/
def scaledImm12 (imm : U64) : Option U32 :=
  if imm.toInt < 0 ∨ imm &&& 7 ≠ 0 ∨ (imm.sshiftRight 3).toInt > 0xFFF then none
  else some ((imm.sshiftRight 3).setWidth 32)

/-- A LOAD or STORE is lowered in ordered form. -/
def orderedAccess (cfg : TransCfg) (i : OryxGinsn) : Bool :=
  cfg.policy = .conservative || i.mclass = mclassShared

theorem orderedAccess_conservative {cfg : TransCfg} (h : cfg.policy = .conservative)
    (i : OryxGinsn) : orderedAccess cfg i = true := by
  simp [orderedAccess, h]

theorem orderedAccess_drf_iff {cfg : TransCfg} (h : cfg.policy = .drf) {i : OryxGinsn} :
    orderedAccess cfg i = true ↔ i.mclass = mclassShared := by
  simp [orderedAccess, h]

/-- `GOP_LOAD` (`load`) and `GOP_STORE`. -/
def lowerLoadStore (cfg : TransCfg) (s : TransState) (i : OryxGinsn) (load : Bool) :
    Except OryxErr TransState :=
  if orderedAccess cfg i = false then
    -- weak LDR/STR with a built-in scaled offset
    match scaledImm12 i.imm with
    | none => .error .inval
    | some imm12 =>
        if load then .ok ((s.emit (encLdr i.rd i.rn imm12)).count .plainLoad)
        else .ok ((s.emit (encStr i.rd i.rn imm12)).count .plainStore)
  else if cfg.strength = .tso then
    -- the same access bracketed by a one-sided fence
    match scaledImm12 i.imm with
    | none => .error .inval
    | some imm12 =>
        if load then
          .ok (((s.emit (encLdr i.rd i.rn imm12)).emit (encDmb fenceLd)).count .orderedLoad)
        else
          .ok (((s.emit (encDmb fenceSt)).emit (encStr i.rd i.rn imm12)).count .orderedStore)
  else if i.imm.toInt < 0 ∨ i.imm.toInt > 0xFFF then .error .inval
  else
    -- acquire/release: the address must be in a register
    let s1 := if i.imm ≠ 0 then s.emit (encAddImm oryxScratch i.rn (i.imm.setWidth 32)) else s
    let base := if i.imm ≠ 0 then oryxScratch else i.rn
    if load then
      .ok ((s1.emit (if cfg.strength = .rcpc then encLdapr i.rd base
        else encLdar i.rd base)).count .orderedLoad)
    else .ok ((s1.emit (encStlr i.rd base)).count .orderedStore)

/-- An operation with a signed constant `d`: one of two immediate forms when it
fits 12 bits, else the constant in the scratch register and a register form. -/
def lowerConst (s : TransState) (d : U64) (posImm negImm : U32 → Word) (regForm : Word) :
    TransState :=
  if 0 ≤ d.toInt ∧ d.toInt ≤ 0xFFF then s.emit (posImm (d.setWidth 32))
  else if d.toInt < 0 ∧ d.toInt ≥ -0xFFF then s.emit (negImm ((-d).setWidth 32))
  else (emitMovimm s oryxScratch d).emit regForm

/-- The switch of the loop. -/
def lowerOp (cfg : TransCfg) (s : TransState) (i : OryxGinsn) :
    GuestOp → Except OryxErr TransState
  | .movRr => .ok (s.emit (encMovRr i.rd i.rn))
  | .movRi => .ok (emitMovimm s i.rd i.imm)
  | .addRr => .ok (s.emit (encAddsRr i.rd i.rd i.rn))
  | .subRr => .ok (s.emit (encSubsRr i.rd i.rd i.rn))
  | .cmpRr => .ok (s.emit (encSubsCmp i.rd i.rn))
  | .load => lowerLoadStore cfg s i true
  | .store => lowerLoadStore cfg s i false
  -- the old value is discarded into XZR
  | .atomicAdd => .ok ((s.emit (encLdaddal i.rd 31 i.rn)).count .atomic)
  | .atomicCas => .ok ((s.emit (encCasal grRax i.rd i.rn)).count .atomic)
  | .fence => .ok ((s.emit (encDmb i.cc)).count .fence)
  | .setcc => .ok (s.emit (encCset i.rd (armCond i.cc)))
  | .lea =>
      .ok (lowerConst s i.imm (encAddImm i.rd i.rn) (encSubImm i.rd i.rn)
        (encAddRr i.rd i.rn oryxScratch))
  | .addRi =>
      .ok (lowerConst s i.imm (encAddsImmRd i.rd i.rd) (encSubsImmRd i.rd i.rd)
        (encAddsRr i.rd i.rd oryxScratch))
  | .subRi =>
      .ok (lowerConst s (-i.imm) (encAddsImmRd i.rd i.rd) (encSubsImmRd i.rd i.rd)
        (encAddsRr i.rd i.rd oryxScratch))
  -- a negative constant is compared by CMN
  | .cmpRi =>
      .ok (lowerConst s i.imm (encSubsImm i.rd) (encAddsImm i.rd)
        (encSubsCmp i.rd oryxScratch))
  | .push => .ok ((s.emit (encSubImm grRsp grRsp 8)).emit (encStr i.rd grRsp 0))
  | .pop => .ok ((s.emit (encLdr i.rd grRsp 0)).emit (encAddImm grRsp grRsp 8))
  -- the return address is pushed, then the branch stands as for JMP
  | .call =>
      let s := ((emitMovimm s oryxScratch i.imm).emit (encSubImm grRsp grRsp 8)).emit
        (encStr oryxScratch grRsp 0)
      .ok (((s.addReloc i.target).emit encB).addExit i.target).terminate
  | .x86ret =>
      .ok (((s.emit (encLdr oryxNextpc grRsp 0)).emit (encAddImm grRsp grRsp 8)).emit
        encRet).terminate
  | .testRr => .ok (s.emit (encTstRr i.rd i.rn))
  | .andRr => .ok (s.emit (encAndsRr i.rd i.rd i.rn))
  -- EOR and ORR set no flags, a TST behind them does
  | .xorRr => .ok ((s.emit (encEorRr i.rd i.rd i.rn)).emit (encTstRr i.rd i.rd))
  | .orRr => .ok ((s.emit (encOrrRr2 i.rd i.rd i.rn)).emit (encTstRr i.rd i.rd))
  -- the taken exit first, then the fall-through
  | .br =>
      .ok ((((s.addReloc i.target).emit (encBcond (armCond i.cc))).addExit i.target).addExit
        (cfg.guestPc + cfg.guestLen.setWidth 64)).terminate
  | .jmp => .ok (((s.addReloc i.target).emit encB).addExit i.target).terminate
  | .ret => .ok (s.emit encRet).terminate

/-- One pass of the loop. -/
def lowerInsn (cfg : TransCfg) (s : TransState) (i : OryxGinsn) : Except OryxErr TransState :=
  if s.terminated = true then .error .inval
  else if ¬ i.regsOk then .error .inval
  else
    match i.opcode with
    | none => .error .inval
    | some op => lowerOp cfg s i op

/-- The loop. -/
def lowerBlock (cfg : TransCfg) (s : TransState) : List OryxGinsn → Except OryxErr TransState
  | [] => .ok s
  | i :: ops =>
      match lowerInsn cfg s i with
      | .error e => .error e
      | .ok s' => lowerBlock cfg s' ops

/-! ### What a pass appends

`append s d` is the state after emitting `d`, started afresh, behind `s`. -/

namespace TransState

def append (s d : TransState) : TransState where
  code := s.code ++ d.code
  relocs := s.relocs ++ d.relocs.map fun r => { r with offset := s.codeLen + r.offset }
  exits := s.exits ++ d.exits
  terminated := s.terminated || d.terminated
  st := s.st + d.st

variable (s d : TransState)

theorem append_init : s.append .init = s := by
  ext1
  · exact List.append_nil _
  · exact List.append_nil _
  · exact List.append_nil _
  · exact Bool.or_false _
  · exact OryxMmStats.add_zero _

@[simp] theorem append_emit (w : Word) : (s.append d).emit w = s.append (d.emit w) := by
  simp only [emit, append, List.append_assoc]

@[simp] theorem append_emitAll (ws : List Word) :
    (s.append d).emitAll ws = s.append (d.emitAll ws) := by
  simp only [emitAll, append, List.append_assoc]

@[simp] theorem append_emitMovimm (reg : CInt) (v : U64) :
    emitMovimm (s.append d) reg v = s.append (emitMovimm d reg v) :=
  append_emitAll s d _

theorem append_codeLen : (s.append d).codeLen = s.codeLen + d.codeLen := by
  simp only [codeLen, append, List.length_append, Nat.mul_add, BitVec.ofNat_add]

@[simp] theorem append_addReloc (tgt : U64) :
    (s.append d).addReloc tgt = s.append (d.addReloc tgt) := by
  simp only [addReloc, append_codeLen]
  simp only [append, List.map_append, List.append_assoc]
  rfl

@[simp] theorem append_addExit (pc : U64) : (s.append d).addExit pc = s.append (d.addExit pc) := by
  simp only [addExit, append, List.append_assoc]

@[simp] theorem append_terminate : (s.append d).terminate = s.append d.terminate := by
  simp only [terminate, append, Bool.or_true]

@[simp] theorem append_count (k : OryxMmStats) : (s.append d).count k = s.append (d.count k) := by
  simp only [count, append, OryxMmStats.add_assoc]

end TransState

theorem lowerConst_append (s d : TransState) (k : U64) (pos neg : U32 → Word) (reg : Word) :
    lowerConst (s.append d) k pos neg reg = s.append (lowerConst d k pos neg reg) := by
  unfold lowerConst
  split
  · exact s.append_emit d _
  · split
    · exact s.append_emit d _
    · rw [s.append_emitMovimm, s.append_emit]

theorem lowerLoadStore_append (cfg : TransCfg) (s d : TransState) (i : OryxGinsn) (load : Bool) :
    lowerLoadStore cfg (s.append d) i load = (lowerLoadStore cfg d i load).map s.append := by
  unfold lowerLoadStore
  split
  · cases scaledImm12 i.imm with
    | none => rfl
    | some imm12 => cases load <;> simp [Except.map]
  · split
    · cases scaledImm12 i.imm with
      | none => rfl
      | some imm12 => cases load <;> simp [Except.map]
    · split
      · rfl
      · by_cases himm : i.imm = 0 <;> cases load <;>
          simp only [ne_eq, himm, not_true_eq_false, not_false_eq_true, if_true, if_false,
            Bool.false_eq_true, TransState.append_emit, TransState.append_count, Except.map]

/-- The switch appends. -/
theorem lowerOp_append (cfg : TransCfg) (s d : TransState) (i : OryxGinsn) (op : GuestOp) :
    lowerOp cfg (s.append d) i op = (lowerOp cfg d i op).map s.append := by
  cases op with
  | load => exact lowerLoadStore_append cfg s d i true
  | store => exact lowerLoadStore_append cfg s d i false
  | _ => simp [lowerOp, lowerConst_append, Except.map]

/-- What an instruction appends. -/
def lowered (cfg : TransCfg) (i : OryxGinsn) : Except OryxErr TransState := lowerInsn cfg .init i

theorem lowered_ok {cfg : TransCfg} {i : OryxGinsn} {d : TransState} (h : lowered cfg i = .ok d) :
    i.regsOk ∧ ∃ op, i.opcode = some op ∧ lowerOp cfg .init i op = .ok d := by
  have hinit : ¬ TransState.init.terminated = true := Bool.false_ne_true
  rw [lowered, lowerInsn, if_neg hinit] at h
  by_cases hregs : i.regsOk
  · rw [if_neg (not_not_intro hregs)] at h
    cases hop : i.opcode with
    | none =>
      rw [hop] at h
      cases h
    | some op =>
      rw [hop] at h
      exact ⟨hregs, op, rfl, h⟩
  · rw [if_pos hregs] at h
    cases h

/-- A pass of the loop appends what the instruction lowers to. -/
theorem lowerInsn_eq (cfg : TransCfg) {s : TransState} (hs : s.terminated = false)
    (i : OryxGinsn) : lowerInsn cfg s i = (lowered cfg i).map s.append := by
  unfold lowered lowerInsn
  have hinit : ¬ TransState.init.terminated = true := Bool.false_ne_true
  rw [if_neg (Bool.eq_false_iff.mp hs), if_neg hinit]
  by_cases hregs : i.regsOk
  · rw [if_neg (not_not_intro hregs), if_neg (not_not_intro hregs)]
    cases i.opcode with
    | none => rfl
    | some op =>
      have h := lowerOp_append cfg s .init i op
      rwa [s.append_init] at h
  · rw [if_pos hregs, if_pos hregs]
    rfl

/-! ### Terminators -/

/-- The opcodes that set `terminated`. -/
def GuestOp.isTerminator : GuestOp → Bool
  | .br => true
  | .jmp => true
  | .ret => true
  | .call => true
  | .x86ret => true
  | _ => false

/-- `d` has the relocations, exits and terminator flag of `s`. -/
structure KeepsControl (s d : TransState) : Prop where
  relocs : d.relocs = s.relocs
  exits : d.exits = s.exits
  terminated : d.terminated = s.terminated

theorem lowerConst_keepsControl (s : TransState) (k : U64) (pos neg : U32 → Word) (reg : Word) :
    KeepsControl s (lowerConst s k pos neg reg) := by
  unfold lowerConst
  split
  · exact ⟨rfl, rfl, rfl⟩
  · split <;> exact ⟨rfl, rfl, rfl⟩

theorem lowerLoadStore_keepsControl {cfg : TransCfg} {s d : TransState} {i : OryxGinsn}
    {load : Bool} (h : lowerLoadStore cfg s i load = .ok d) : KeepsControl s d := by
  unfold lowerLoadStore at h
  split at h
  · cases himm : scaledImm12 i.imm with
    | none => rw [himm] at h; cases h
    | some imm12 =>
      rw [himm] at h
      cases load <;> cases h <;> exact ⟨rfl, rfl, rfl⟩
  · split at h
    · cases himm : scaledImm12 i.imm with
      | none => rw [himm] at h; cases h
      | some imm12 =>
        rw [himm] at h
        cases load <;> cases h <;> exact ⟨rfl, rfl, rfl⟩
    · split at h
      · cases h
      · by_cases himm : i.imm = 0
        · simp only [ne_eq, himm, not_true_eq_false, if_false] at h
          cases load <;> cases h <;> exact ⟨rfl, rfl, rfl⟩
        · simp only [ne_eq, himm, not_false_eq_true, if_true] at h
          cases load <;> cases h <;> exact ⟨rfl, rfl, rfl⟩

/-- An opcode that is no terminator touches nothing but the code. -/
theorem lowerOp_keepsControl {cfg : TransCfg} {s d : TransState} {i : OryxGinsn} {op : GuestOp}
    (h : lowerOp cfg s i op = .ok d) (hop : op.isTerminator = false) : KeepsControl s d := by
  cases op with
  | load => exact lowerLoadStore_keepsControl h
  | store => exact lowerLoadStore_keepsControl h
  | lea => cases h; exact lowerConst_keepsControl _ _ _ _ _
  | addRi => cases h; exact lowerConst_keepsControl _ _ _ _ _
  | subRi => cases h; exact lowerConst_keepsControl _ _ _ _ _
  | cmpRi => cases h; exact lowerConst_keepsControl _ _ _ _ _
  | br => cases hop
  | jmp => cases hop
  | ret => cases hop
  | call => cases hop
  | x86ret => cases hop
  | _ => cases h; exact ⟨rfl, rfl, rfl⟩

/-- A terminator terminates. -/
theorem lowerOp_terminates {cfg : TransCfg} {s d : TransState} {i : OryxGinsn} {op : GuestOp}
    (h : lowerOp cfg s i op = .ok d) (hop : op.isTerminator = true) : d.terminated = true := by
  cases op <;> first | (cases h; rfl) | cases hop

/-! ### What the loop appends -/

/-- The words of an instruction that lowers. -/
def opWords (cfg : TransCfg) (i : OryxGinsn) : List Word :=
  match lowered cfg i with
  | .error _ => []
  | .ok d => d.code

/-- Everything emitted for `ds`, one behind the other. -/
def TransState.concat (ds : List TransState) : TransState := ds.foldl TransState.append .init

/-- Each instruction of `ops` lowers to its entry of `ds`. -/
def LowersTo (cfg : TransCfg) : List OryxGinsn → List TransState → Prop :=
  List.Forall₂ fun i d => lowered cfg i = .ok d

theorem lowerInsn_terminated (cfg : TransCfg) {s : TransState} (hs : s.terminated = true)
    (i : OryxGinsn) : lowerInsn cfg s i = .error .inval := by
  rw [lowerInsn, if_pos hs]

/-- A loop that ends terminated went through a body that does not terminate
the block and one last instruction that does, and appended what they lower to. -/
theorem lowerBlock_ok {cfg : TransCfg} {ops : List OryxGinsn} {s s' : TransState}
    (h : lowerBlock cfg s ops = .ok s') (hs : s.terminated = false)
    (hs' : s'.terminated = true) :
    ∃ body last ds dl, ops = body ++ [last] ∧ LowersTo cfg body ds ∧
      lowered cfg last = .ok dl ∧ (∀ d ∈ ds, d.terminated = false) ∧ dl.terminated = true ∧
      s' = (ds.foldl TransState.append s).append dl := by
  induction ops generalizing s with
  | nil =>
    cases h
    rw [hs] at hs'
    cases hs'
  | cons i ops ih =>
    rw [lowerBlock, lowerInsn_eq cfg hs] at h
    cases hi : lowered cfg i with
    | error e =>
      rw [hi] at h
      cases h
    | ok d =>
      rw [hi] at h
      dsimp only [Except.map] at h
      have happ : (s.append d).terminated = d.terminated := by
        simp only [TransState.append, hs, Bool.false_or]
      cases hd : d.terminated with
      | true =>
        -- nothing may follow a terminator
        cases ops with
        | nil =>
          cases h
          exact ⟨[], i, [], d, rfl, .nil, hi, by simp, hd, rfl⟩
        | cons j ops =>
          rw [lowerBlock, lowerInsn_terminated cfg (happ.trans hd)] at h
          cases h
      | false =>
        obtain ⟨body, last, ds, dl, rfl, hds, hl, hopen, hterm, hfin⟩ := ih h (happ.trans hd)
        refine ⟨i :: body, last, d :: ds, dl, rfl, .cons hi hds, hl, ?_, hterm, hfin⟩
        intro e he
        rcases List.mem_cons.mp he with rfl | he
        · exact hd
        · exact hopen e he

theorem concat_append_singleton (ds : List TransState) (d : TransState) :
    TransState.concat (ds ++ [d]) = (TransState.concat ds).append d := by
  simp only [TransState.concat, List.foldl_append, List.foldl_cons, List.foldl_nil]

theorem LowersTo.lowers {cfg : TransCfg} {ops : List OryxGinsn} {ds : List TransState}
    (h : LowersTo cfg ops ds) : ∀ i ∈ ops, ∃ d, lowered cfg i = .ok d := by
  induction h with
  | nil => simp
  | @cons j d _ _ hj _ ih =>
    intro i hi
    rcases List.mem_cons.mp hi with rfl | hi
    · exact ⟨d, hj⟩
    · exact ih i hi

/-- The code of a block is the code of its instructions. -/
theorem concat_code (cfg : TransCfg) {ops : List OryxGinsn} {ds : List TransState}
    (h : LowersTo cfg ops ds) : (TransState.concat ds).code = ops.flatMap (opWords cfg) := by
  have key : ∀ s : TransState,
      (ds.foldl TransState.append s).code = s.code ++ ops.flatMap (opWords cfg) := by
    induction h with
    | nil => intro s; simp
    | cons hi _ ih =>
      intro s
      rw [List.foldl_cons, ih, List.flatMap_cons, opWords, hi]
      exact List.append_assoc _ _ _
  exact key .init

/-! ### The block hash -/

/-- The record `hash_block` feeds for an op: `P32` of each field. -/
def hashRecord (i : OryxGinsn) : List Byte :=
  putU32 i.op ++ (putU32 i.rd ++ (putU32 i.rn ++ (putU32 (i.imm.setWidth 32) ++
    (putU32 ((i.imm >>> 32).setWidth 32) ++ (putU32 (i.target.setWidth 32) ++
      (putU32 i.cc ++ putU32 i.mclass))))))

/-- The 16-byte header `hash_block` feeds first. -/
def hashHeader (guestPc : U64) (policy : MmPolicy) (strength : OrderStrength) : List Byte :=
  putU64 guestPc ++ (policy.code :: strength.code :: List.replicate 6 0)

/-- The chunks of `hash_block`, one `sha256_update` each. -/
def hashChunks (ops : List OryxGinsn) (guestPc : U64) (policy : MmPolicy)
    (strength : OrderStrength) : List (List Byte) :=
  hashHeader guestPc policy strength :: ops.map hashRecord

/-- `hash_block`. -/
def hashBlock (ops : List OryxGinsn) (guestPc : U64) (policy : MmPolicy)
    (strength : OrderStrength) : Digest :=
  sha256Final ((hashChunks ops guestPc policy strength).foldl sha256Update sha256Init)

/-! ### Translating -/

def oryxTuIsaSm8850 : U32 := 0x53384850
def oryxTuTranslatorRef : U32 := 0x4f525958
def oryxTuTranslatorVer : U32 := 1

/-- An array behind a count field assigned `(uint32_t)len`. -/
def Counted.clip {α : Type} (xs : List α) : Counted α :=
  ⟨xs.take (xs.length % 2 ^ 32), by
    have := Nat.mod_lt xs.length (Nat.two_pow_pos 32)
    simp only [List.length_take]
    omega⟩

theorem Counted.clip_val {α : Type} {xs : List α} (h : xs.length < 2 ^ 32) :
    (Counted.clip xs).val = xs := by
  simp only [Counted.clip, Nat.mod_eq_of_lt h, List.take_length]

/-- The unit built from the final state of the loop. -/
def buildTu (cfg : TransCfg) (profileId : U32) (ops : List OryxGinsn) (s : TransState) :
    OryxTu where
  isaId := oryxTuIsaSm8850
  translatorId := oryxTuTranslatorRef
  translatorVersion := oryxTuTranslatorVer
  profileId := profileId
  flags := 0
  guestEntryPc := cfg.guestPc
  guestLen := cfg.guestLen
  guestHash := hashBlock ops cfg.guestPc cfg.policy cfg.strength
  code := .clip (s.code.flatMap putU32)
  relocs := .clip s.relocs
  exits := .clip s.exits

/-- `oryx_translate_ex`, giving the unit and the counters. -/
def oryxTranslateEx (ops : List OryxGinsn) (cfg : TransCfg) (profileId : U32) :
    Except OryxErr (OryxTu × OryxMmStats) :=
  if ops.length = 0 ∨ ops.length > 2 ^ 20 then .error .inval
  else
    match lowerBlock cfg .init ops with
    | .error e => .error e
    | .ok s =>
        if s.terminated = false then .error .inval
        else .ok (buildTu cfg profileId ops s, s.st)

/-- What a successful translation says: the block is a body whose instructions
do not terminate it and a last one that does, each lowers, and the unit is
built from what they lower to. -/
structure Translated (cfg : TransCfg) (profileId : U32) (ops : List OryxGinsn) (tu : OryxTu)
    (st : OryxMmStats) (body : List OryxGinsn) (last : OryxGinsn) (ds : List TransState)
    (dl : TransState) : Prop where
  ops_eq : ops = body ++ [last]
  length_le : ops.length ≤ 2 ^ 20
  body_lowers : LowersTo cfg body ds
  last_lowers : lowered cfg last = .ok dl
  body_open : ∀ d ∈ ds, d.terminated = false
  last_terminates : dl.terminated = true
  tu_eq : tu = buildTu cfg profileId ops ((TransState.concat ds).append dl)
  st_eq : st = ((TransState.concat ds).append dl).st

theorem oryxTranslateEx_ok {ops : List OryxGinsn} {cfg : TransCfg} {profileId : U32}
    {tu : OryxTu} {st : OryxMmStats} (h : oryxTranslateEx ops cfg profileId = .ok (tu, st)) :
    ∃ body last ds dl, Translated cfg profileId ops tu st body last ds dl := by
  unfold oryxTranslateEx at h
  split at h
  · cases h
  · rename_i hlen
    split at h
    · cases h
    · rename_i s hs
      split at h
      · cases h
      · rename_i hterm
        cases h
        obtain ⟨body, last, ds, dl, hops, hds, hl, hopen, hterm, hfin⟩ :=
          lowerBlock_ok hs rfl (Bool.not_eq_false _ ▸ hterm)
        exact ⟨body, last, ds, dl, hops, by omega, hds, hl, hopen, hterm, by rw [hfin]; rfl,
          by rw [hfin]; rfl⟩

theorem Translated.lowersTo {cfg : TransCfg} {profileId : U32} {ops : List OryxGinsn}
    {tu : OryxTu} {st : OryxMmStats} {body : List OryxGinsn} {last : OryxGinsn}
    {ds : List TransState} {dl : TransState}
    (h : Translated cfg profileId ops tu st body last ds dl) : LowersTo cfg ops (ds ++ [dl]) := by
  rw [h.ops_eq]
  exact List.rel_append h.body_lowers (.cons h.last_lowers .nil)

/-- `oryx_translate`. -/
def oryxTranslate (ops : List OryxGinsn) (guestPc : U64) (guestLen profileId : U32) :
    Except OryxErr OryxTu :=
  match oryxTranslateEx ops ⟨.drf, .sc, guestPc, guestLen⟩ profileId with
  | .error e => .error e
  | .ok r => .ok r.1

end Oryx
