/-
Oryx/Lowering.lean

The translator's output as A64 instructions.

`opInsns` lists, opcode by opcode, the instructions an op is lowered to, and
`decode_lowerOp` says that these are what the emitted words decode to.  A
block's words then decode to the instructions of its ops, one op behind the
other (`decode_code`), which is what the results on meaning and on memory
order start from.
-/
import Oryx.Translate

namespace Oryx

open A64

/-! ### Instructions of an op -/

/-- 16-bit lane `hw` of a constant. -/
def lane (v : U64) (hw : Nat) : BitVec 16 := (v >>> (16 * hw)).setWidth 16

/-- `MOVZ`, and a `MOVK` for each further lane that is not zero. -/
def movimmInsns (reg : Reg) (v : U64) : List Insn :=
  .moveWide false reg (lane v 0) 0 ::
    [1, 2, 3].filterMap fun hw : Fin 4 =>
      if lane v hw.val ≠ 0 then some (.moveWide true reg (lane v hw.val) hw) else none

/-- The three shapes of an operation with a signed constant. -/
def constInsns (d : U64) (posImm negImm : BitVec 12 → Insn) (regForm : Insn) : List Insn :=
  if 0 ≤ d.toInt ∧ d.toInt ≤ 0xFFF then [posImm (d.setWidth 12)]
  else if d.toInt < 0 ∧ d.toInt ≥ -0xFFF then [negImm ((-d).setWidth 12)]
  else movimmInsns 16 d ++ [regForm]

/-- The scaled offset field of an access. -/
def offset12 (imm : U64) : BitVec 12 := (imm.sshiftRight 3).setWidth 12

/-- The address of an access without offset field: the base register, or the
sum in the scratch register. -/
def addrInsns (i : OryxGinsn) : List Insn :=
  if i.imm ≠ 0 then [.addSubImm false false 16 (xreg i.rn) (i.imm.setWidth 12)] else []

def addrReg (i : OryxGinsn) : Reg := if i.imm ≠ 0 then 16 else xreg i.rn

def loadInsns (cfg : TransCfg) (i : OryxGinsn) : List Insn :=
  if orderedAccess cfg i = false then [.ldr (xreg i.rd) (xreg i.rn) (offset12 i.imm)]
  else
    match cfg.strength with
    | .tso => [.ldr (xreg i.rd) (xreg i.rn) (offset12 i.imm), .dmb .ishld]
    | .rcpc => addrInsns i ++ [.ldapr (xreg i.rd) (addrReg i)]
    | .sc => addrInsns i ++ [.ldar (xreg i.rd) (addrReg i)]

def storeInsns (cfg : TransCfg) (i : OryxGinsn) : List Insn :=
  if orderedAccess cfg i = false then [.str (xreg i.rd) (xreg i.rn) (offset12 i.imm)]
  else
    match cfg.strength with
    | .tso => [.dmb .ishst, .str (xreg i.rd) (xreg i.rn) (offset12 i.imm)]
    | .rcpc => addrInsns i ++ [.stlr (xreg i.rd) (addrReg i)]
    | .sc => addrInsns i ++ [.stlr (xreg i.rd) (addrReg i)]

/-- The barrier of a `GOP_FENCE`. -/
def fenceBarrier (cc : CInt) : Barrier :=
  if cc = fenceLd then .ishld else if cc = fenceSt then .ishst else .ish

/-- The instructions of an op. -/
def opInsns (cfg : TransCfg) (i : OryxGinsn) : GuestOp → List Insn
  | .movRr => [.logicReg .orr (xreg i.rd) 31 (xreg i.rn)]
  | .movRi => movimmInsns (xreg i.rd) i.imm
  | .addRr => [.addSubReg false true (xreg i.rd) (xreg i.rd) (xreg i.rn)]
  | .subRr => [.addSubReg true true (xreg i.rd) (xreg i.rd) (xreg i.rn)]
  | .cmpRr => [.addSubReg true true 31 (xreg i.rd) (xreg i.rn)]
  | .load => loadInsns cfg i
  | .store => storeInsns cfg i
  | .atomicAdd => [.ldaddal (xreg i.rd) 31 (xreg i.rn)]
  | .atomicCas => [.casal 0 (xreg i.rd) (xreg i.rn)]
  | .fence => [.dmb (fenceBarrier i.cc)]
  -- CSET is CSINC of XZR on the inverted condition
  | .setcc => [.csinc (xreg i.rd) 31 31 (xcond (armCond i.cc ^^^ 1))]
  | .lea =>
      constInsns i.imm (.addSubImm false false (xreg i.rd) (xreg i.rn))
        (.addSubImm true false (xreg i.rd) (xreg i.rn))
        (.addSubReg false false (xreg i.rd) (xreg i.rn) 16)
  | .addRi =>
      constInsns i.imm (.addSubImm false true (xreg i.rd) (xreg i.rd))
        (.addSubImm true true (xreg i.rd) (xreg i.rd))
        (.addSubReg false true (xreg i.rd) (xreg i.rd) 16)
  | .subRi =>
      constInsns (-i.imm) (.addSubImm false true (xreg i.rd) (xreg i.rd))
        (.addSubImm true true (xreg i.rd) (xreg i.rd))
        (.addSubReg false true (xreg i.rd) (xreg i.rd) 16)
  -- register 31 is XZR here: only the flags stay
  | .cmpRi =>
      constInsns i.imm (.addSubImm true true 31 (xreg i.rd))
        (.addSubImm false true 31 (xreg i.rd)) (.addSubReg true true 31 (xreg i.rd) 16)
  | .push => [.addSubImm true false 4 4 8, .str (xreg i.rd) 4 0]
  | .pop => [.ldr (xreg i.rd) 4 0, .addSubImm false false 4 4 8]
  | .call => movimmInsns 16 i.imm ++ [.addSubImm true false 4 4 8, .str 16 4 0, .b 0]
  | .x86ret => [.ldr 17 4 0, .addSubImm false false 4 4 8, .ret 30]
  | .testRr => [.logicReg .ands 31 (xreg i.rd) (xreg i.rn)]
  | .andRr => [.logicReg .ands (xreg i.rd) (xreg i.rd) (xreg i.rn)]
  | .xorRr =>
      [.logicReg .eor (xreg i.rd) (xreg i.rd) (xreg i.rn),
        .logicReg .ands 31 (xreg i.rd) (xreg i.rd)]
  | .orRr =>
      [.logicReg .orr (xreg i.rd) (xreg i.rd) (xreg i.rn),
        .logicReg .ands 31 (xreg i.rd) (xreg i.rd)]
  -- the displacement is the linker's
  | .br => [.bcond (xcond (armCond i.cc)) 0]
  | .jmp => [.b 0]
  | .ret => [.ret 30]

/-- The instructions of an instruction record; none without an opcode. -/
def insnsOf (cfg : TransCfg) (i : OryxGinsn) : List Insn :=
  match i.opcode with
  | some op => opInsns cfg i op
  | none => []

/-- The instructions of a block. -/
def blockInsns (cfg : TransCfg) (ops : List OryxGinsn) : List Insn := ops.flatMap (insnsOf cfg)

section Access

variable {cfg : TransCfg} {i : OryxGinsn}

theorem loadInsns_weak (h : orderedAccess cfg i = false) :
    loadInsns cfg i = [.ldr (xreg i.rd) (xreg i.rn) (offset12 i.imm)] := by
  rw [loadInsns, if_pos h]

theorem loadInsns_tso (h : orderedAccess cfg i = true) (hs : cfg.strength = .tso) :
    loadInsns cfg i = [.ldr (xreg i.rd) (xreg i.rn) (offset12 i.imm), .dmb .ishld] := by
  rw [loadInsns, if_neg (by rw [h]; exact Bool.noConfusion), hs]

theorem loadInsns_rcpc (h : orderedAccess cfg i = true) (hs : cfg.strength = .rcpc) :
    loadInsns cfg i = addrInsns i ++ [.ldapr (xreg i.rd) (addrReg i)] := by
  rw [loadInsns, if_neg (by rw [h]; exact Bool.noConfusion), hs]

theorem loadInsns_sc (h : orderedAccess cfg i = true) (hs : cfg.strength = .sc) :
    loadInsns cfg i = addrInsns i ++ [.ldar (xreg i.rd) (addrReg i)] := by
  rw [loadInsns, if_neg (by rw [h]; exact Bool.noConfusion), hs]

theorem storeInsns_weak (h : orderedAccess cfg i = false) :
    storeInsns cfg i = [.str (xreg i.rd) (xreg i.rn) (offset12 i.imm)] := by
  rw [storeInsns, if_pos h]

theorem storeInsns_tso (h : orderedAccess cfg i = true) (hs : cfg.strength = .tso) :
    storeInsns cfg i = [.dmb .ishst, .str (xreg i.rd) (xreg i.rn) (offset12 i.imm)] := by
  rw [storeInsns, if_neg (by rw [h]; exact Bool.noConfusion), hs]

theorem storeInsns_release (h : orderedAccess cfg i = true) (hs : cfg.strength ≠ .tso) :
    storeInsns cfg i = addrInsns i ++ [.stlr (xreg i.rd) (addrReg i)] := by
  rw [storeInsns, if_neg (by rw [h]; exact Bool.noConfusion)]
  cases hstr : cfg.strength with
  | tso => exact absurd hstr hs
  | rcpc => rfl
  | sc => rfl

end Access

theorem length_movimmInsns_le (reg : Reg) (v : U64) : (movimmInsns reg v).length ≤ 4 := by
  have h := List.length_filterMap_le (fun hw : Fin 4 =>
    if lane v hw.val ≠ 0 then some (Insn.moveWide true reg (lane v hw.val) hw) else none) [1, 2, 3]
  rw [movimmInsns, List.length_cons]
  exact Nat.succ_le_succ h

theorem length_constInsns_le (d : U64) (pos neg : BitVec 12 → Insn) (reg : Insn) :
    (constInsns d pos neg reg).length ≤ 5 := by
  unfold constInsns
  split
  · exact (by decide : 1 ≤ 5)
  · split
    · exact (by decide : 1 ≤ 5)
    · rw [List.length_append]
      exact Nat.succ_le_succ (length_movimmInsns_le 16 d)

theorem length_addrInsns_le (i : OryxGinsn) : (addrInsns i).length ≤ 1 := by
  unfold addrInsns
  split
  · exact Nat.le_refl 1
  · exact Nat.zero_le 1

theorem length_loadInsns_le (cfg : TransCfg) (i : OryxGinsn) : (loadInsns cfg i).length ≤ 2 := by
  have h := length_addrInsns_le i
  unfold loadInsns
  split
  · exact (by decide : 1 ≤ 2)
  · cases cfg.strength with
    | tso => exact Nat.le_refl 2
    | rcpc => simpa using h
    | sc => simpa using h

theorem length_storeInsns_le (cfg : TransCfg) (i : OryxGinsn) :
    (storeInsns cfg i).length ≤ 2 := by
  have h := length_addrInsns_le i
  unfold storeInsns
  split
  · exact (by decide : 1 ≤ 2)
  · cases cfg.strength with
    | tso => exact Nat.le_refl 2
    | rcpc => simpa using h
    | sc => simpa using h

/-- No op takes more than seven instructions. -/
theorem length_insnsOf_le (cfg : TransCfg) (i : OryxGinsn) : (insnsOf cfg i).length ≤ 7 := by
  unfold insnsOf
  cases i.opcode with
  | none => exact Nat.zero_le 7
  | some op =>
    cases op with
    | movRi => exact (length_movimmInsns_le _ _).trans (by decide)
    | load => exact (length_loadInsns_le _ _).trans (by decide)
    | store => exact (length_storeInsns_le _ _).trans (by decide)
    | lea => exact (length_constInsns_le _ _ _ _).trans (by decide)
    | addRi => exact (length_constInsns_le _ _ _ _).trans (by decide)
    | subRi => exact (length_constInsns_le _ _ _ _).trans (by decide)
    | cmpRi => exact (length_constInsns_le _ _ _ _).trans (by decide)
    | call =>
      have h := length_movimmInsns_le 16 i.imm
      simp only [opInsns, List.length_append, List.length_cons, List.length_nil]
      omega
    | _ => exact Nat.le_of_ble_eq_true rfl

theorem length_blockInsns_le (cfg : TransCfg) (ops : List OryxGinsn) :
    (blockInsns cfg ops).length ≤ 7 * ops.length := by
  induction ops with
  | nil => exact Nat.le_refl 0
  | cons i ops ih =>
    have hi := length_insnsOf_le cfg i
    rw [blockInsns, List.flatMap_cons, List.length_append, List.length_cons]
    rw [blockInsns] at ih
    omega

/-! ### The emitted words decode to them -/

/-- The words decode to the instructions. -/
def DecodesTo (ws : List Word) (is : List Insn) : Prop := ws.map decode = is.map some

theorem DecodesTo.append {ws ws' : List Word} {is is' : List Insn} (h : DecodesTo ws is)
    (h' : DecodesTo ws' is') : DecodesTo (ws ++ ws') (is ++ is') := by
  unfold DecodesTo at *
  rw [List.map_append, List.map_append, h, h']

theorem DecodesTo.one {w : Word} {i : Insn} (h : decode w = some i) : DecodesTo [w] [i] :=
  congrArg (fun x => [x]) h

theorem DecodesTo.cons {w : Word} {i : Insn} {ws : List Word} {is : List Insn}
    (h : decode w = some i) (h' : DecodesTo ws is) : DecodesTo (w :: ws) (i :: is) :=
  (DecodesTo.one h).append h'

theorem DecodesTo.unique {ws : List Word} {is js : List Insn} (h : DecodesTo ws is)
    (h' : DecodesTo ws js) : is = js :=
  List.map_injective_iff.mpr (Option.some_injective _) (h.symm.trans h')

theorem toNat_lane (v : U64) (hw : Nat) :
    (lane v hw).toNat = v.toNat / 2 ^ (16 * hw) % 2 ^ 16 := by
  rw [lane, BitVec.toNat_setWidth, BitVec.toNat_ushiftRight, Nat.shiftRight_eq_div_pow]

/-- The lane as `emit_movimm` masks it out. -/
theorem toNat_maskedLane (v : U64) (hw : Nat) :
    ((v >>> (16 * hw) &&& 0xffff).setWidth 32 : U32).toNat = (lane v hw).toNat := by
  have hmask : (v >>> (16 * hw) &&& 0xffff).toNat = (lane v hw).toNat := by
    rw [toNat_lane, BitVec.toNat_and, BitVec.toNat_ushiftRight, Nat.shiftRight_eq_div_pow]
    exact Nat.and_two_pow_sub_one_eq_mod _ 16
  rw [BitVec.toNat_setWidth, hmask]
  have := (lane v hw).isLt
  omega

theorem maskedLane_setWidth (v : U64) (hw : Nat) :
    ((v >>> (16 * hw) &&& 0xffff).setWidth 32 : U32).setWidth 16 = lane v hw := by
  apply BitVec.eq_of_toNat_eq
  rw [BitVec.toNat_setWidth, toNat_maskedLane, Nat.mod_eq_of_lt (lane v hw).isLt]

theorem maskedLane_eq_zero (v : U64) (hw : Nat) :
    ((v >>> (16 * hw) &&& 0xffff).setWidth 32 : U32) = 0 ↔ lane v hw = 0 := by
  rw [← BitVec.toNat_inj, ← BitVec.toNat_inj, toNat_maskedLane]
  rfl

theorem filterMap_ite_cons {α β : Type} (p : α → Prop) [DecidablePred p] (f : α → β) (a : α)
    (l : List α) :
    (a :: l).filterMap (fun x => if p x then some (f x) else none) =
      (if p a then [f a] else []) ++ l.filterMap fun x => if p x then some (f x) else none := by
  by_cases h : p a <;> simp [h]

/-- `emit_movimm` materializes its constant. -/
theorem decode_movimmWords {reg : CInt} (h : reg.toNat < 32) (v : U64) :
    DecodesTo (movimmWords reg v) (movimmInsns (xreg reg) v) := by
  have hz := decode_encMovz h ((v >>> (16 * 0) &&& 0xffff).setWidth 32)
    (show (0 : CInt).toNat < 4 by decide)
  rw [maskedLane_setWidth] at hz
  refine .cons hz ?_
  -- lane by lane, the `MOVK`s left out are the same
  have hk : ∀ hw : Fin 4, ∀ ws is, DecodesTo ws is →
      DecodesTo
        ((if ((v >>> (16 * hw.val) &&& 0xffff).setWidth 32 : U32) ≠ 0 then
            [encMovk reg ((v >>> (16 * hw.val) &&& 0xffff).setWidth 32)
              (BitVec.ofNat 32 hw.val)] else []) ++ ws)
        ((if lane v hw.val ≠ 0 then
            [Insn.moveWide true (xreg reg) (lane v hw.val) hw] else []) ++ is) := by
    intro hw ws is hrest
    have hhw : (BitVec.ofNat 32 hw.val).toNat = hw.val := by
      have := hw.isLt
      rw [BitVec.toNat_ofNat]
      omega
    simp only [ne_eq, maskedLane_eq_zero]
    split
    · refine .append (.one ?_) hrest
      have hd := decode_encMovk h ((v >>> (16 * hw.val) &&& 0xffff).setWidth 32)
        (hhw.trans_lt hw.isLt)
      rw [maskedLane_setWidth] at hd
      rw [hd]
      have hfin : (⟨_, hhw.trans_lt hw.isLt⟩ : Fin 4) = hw := Fin.ext hhw
      rw [hfin]
    · exact hrest
  have hall := hk 1 _ _ (hk 2 _ _ (hk 3 _ _ (show DecodesTo [] [] from rfl)))
  -- one step for each of the lanes 1, 2 and 3
  simp only [filterMap_ite_cons, List.filterMap_nil]
  exact hall

theorem setWidth_12 (v : U64) : (v.setWidth 32 : U32).setWidth 12 = v.setWidth 12 :=
  BitVec.setWidth_setWidth_of_le v (by decide)

theorem decode_lowerConst {d : U64} {posW negW : U32 → Word} {regW : Word}
    {pos neg : BitVec 12 → Insn} {reg : Insn}
    (hpos : ∀ imm12 : U32, decode (posW imm12) = some (pos (imm12.setWidth 12)))
    (hneg : ∀ imm12 : U32, decode (negW imm12) = some (neg (imm12.setWidth 12)))
    (hreg : decode regW = some reg) :
    DecodesTo (lowerConst .init d posW negW regW).code (constInsns d pos neg reg) := by
  unfold lowerConst constInsns
  split
  · refine .one ?_
    rw [hpos, setWidth_12]
  · split
    · refine .one ?_
      rw [hneg, setWidth_12]
    · exact (decode_movimmWords (by decide) d).append (.one hreg)

theorem scaledImm12_eq {imm : U64} {off : U32} (h : scaledImm12 imm = some off) :
    off.setWidth 12 = offset12 imm := by
  unfold scaledImm12 at h
  split at h
  · cases h
  · cases h
    exact setWidth_12 _

section LoadStore

variable {cfg : TransCfg} {i : OryxGinsn} {d : TransState} {load : Bool}

theorem decode_scaledLdr (hd : i.rd.toNat < 32) (hn : i.rn.toNat < 32) {off : U32}
    (hoff : scaledImm12 i.imm = some off) :
    decode (encLdr i.rd i.rn off) = some (.ldr (xreg i.rd) (xreg i.rn) (offset12 i.imm)) := by
  rw [decode_encLdr hd hn, scaledImm12_eq hoff]

theorem decode_scaledStr (hd : i.rd.toNat < 32) (hn : i.rn.toNat < 32) {off : U32}
    (hoff : scaledImm12 i.imm = some off) :
    decode (encStr i.rd i.rn off) = some (.str (xreg i.rd) (xreg i.rn) (offset12 i.imm)) := by
  rw [decode_encStr hd hn, scaledImm12_eq hoff]

/-- A weak access is one `LDR` or `STR`. -/
theorem decode_weakAccess (hd : i.rd.toNat < 32) (hn : i.rn.toNat < 32)
    (hord : orderedAccess cfg i = false) (h : lowerLoadStore cfg .init i load = .ok d) :
    DecodesTo d.code (if load then loadInsns cfg i else storeInsns cfg i) := by
  rw [lowerLoadStore, if_pos hord] at h
  cases hoff : scaledImm12 i.imm with
  | none =>
    rw [hoff] at h
    cases h
  | some off =>
    rw [hoff] at h
    cases load with
    | true =>
      cases h
      rw [if_pos rfl, loadInsns_weak hord]
      exact .one (decode_scaledLdr hd hn hoff)
    | false =>
      cases h
      rw [if_neg Bool.false_ne_true, storeInsns_weak hord]
      exact .one (decode_scaledStr hd hn hoff)

/-- Under TSO the access has a one-sided fence behind or before it. -/
theorem decode_fencedAccess (hd : i.rd.toNat < 32) (hn : i.rn.toNat < 32)
    (hord : orderedAccess cfg i = true) (htso : cfg.strength = .tso)
    (h : lowerLoadStore cfg .init i load = .ok d) :
    DecodesTo d.code (if load then loadInsns cfg i else storeInsns cfg i) := by
  rw [lowerLoadStore, if_neg (by rw [hord]; exact Bool.noConfusion), if_pos htso] at h
  cases hoff : scaledImm12 i.imm with
  | none =>
    rw [hoff] at h
    cases h
  | some off =>
    rw [hoff] at h
    cases load with
    | true =>
      cases h
      rw [if_pos rfl, loadInsns_tso hord htso]
      exact .cons (decode_scaledLdr hd hn hoff) (.one (decode_encDmb fenceLd))
    | false =>
      cases h
      rw [if_neg Bool.false_ne_true, storeInsns_tso hord htso]
      exact .cons (decode_encDmb fenceSt) (.one (decode_scaledStr hd hn hoff))

/-- The base register of an acquire or release. -/
theorem xreg_base (i : OryxGinsn) :
    xreg (if i.imm ≠ 0 then oryxScratch else i.rn) = addrReg i := by
  unfold addrReg
  split
  · rfl
  · rfl

/-- The address of an acquire or release is put in that register first. -/
theorem decode_addr (hn : i.rn.toNat < 32) :
    DecodesTo
      (if i.imm ≠ 0 then TransState.init.emit
        (encAddImm oryxScratch i.rn (i.imm.setWidth 32)) else .init).code
      (addrInsns i) := by
  unfold addrInsns
  split
  · refine .one ?_
    rw [decode_encAddImm (by decide) hn, setWidth_12]
    rfl
  · rfl

/-- Otherwise it is an acquire or a release. -/
theorem decode_acquireRelease (hd : i.rd.toNat < 32) (hn : i.rn.toNat < 32)
    (hord : orderedAccess cfg i = true) (htso : cfg.strength ≠ .tso)
    (h : lowerLoadStore cfg .init i load = .ok d) :
    DecodesTo d.code (if load then loadInsns cfg i else storeInsns cfg i) := by
  have hbase : (if i.imm ≠ 0 then oryxScratch else i.rn).toNat < 32 := by
    split
    · decide
    · exact hn
  rw [lowerLoadStore, if_neg (by rw [hord]; exact Bool.noConfusion), if_neg htso] at h
  split at h
  · cases h
  cases load with
  | true =>
    cases h
    rw [if_pos rfl]
    cases hs : cfg.strength with
    | tso => exact absurd hs htso
    -- only the load tells RCPC from SC
    | rcpc =>
      rw [loadInsns_rcpc hord hs]
      refine (decode_addr hn).append (.one ?_)
      rw [if_pos rfl, decode_encLdapr hd hbase, xreg_base]
    | sc =>
      rw [loadInsns_sc hord hs]
      refine (decode_addr hn).append (.one ?_)
      rw [if_neg OrderStrength.noConfusion, decode_encLdar hd hbase, xreg_base]
  | false =>
    cases h
    rw [if_neg Bool.false_ne_true, storeInsns_release hord htso]
    refine (decode_addr hn).append (.one ?_)
    rw [decode_encStlr hd hbase, xreg_base]

theorem decode_lowerLoadStore (hd : i.rd.toNat < 32) (hn : i.rn.toNat < 32)
    (h : lowerLoadStore cfg .init i load = .ok d) :
    DecodesTo d.code (if load then loadInsns cfg i else storeInsns cfg i) := by
  cases hord : orderedAccess cfg i with
  | false => exact decode_weakAccess hd hn hord h
  | true =>
    by_cases htso : cfg.strength = .tso
    · exact decode_fencedAccess hd hn hord htso h
    · exact decode_acquireRelease hd hn hord htso h

end LoadStore

/-- **The words of an op decode to its instructions.** -/
theorem decode_lowerOp {cfg : TransCfg} {i : OryxGinsn} {op : GuestOp} {d : TransState}
    (hregs : i.regsOk) (h : lowerOp cfg .init i op = .ok d) :
    DecodesTo d.code (opInsns cfg i op) := by
  obtain ⟨hrd, hrn⟩ := i.regsOk_iff.mp hregs
  have hd : i.rd.toNat < 32 := by omega
  have hn : i.rn.toNat < 32 := by omega
  have hsp : grRsp.toNat < 32 := by decide
  have hscr : oryxScratch.toNat < 32 := by decide
  cases op with
  -- one word, one instruction
  | movRr => cases h; exact .one (decode_encMovRr hd hn)
  | movRi => cases h; exact decode_movimmWords hd i.imm
  | addRr => cases h; exact .one (decode_encAddsRr hd hd hn)
  | subRr => cases h; exact .one (decode_encSubsRr hd hd hn)
  | cmpRr => cases h; exact .one (decode_encSubsCmp hd hn)
  | load => exact decode_lowerLoadStore hd hn h
  | store => exact decode_lowerLoadStore hd hn h
  | atomicAdd => cases h; exact .one (decode_encLdaddal hd (by decide) hn)
  | atomicCas => cases h; exact .one (decode_encCasal (by decide) hd hn)
  | fence => cases h; exact .one (decode_encDmb i.cc)
  | setcc => cases h; exact .one (decode_encCset hd (armCond i.cc))
  -- the three ranges of the constant
  | lea =>
    cases h
    exact decode_lowerConst (decode_encAddImm hd hn) (decode_encSubImm hd hn)
      (decode_encAddRr hd hn hscr)
  | addRi =>
    cases h
    exact decode_lowerConst (decode_encAddsImmRd hd hd) (decode_encSubsImmRd hd hd)
      (decode_encAddsRr hd hd hscr)
  | subRi =>
    cases h
    exact decode_lowerConst (decode_encAddsImmRd hd hd) (decode_encSubsImmRd hd hd)
      (decode_encAddsRr hd hd hscr)
  | cmpRi =>
    cases h
    exact decode_lowerConst (decode_encSubsImm hd) (decode_encAddsImm hd)
      (decode_encSubsCmp hd hscr)
  -- stack ops: the pointer and the word
  | push =>
    cases h
    exact .cons (decode_encSubImm hsp hsp 8) (.one (decode_encStr hd hsp 0))
  | pop =>
    cases h
    exact .cons (decode_encLdr hd hsp 0) (.one (decode_encAddImm hsp hsp 8))
  | call =>
    cases h
    have hpush : DecodesTo [encSubImm grRsp grRsp 8, encStr oryxScratch grRsp 0, encB]
        [.addSubImm true false 4 4 8, .str 16 4 0, .b 0] :=
      .cons (decode_encSubImm hsp hsp 8) (.cons (decode_encStr hscr hsp 0) (.one decode_encB))
    have hall := (decode_movimmWords hscr i.imm).append hpush
    -- relocation and exit leave the code alone
    simp only [TransState.terminate_code, TransState.addExit_code, TransState.emit_code,
      TransState.addReloc_code, emitMovimm_code, TransState.init_code, List.nil_append,
      List.append_assoc, List.cons_append]
    exact hall
  | x86ret =>
    cases h
    exact .cons (decode_encLdr (by decide) hsp 0)
      (.cons (decode_encAddImm hsp hsp 8) (.one decode_encRet))
  | testRr => cases h; exact .one (decode_encTstRr hd hn)
  | andRr => cases h; exact .one (decode_encAndsRr hd hd hn)
  | xorRr =>
    cases h
    exact .cons (decode_encEorRr hd hd hn) (.one (decode_encTstRr hd hd))
  | orRr =>
    cases h
    exact .cons (decode_encOrrRr2 hd hd hn) (.one (decode_encTstRr hd hd))
  | br => cases h; exact .one (decode_encBcond (armCond i.cc))
  | jmp => cases h; exact .one decode_encB
  | ret => cases h; exact .one decode_encRet

theorem decode_opWords {cfg : TransCfg} {i : OryxGinsn} {d : TransState}
    (h : lowered cfg i = .ok d) : DecodesTo (opWords cfg i) (insnsOf cfg i) := by
  obtain ⟨hregs, op, hop, hlow⟩ := lowered_ok h
  rw [opWords, h, insnsOf, hop]
  exact decode_lowerOp hregs hlow

/-- **The words of a block decode to its instructions**, op behind op. -/
theorem decode_code {cfg : TransCfg} {ops : List OryxGinsn} {ds : List TransState}
    (h : LowersTo cfg ops ds) : DecodesTo (ops.flatMap (opWords cfg)) (blockInsns cfg ops) := by
  induction h with
  | nil => exact rfl
  | cons hi _ ih => exact (decode_opWords hi).append ih

/-- The words of each op of a block that lowers decode to its instructions. -/
theorem LowersTo.decode {cfg : TransCfg} {ops : List OryxGinsn} {ds : List TransState}
    (h : LowersTo cfg ops ds) : ∀ i ∈ ops, DecodesTo (opWords cfg i) (insnsOf cfg i) := by
  intro i hi
  obtain ⟨d, hd⟩ := h.lowers i hi
  exact decode_opWords hd

theorem DecodesTo.length {ws : List Word} {is : List Insn} (h : DecodesTo ws is) :
    ws.length = is.length := by
  have e := congrArg List.length h
  rwa [List.length_map, List.length_map] at e

/-! ### The code of a unit -/

/-- The code of a unit as words. -/
def codeWords (tu : OryxTu) : List Word :=
  getRecords getU32 4 (tu.code.val.length / 4) tu.code.val

/-- The code bytes of a translated block are the words of its ops, and these
decode to its instructions. -/
theorem translated_code {ops : List OryxGinsn} {cfg : TransCfg} {profileId : U32}
    {tu : OryxTu} {st : OryxMmStats} (h : oryxTranslateEx ops cfg profileId = .ok (tu, st)) :
    tu.code.val = (ops.flatMap (opWords cfg)).flatMap putU32 ∧
      DecodesTo (ops.flatMap (opWords cfg)) (blockInsns cfg ops) := by
  obtain ⟨body, last, ds, dl, ht⟩ := oryxTranslateEx_ok h
  have hdec := decode_code ht.lowersTo
  have hcode := concat_code cfg ht.lowersTo
  rw [concat_append_singleton] at hcode
  refine ⟨?_, hdec⟩
  -- at most 7 words of 4 bytes for each of at most 2 ^ 20 ops: the count fits
  have hlen : ((ops.flatMap (opWords cfg)).flatMap putU32).length < 2 ^ 32 := by
    have h1 := length_blockInsns_le cfg ops
    have h2 := ht.length_le
    rw [length_flatMap_of_width length_putU32, hdec.length]
    omega
  rw [ht.tu_eq]
  simp only [buildTu, hcode]
  exact Counted.clip_val hlen

theorem codeWords_translated {ops : List OryxGinsn} {cfg : TransCfg} {profileId : U32}
    {tu : OryxTu} {st : OryxMmStats} (h : oryxTranslateEx ops cfg profileId = .ok (tu, st)) :
    codeWords tu = ops.flatMap (opWords cfg) ∧
      DecodesTo (ops.flatMap (opWords cfg)) (blockInsns cfg ops) := by
  obtain ⟨hcode, hdec⟩ := translated_code h
  refine ⟨?_, hdec⟩
  have hrec := getRecords_flatMap length_putU32 getU32_putU32 (ops.flatMap (opWords cfg)) []
  rw [List.append_nil] at hrec
  rw [codeWords, hcode, length_flatMap_of_width length_putU32, Nat.mul_div_cancel _ (by decide)]
  exact hrec

end Oryx
