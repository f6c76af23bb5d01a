/-
Oryx/Encoders.lean

The A64 encoders of `oryxtu.c`, and what each emitted word decodes to.

Three layouts cover all encoders that take operands, and each has one lemma
reading all its fields back (`fields_reg`, `fields_imm12`, `fields_wide`): an
encoder's word, as a number, is a sum of its constant and its shifted
operands.  From there every encoder's decode lemma is a look-up.
-/
import Oryx.GuestIR
import Oryx.Lib.A64.Insn

namespace Oryx

open A64

/-! ### Encoders -/

/-- The families: a constant with register numbers OR-ed in at bits 16, 5 and 0. -/
def encRegs (base : Word) (rd rn rm : CInt) : Word := base ||| rm <<< 16 ||| rn <<< 5 ||| rd

/-- Two register numbers, at bits 5 and 0. -/
def encRegs2 (base : Word) (rt rn : CInt) : Word := base ||| rn <<< 5 ||| rt

/-- Two register numbers and a 12-bit immediate at bit 10. -/
def encImm12 (base : Word) (rd rn : CInt) (imm12 : U32) : Word :=
  base ||| (imm12 &&& 0xfff) <<< 10 ||| rn <<< 5 ||| rd

/-- A register number, a 16-bit immediate at bit 5 and its lane at bit 21. -/
def encWide (base : Word) (rd : CInt) (imm16 : U32) (hw : CInt) : Word :=
  base ||| hw <<< 21 ||| (imm16 &&& 0xffff) <<< 5 ||| rd

def encRet : Word := 0xD65F03C0
def encMovRr (rd rm : CInt) : Word := (0xAA0003E0 : Word) ||| rm <<< 16 ||| rd
def encAddRr : CInt → CInt → CInt → Word := encRegs 0x8B000000
def encSubsCmp (rn rm : CInt) : Word := (0xEB000000 : Word) ||| rm <<< 16 ||| rn <<< 5 ||| 31
def encMovz : CInt → U32 → CInt → Word := encWide 0xD2800000
def encMovk : CInt → U32 → CInt → Word := encWide 0xF2800000
def encLdr : CInt → CInt → U32 → Word := encImm12 0xF9400000
def encStr : CInt → CInt → U32 → Word := encImm12 0xF9000000
def encB : Word := 0x14000000
def encBcond (cond : CInt) : Word := (0x54000000 : Word) ||| (cond &&& 0xf)
def encLdar : CInt → CInt → Word := encRegs2 0xC8DFFC00
def encLdapr : CInt → CInt → Word := encRegs2 0xF8BFC000
def encStlr : CInt → CInt → Word := encRegs2 0xC89FFC00
def encAddImm : CInt → CInt → U32 → Word := encImm12 0x91000000
def encSubImm : CInt → CInt → U32 → Word := encImm12 0xD1000000
def encSubsImm (rn : CInt) (imm12 : U32) : Word :=
  (0xF100001F : Word) ||| (imm12 &&& 0xfff) <<< 10 ||| rn <<< 5
def encAddsImm (rn : CInt) (imm12 : U32) : Word :=
  (0xB100001F : Word) ||| (imm12 &&& 0xfff) <<< 10 ||| rn <<< 5
def encTstRr (rn rm : CInt) : Word := (0xEA00001F : Word) ||| rm <<< 16 ||| rn <<< 5
def encEorRr : CInt → CInt → CInt → Word := encRegs 0xCA000000
def encOrrRr2 : CInt → CInt → CInt → Word := encRegs 0xAA000000
def encAddsRr : CInt → CInt → CInt → Word := encRegs 0xAB000000
def encSubsRr : CInt → CInt → CInt → Word := encRegs 0xEB000000
def encAndsRr : CInt → CInt → CInt → Word := encRegs 0xEA000000
def encAddsImmRd : CInt → CInt → U32 → Word := encImm12 0xB1000000
def encSubsImmRd : CInt → CInt → U32 → Word := encImm12 0xF1000000

/-- `LDADDAL Xs, Xt, [Xn]`: here `rs` goes to bit 16 and `rt` to bit 0. -/
def encLdaddal (rs rt rn : CInt) : Word := encRegs 0xF8E00000 rt rn rs
def encCasal (rs rt rn : CInt) : Word := encRegs 0xC8E0FC00 rt rn rs

/-- `CSET Xd, cond`: the condition field is the tested condition inverted. -/
def encCset (rd cond : CInt) : Word := (0x9A9F07E0 : Word) ||| ((cond ^^^ 1) &&& 0xf) <<< 12 ||| rd

def encDmb (fence : CInt) : Word :=
  if fence = fenceLd then 0xD50339BF
  else if fence = fenceSt then 0xD5033ABF
  else 0xD5033BBF

/-- `ORYX_SCRATCH` and `ORYX_NEXTPC`. -/
def oryxScratch : CInt := 16
def oryxNextpc : CInt := 17

/-- `arm_cond`. -/
def armCond (gcc : CInt) : CInt :=
  if gcc = gccEq then 0x0
  else if gcc = gccNe then 0x1
  else if gcc = gccGe then 0xA
  else if gcc = gccLt then 0xB
  else if gcc = gccGt then 0xC
  else if gcc = gccLe then 0xD
  else 0xE

/-! ### Register and condition operands -/

/-- The A64 register a number names. -/
def xreg (r : CInt) : Reg := Fin.ofNat 32 r.toNat

/-- The A64 condition an encoder's `cond` argument names. -/
def xcond (cond : CInt) : Fin 16 := Fin.ofNat 16 cond.toNat

theorem xreg_eq {r : CInt} (h : r.toNat < 32) : xreg r = ⟨r.toNat, h⟩ := by
  apply Fin.ext
  simp [xreg, Nat.mod_eq_of_lt h]

/-! ### The layouts, as numbers -/

theorem and_fff_toNat (x : U32) : (x &&& 0xfff).toNat = x.toNat % 2 ^ 12 := by
  rw [BitVec.toNat_and]
  exact Nat.and_two_pow_sub_one_eq_mod x.toNat 12

theorem and_ffff_toNat (x : U32) : (x &&& 0xffff).toNat = x.toNat % 2 ^ 16 := by
  rw [BitVec.toNat_and]
  exact Nat.and_two_pow_sub_one_eq_mod x.toNat 16

theorem and_f_toNat (x : U32) : (x &&& 0xf).toNat = x.toNat % 2 ^ 4 := by
  rw [BitVec.toNat_and]
  exact Nat.and_two_pow_sub_one_eq_mod x.toNat 4

/-- OR-ing a register number in at bit 16, 5 or 0. -/
theorem or_reg16 {base r : Word} (hr : r.toNat < 32) (hb : base.toNat / 2 ^ 16 % 2 ^ 5 = 0) :
    (base ||| r <<< 16).toNat = base.toNat + r.toNat * 2 ^ 16 :=
  toNat_or_shiftLeft (show r.toNat < 2 ^ 5 from hr) (by decide) hb

theorem or_reg5 {base r : Word} (hr : r.toNat < 32) (hb : base.toNat / 2 ^ 5 % 2 ^ 5 = 0) :
    (base ||| r <<< 5).toNat = base.toNat + r.toNat * 2 ^ 5 :=
  toNat_or_shiftLeft (show r.toNat < 2 ^ 5 from hr) (by decide) hb

theorem or_reg0 {base r : Word} (hr : r.toNat < 32) (hb : base.toNat % 2 ^ 5 = 0) :
    (base ||| r).toNat = base.toNat + r.toNat :=
  toNat_or_low (show r.toNat < 2 ^ 5 from hr) (by rw [bits]; omega)

/-- OR-ing the low 12 bits of an immediate in at bit 10. -/
theorem or_imm12 {base imm : Word} (hb : base.toNat / 2 ^ 10 % 2 ^ 12 = 0) :
    (base ||| (imm &&& 0xfff) <<< 10).toNat =
      base.toNat + imm.toNat % 2 ^ 12 * 2 ^ 10 := by
  have hi : (imm &&& 0xfff).toNat < 2 ^ 12 := by rw [and_fff_toNat]; omega
  rw [toNat_or_shiftLeft hi (by decide) hb, and_fff_toNat]

/-- A word of the register layout, by its value. -/
theorem toNat_encRegs {base rd rn rm : Word} (hb : base.toNat % 2 ^ 10 = 0)
    (hb' : base.toNat / 2 ^ 16 % 2 ^ 5 = 0) (hd : rd.toNat < 32) (hn : rn.toNat < 32)
    (hm : rm.toNat < 32) :
    (encRegs base rd rn rm).toNat =
      base.toNat + rm.toNat * 2 ^ 16 + rn.toNat * 2 ^ 5 + rd.toNat := by
  have h1 := or_reg16 hm hb'
  have h2 := @or_reg5 (base ||| rm <<< 16) rn hn (by omega)
  rw [encRegs, or_reg0 hd (by omega), h2, h1]

theorem toNat_encRegs2 {base rt rn : Word} (hb : base.toNat % 2 ^ 10 = 0) (ht : rt.toNat < 32)
    (hn : rn.toNat < 32) :
    (encRegs2 base rt rn).toNat = base.toNat + rn.toNat * 2 ^ 5 + rt.toNat := by
  have h1 := @or_reg5 base rn hn (by omega)
  rw [encRegs2, or_reg0 ht (by omega), h1]

theorem toNat_encImm12 {base rd rn imm12 : Word} (hb : base.toNat % 2 ^ 22 = 0)
    (hd : rd.toNat < 32) (hn : rn.toNat < 32) :
    (encImm12 base rd rn imm12).toNat =
      base.toNat + imm12.toNat % 2 ^ 12 * 2 ^ 10 + rn.toNat * 2 ^ 5 + rd.toNat := by
  have h1 := @or_imm12 base imm12 (by omega)
  have h2 := @or_reg5 (base ||| (imm12 &&& 0xfff) <<< 10) rn hn (by omega)
  rw [encImm12, or_reg0 hd (by omega), h2, h1]

theorem toNat_encWide {base rd imm16 hw : Word} (hb : base.toNat % 2 ^ 23 = 0)
    (hd : rd.toNat < 32) (hw4 : hw.toNat < 4) :
    (encWide base rd imm16 hw).toNat =
      base.toNat + hw.toNat * 2 ^ 21 + imm16.toNat % 2 ^ 16 * 2 ^ 5 + rd.toNat := by
  have hi : (imm16 &&& 0xffff).toNat < 2 ^ 16 := by rw [and_ffff_toNat]; omega
  have h1 : (base ||| hw <<< 21).toNat = base.toNat + hw.toNat * 2 ^ 21 :=
    toNat_or_shiftLeft (show hw.toNat < 2 ^ 2 from hw4) (by decide) (by rw [bits]; omega)
  have h2 : (base ||| hw <<< 21 ||| (imm16 &&& 0xffff) <<< 5).toNat =
      base.toNat + hw.toNat * 2 ^ 21 + imm16.toNat % 2 ^ 16 * 2 ^ 5 := by
    rw [toNat_or_shiftLeft hi (by decide) (by rw [bits]; omega), h1, and_ffff_toNat]
  rw [encWide, or_reg0 hd (by omega), h2]

/-! ### The layouts, field by field -/

/-- The fields of a word of the register layout. -/
theorem fields_reg {w : Word} {top f21 rm f10 rn rd : Nat} (_ht : top < 256) (h21 : f21 < 8)
    (hm : rm < 32) (h10 : f10 < 64) (hn : rn < 32) (hd : rd < 32)
    (hw : w.toNat = top * 2 ^ 24 + f21 * 2 ^ 21 + rm * 2 ^ 16 + f10 * 2 ^ 10 + rn * 2 ^ 5 + rd) :
    bits w 24 8 = top ∧ bits w 21 3 = f21 ∧ bits w 10 6 = f10 ∧ bits w 16 5 = rm ∧
      regAt w 16 = ⟨rm, hm⟩ ∧ regAt w 5 = ⟨rn, hn⟩ ∧ regAt w 0 = ⟨rd, hd⟩ := by
  refine ⟨?_, ?_, ?_, ?_, Fin.ext ?_, Fin.ext ?_, Fin.ext ?_⟩ <;>
    simp only [regAt, bits, hw] <;> omega

/-- The fields of a word with a 12-bit immediate. -/
theorem fields_imm12 {w : Word} {top f22 imm rn rd : Nat} (_ht : top < 256) (h22 : f22 < 4)
    (hi : imm < 2 ^ 12) (hn : rn < 32) (hd : rd < 32)
    (hw : w.toNat = top * 2 ^ 24 + f22 * 2 ^ 22 + imm * 2 ^ 10 + rn * 2 ^ 5 + rd) :
    bits w 24 8 = top ∧ bits w 22 2 = f22 ∧ immAt w 10 12 = BitVec.ofNat 12 imm ∧
      regAt w 5 = ⟨rn, hn⟩ ∧ regAt w 0 = ⟨rd, hd⟩ := by
  refine ⟨?_, ?_, congrArg (BitVec.ofNat 12) ?_, Fin.ext ?_, Fin.ext ?_⟩ <;>
    simp only [regAt, bits, hw] <;> omega

/-- The fields of a move-wide word. -/
theorem fields_wide {w : Word} {top hw imm rd : Nat} (_ht : top < 256) (hhw : hw < 4)
    (hi : imm < 2 ^ 16) (hd : rd < 32)
    (hval : w.toNat = top * 2 ^ 24 + 2 ^ 23 + hw * 2 ^ 21 + imm * 2 ^ 5 + rd) :
    bits w 24 8 = top ∧ bits w 23 1 = 1 ∧ bits w 21 2 = hw ∧
      immAt w 5 16 = BitVec.ofNat 16 imm ∧ regAt w 0 = ⟨rd, hd⟩ := by
  refine ⟨?_, ?_, ?_, congrArg (BitVec.ofNat 16) ?_, Fin.ext ?_⟩ <;>
    simp only [regAt, bits, hval] <;> omega

/-! ### Encoders with a register built into the constant -/

theorem or_move_last (a l x y : Word) : a ||| l ||| x ||| y = a ||| x ||| y ||| l := by
  ac_rfl

theorem or_swap (a x y : Word) : a ||| x ||| y = a ||| y ||| x := by
  ac_rfl

theorem encMovRr_eq (rd rm : CInt) : encMovRr rd rm = encRegs 0xAA000000 rd 31 rm := by
  have hb : (0xAA0003E0 : Word) = (0xAA000000 : Word) ||| (31 : Word) <<< 5 := by decide
  rw [encMovRr, encRegs, hb, or_swap _ ((31 : Word) <<< 5)]

theorem encSubsCmp_eq (rn rm : CInt) : encSubsCmp rn rm = encSubsRr 31 rn rm := rfl

theorem encTstRr_eq (rn rm : CInt) : encTstRr rn rm = encAndsRr 31 rn rm := by
  have hb : (0xEA00001F : Word) = 0xEA000000 ||| 31 := by decide
  rw [encTstRr, encAndsRr, encRegs, hb, or_move_last]

theorem encSubsImm_eq (rn : CInt) (imm12 : U32) :
    encSubsImm rn imm12 = encSubsImmRd 31 rn imm12 := by
  have hb : (0xF100001F : Word) = 0xF1000000 ||| 31 := by decide
  rw [encSubsImm, encSubsImmRd, encImm12, hb, or_move_last]

theorem encAddsImm_eq (rn : CInt) (imm12 : U32) :
    encAddsImm rn imm12 = encAddsImmRd 31 rn imm12 := by
  have hb : (0xB100001F : Word) = 0xB1000000 ||| 31 := by decide
  rw [encAddsImm, encAddsImmRd, encImm12, hb, or_move_last]

/-! ### What each encoder's word decodes to -/

section Decode

variable {rd rn rm : CInt} (hd : rd.toNat < 32) (hn : rn.toNat < 32) (hm : rm.toNat < 32)

include hd hn hm in
/-- A word of the register layout whose other fields are all zero. -/
theorem decodeReg3_encRegs {base : Word} {top : Nat} (ht : top < 256)
    (hb : base.toNat = top * 2 ^ 24) :
    bits (encRegs base rd rn rm) 24 8 = top ∧
      ∀ mk, decodeReg3 (encRegs base rd rn rm) mk =
        some (mk (xreg rd) (xreg rn) (xreg rm)) := by
  have hval := @toNat_encRegs base rd rn rm (by omega) (by omega) hd hn hm
  obtain ⟨h24, h21, h10, -, r16, r5, r0⟩ :=
    @fields_reg (encRegs base rd rn rm) top 0 rm.toNat 0 rn.toNat rd.toNat ht (by decide) hm
      (by decide) hn hd (by omega)
  refine ⟨h24, fun mk => ?_⟩
  rw [decodeReg3, h21, h10, r16, r5, r0, xreg_eq hd, xreg_eq hn, xreg_eq hm]
  rfl

include hd hn hm in
theorem decode_encAddRr :
    decode (encAddRr rd rn rm) = some (.addSubReg false false (xreg rd) (xreg rn) (xreg rm)) := by
  have h := @decodeReg3_encRegs rd rn rm hd hn hm 0x8B000000 0x8B (by decide) rfl
  rw [encAddRr, decode, h.1]
  exact h.2 _

include hd hn hm in
theorem decode_encAddsRr :
    decode (encAddsRr rd rn rm) = some (.addSubReg false true (xreg rd) (xreg rn) (xreg rm)) := by
  have h := @decodeReg3_encRegs rd rn rm hd hn hm 0xAB000000 0xAB (by decide) rfl
  rw [encAddsRr, decode, h.1]
  exact h.2 _

include hd hn hm in
theorem decode_encSubsRr :
    decode (encSubsRr rd rn rm) = some (.addSubReg true true (xreg rd) (xreg rn) (xreg rm)) := by
  have h := @decodeReg3_encRegs rd rn rm hd hn hm 0xEB000000 0xEB (by decide) rfl
  rw [encSubsRr, decode, h.1]
  exact h.2 _

include hd hn hm in
theorem decode_encAndsRr :
    decode (encAndsRr rd rn rm) = some (.logicReg .ands (xreg rd) (xreg rn) (xreg rm)) := by
  have h := @decodeReg3_encRegs rd rn rm hd hn hm 0xEA000000 0xEA (by decide) rfl
  rw [encAndsRr, decode, h.1]
  exact h.2 _

include hd hn hm in
theorem decode_encEorRr :
    decode (encEorRr rd rn rm) = some (.logicReg .eor (xreg rd) (xreg rn) (xreg rm)) := by
  have h := @decodeReg3_encRegs rd rn rm hd hn hm 0xCA000000 0xCA (by decide) rfl
  rw [encEorRr, decode, h.1]
  exact h.2 _

include hd hn hm in
theorem decode_encOrrRr2 :
    decode (encOrrRr2 rd rn rm) = some (.logicReg .orr (xreg rd) (xreg rn) (xreg rm)) := by
  have h := @decodeReg3_encRegs rd rn rm hd hn hm 0xAA000000 0xAA (by decide) rfl
  rw [encOrrRr2, decode, h.1]
  exact h.2 _

include hd hm in
theorem decode_encMovRr :
    decode (encMovRr rd rm) = some (.logicReg .orr (xreg rd) 31 (xreg rm)) := by
  rw [encMovRr_eq]
  exact decode_encOrrRr2 hd (by decide) hm

include hn hm in
theorem decode_encSubsCmp :
    decode (encSubsCmp rn rm) = some (.addSubReg true true 31 (xreg rn) (xreg rm)) := by
  rw [encSubsCmp_eq]
  exact decode_encSubsRr (by decide) hn hm

include hn hm in
theorem decode_encTstRr :
    decode (encTstRr rn rm) = some (.logicReg .ands 31 (xreg rn) (xreg rm)) := by
  rw [encTstRr_eq]
  exact decode_encAndsRr (by decide) hn hm

include hd hn in
/-- The fields of an encoder with a 12-bit immediate; `f22` are the two bits
of its constant below the class. -/
theorem fields_encImm12 {base : Word} {top f22 : Nat} (imm12 : U32) (ht : top < 256)
    (h22 : f22 < 4) (hb : base.toNat = top * 2 ^ 24 + f22 * 2 ^ 22) :
    bits (encImm12 base rd rn imm12) 24 8 = top ∧ bits (encImm12 base rd rn imm12) 22 2 = f22 ∧
      immAt (encImm12 base rd rn imm12) 10 12 = imm12.setWidth 12 ∧
      regAt (encImm12 base rd rn imm12) 5 = xreg rn ∧
      regAt (encImm12 base rd rn imm12) 0 = xreg rd := by
  have hval := @toNat_encImm12 base rd rn imm12 (by omega) hd hn
  obtain ⟨h24, h22', himm, r5, r0⟩ :=
    @fields_imm12 (encImm12 base rd rn imm12) top f22 (imm12.toNat % 2 ^ 12) rn.toNat rd.toNat
      ht h22 (by omega) hn hd (by omega)
  refine ⟨h24, h22', ?_, ?_, ?_⟩
  · rw [himm]
    apply BitVec.eq_of_toNat_eq
    simp
  · rw [r5, xreg_eq hn]
  · rw [r0, xreg_eq hd]

include hd hn in
theorem decode_encAddImm (imm12 : U32) :
    decode (encAddImm rd rn imm12) =
      some (.addSubImm false false (xreg rd) (xreg rn) (imm12.setWidth 12)) := by
  obtain ⟨h24, h22, himm, r5, r0⟩ :=
    @fields_encImm12 rd rn hd hn 0x91000000 0x91 0 imm12 (by decide) (by decide) rfl
  rw [encAddImm, decode, h24]
  simp only [decodeAddSubImm, h22, if_true, r0, r5, himm]

include hd hn in
theorem decode_encSubImm (imm12 : U32) :
    decode (encSubImm rd rn imm12) =
      some (.addSubImm true false (xreg rd) (xreg rn) (imm12.setWidth 12)) := by
  obtain ⟨h24, h22, himm, r5, r0⟩ :=
    @fields_encImm12 rd rn hd hn 0xD1000000 0xD1 0 imm12 (by decide) (by decide) rfl
  rw [encSubImm, decode, h24]
  simp only [decodeAddSubImm, h22, if_true, r0, r5, himm]

include hd hn in
theorem decode_encAddsImmRd (imm12 : U32) :
    decode (encAddsImmRd rd rn imm12) =
      some (.addSubImm false true (xreg rd) (xreg rn) (imm12.setWidth 12)) := by
  obtain ⟨h24, h22, himm, r5, r0⟩ :=
    @fields_encImm12 rd rn hd hn 0xB1000000 0xB1 0 imm12 (by decide) (by decide) rfl
  rw [encAddsImmRd, decode, h24]
  simp only [decodeAddSubImm, h22, if_true, r0, r5, himm]

include hd hn in
theorem decode_encSubsImmRd (imm12 : U32) :
    decode (encSubsImmRd rd rn imm12) =
      some (.addSubImm true true (xreg rd) (xreg rn) (imm12.setWidth 12)) := by
  obtain ⟨h24, h22, himm, r5, r0⟩ :=
    @fields_encImm12 rd rn hd hn 0xF1000000 0xF1 0 imm12 (by decide) (by decide) rfl
  rw [encSubsImmRd, decode, h24]
  simp only [decodeAddSubImm, h22, if_true, r0, r5, himm]

include hn in
theorem decode_encSubsImm (imm12 : U32) :
    decode (encSubsImm rn imm12) =
      some (.addSubImm true true 31 (xreg rn) (imm12.setWidth 12)) := by
  rw [encSubsImm_eq]
  exact decode_encSubsImmRd (by decide) hn imm12

include hn in
theorem decode_encAddsImm (imm12 : U32) :
    decode (encAddsImm rn imm12) =
      some (.addSubImm false true 31 (xreg rn) (imm12.setWidth 12)) := by
  rw [encAddsImm_eq]
  exact decode_encAddsImmRd (by decide) hn imm12

include hd hn in
theorem decode_encLdr (imm12 : U32) :
    decode (encLdr rd rn imm12) = some (.ldr (xreg rd) (xreg rn) (imm12.setWidth 12)) := by
  obtain ⟨h24, h22, himm, r5, r0⟩ :=
    @fields_encImm12 rd rn hd hn 0xF9400000 0xF9 1 imm12 (by decide) (by decide) rfl
  rw [encLdr, decode, h24]
  simp only [decodeLoadStore, h22, if_true, r0, r5, himm]

include hd hn in
theorem decode_encStr (imm12 : U32) :
    decode (encStr rd rn imm12) = some (.str (xreg rd) (xreg rn) (imm12.setWidth 12)) := by
  obtain ⟨h24, h22, himm, r5, r0⟩ :=
    @fields_encImm12 rd rn hd hn 0xF9000000 0xF9 0 imm12 (by decide) (by decide) rfl
  rw [encStr, decode, h24]
  simp only [decodeLoadStore, h22, if_true, r0, r5, himm, Nat.zero_ne_one, if_false]

include hd hn in
/-- The fields of an encoder with two registers and ones in the rest. -/
theorem fields_encRegs2 {base : Word} {top f21 f16 f10 : Nat} (ht : top < 256) (h21 : f21 < 8)
    (h16 : f16 < 32) (h10 : f10 < 64)
    (hb : base.toNat = top * 2 ^ 24 + f21 * 2 ^ 21 + f16 * 2 ^ 16 + f10 * 2 ^ 10) :
    bits (encRegs2 base rd rn) 24 8 = top ∧ bits (encRegs2 base rd rn) 21 3 = f21 ∧
      bits (encRegs2 base rd rn) 10 6 = f10 ∧ bits (encRegs2 base rd rn) 16 5 = f16 ∧
      regAt (encRegs2 base rd rn) 5 = xreg rn ∧ regAt (encRegs2 base rd rn) 0 = xreg rd := by
  have hval := @toNat_encRegs2 base rd rn (by omega) hd hn
  obtain ⟨h24, h21', h10', h16', -, r5, r0⟩ :=
    @fields_reg (encRegs2 base rd rn) top f21 f16 f10 rn.toNat rd.toNat ht h21 h16 h10 hn hd
      (by omega)
  exact ⟨h24, h21', h10', h16', by rw [r5, xreg_eq hn], by rw [r0, xreg_eq hd]⟩

include hd hn in
theorem decode_encLdar : decode (encLdar rd rn) = some (.ldar (xreg rd) (xreg rn)) := by
  obtain ⟨h24, h21, h10, h16, r5, r0⟩ := @fields_encRegs2 rd rn hd hn 0xC8DFFC00 0xC8 6 0x1F 0x3F
    (by decide) (by decide) (by decide) (by decide) rfl
  rw [encLdar, decode, h24]
  simp only [decodeOrdered, h10, h21, h16, and_self, if_true, r0, r5]

include hd hn in
theorem decode_encStlr : decode (encStlr rd rn) = some (.stlr (xreg rd) (xreg rn)) := by
  obtain ⟨h24, h21, h10, h16, r5, r0⟩ := @fields_encRegs2 rd rn hd hn 0xC89FFC00 0xC8 4 0x1F 0x3F
    (by decide) (by decide) (by decide) (by decide) rfl
  rw [encStlr, decode, h24]
  simp only [decodeOrdered, h10, h21, h16, r0, r5]
  rfl

include hd hn in
theorem decode_encLdapr : decode (encLdapr rd rn) = some (.ldapr (xreg rd) (xreg rn)) := by
  obtain ⟨h24, h21, h10, h16, r5, r0⟩ := @fields_encRegs2 rd rn hd hn 0xF8BFC000 0xF8 5 0x1F 0x30
    (by decide) (by decide) (by decide) (by decide) rfl
  rw [encLdapr, decode, h24]
  simp only [decodeAtomic, h10, h21, h16, and_self, if_true, r0, r5]

include hd hn hm in
/-- The fields of an atomic: three registers and a fixed field at bit 10. -/
theorem fields_encRegs {base : Word} {top f21 f10 : Nat} (ht : top < 256) (h21 : f21 < 8)
    (h10 : f10 < 64) (hb : base.toNat = top * 2 ^ 24 + f21 * 2 ^ 21 + f10 * 2 ^ 10) :
    bits (encRegs base rd rn rm) 24 8 = top ∧ bits (encRegs base rd rn rm) 21 3 = f21 ∧
      bits (encRegs base rd rn rm) 10 6 = f10 ∧ regAt (encRegs base rd rn rm) 16 = xreg rm ∧
      regAt (encRegs base rd rn rm) 5 = xreg rn ∧ regAt (encRegs base rd rn rm) 0 = xreg rd := by
  have hval := @toNat_encRegs base rd rn rm (by omega) (by omega) hd hn hm
  obtain ⟨h24, h21', h10', -, r16, r5, r0⟩ :=
    @fields_reg (encRegs base rd rn rm) top f21 rm.toNat f10 rn.toNat rd.toNat ht h21 hm h10 hn
      hd (by omega)
  exact ⟨h24, h21', h10', by rw [r16, xreg_eq hm], by rw [r5, xreg_eq hn], by rw [r0, xreg_eq hd]⟩

include hd hn hm in
theorem decode_encLdaddal :
    decode (encLdaddal rd rn rm) = some (.ldaddal (xreg rd) (xreg rn) (xreg rm)) := by
  obtain ⟨h24, h21, h10, r16, r5, r0⟩ := @fields_encRegs rn rm rd hn hm hd 0xF8E00000 0xF8 7 0
    (by decide) (by decide) (by decide) rfl
  rw [encLdaddal, decode, h24]
  simp only [decodeAtomic, h10, h21, r0, r5, r16]
  rfl

include hd hn hm in
theorem decode_encCasal :
    decode (encCasal rd rn rm) = some (.casal (xreg rd) (xreg rn) (xreg rm)) := by
  obtain ⟨h24, h21, h10, r16, r5, r0⟩ := @fields_encRegs rn rm rd hn hm hd 0xC8E0FC00 0xC8 7 0x3F
    (by decide) (by decide) (by decide) rfl
  rw [encCasal, decode, h24]
  simp only [decodeOrdered, h10, h21, r0, r5, r16]
  rfl

include hd in
/-- The fields of a move-wide encoder. -/
theorem fields_encWide {base : Word} {top : Nat} (imm16 : U32) {hw : CInt} (ht : top < 256)
    (hhw : hw.toNat < 4) (hb : base.toNat = top * 2 ^ 24 + 2 ^ 23) :
    bits (encWide base rd imm16 hw) 24 8 = top ∧ bits (encWide base rd imm16 hw) 23 1 = 1 ∧
      bits (encWide base rd imm16 hw) 21 2 = hw.toNat ∧
      immAt (encWide base rd imm16 hw) 5 16 = imm16.setWidth 16 ∧
      regAt (encWide base rd imm16 hw) 0 = xreg rd := by
  have hval := @toNat_encWide base rd imm16 hw (by omega) hd hhw
  obtain ⟨h24, h23, h21, himm, r0⟩ :=
    @fields_wide (encWide base rd imm16 hw) top hw.toNat (imm16.toNat % 2 ^ 16) rd.toNat ht hhw
      (by omega) hd (by omega)
  refine ⟨h24, h23, h21, ?_, by rw [r0, xreg_eq hd]⟩
  rw [himm]
  apply BitVec.eq_of_toNat_eq
  simp

include hd in
theorem decode_encMovz (imm16 : U32) {hw : CInt} (hhw : hw.toNat < 4) :
    decode (encMovz rd imm16 hw) =
      some (.moveWide false (xreg rd) (imm16.setWidth 16) ⟨hw.toNat, hhw⟩) := by
  obtain ⟨h24, h23, h21, himm, r0⟩ :=
    @fields_encWide rd hd 0xD2800000 0xD2 imm16 hw (by decide) hhw rfl
  rw [encMovz, decode, h24]
  simp only [decodeMoveWide, h23, if_true, r0, himm, h21]

include hd in
theorem decode_encMovk (imm16 : U32) {hw : CInt} (hhw : hw.toNat < 4) :
    decode (encMovk rd imm16 hw) =
      some (.moveWide true (xreg rd) (imm16.setWidth 16) ⟨hw.toNat, hhw⟩) := by
  obtain ⟨h24, h23, h21, himm, r0⟩ :=
    @fields_encWide rd hd 0xF2800000 0xF2 imm16 hw (by decide) hhw rfl
  rw [encMovk, decode, h24]
  simp only [decodeMoveWide, h23, if_true, r0, himm, h21]

include hd in
theorem decode_encCset (cond : CInt) :
    decode (encCset rd cond) = some (.csinc (xreg rd) 31 31 (xcond (cond ^^^ 1))) := by
  have hc : ((cond ^^^ 1) &&& 0xf).toNat < 2 ^ 4 := by rw [and_f_toNat]; omega
  have hb : bits (0x9A9F07E0 : Word) 12 4 = 0 := by decide
  have h1 : ((0x9A9F07E0 : Word) ||| ((cond ^^^ 1) &&& 0xf) <<< 12).toNat =
      0x9A9F07E0 + (cond ^^^ 1).toNat % 2 ^ 4 * 2 ^ 12 := by
    rw [toNat_or_shiftLeft hc (by decide) hb, and_f_toNat]
    rfl
  have hval : (encCset rd cond).toNat =
      0x9A9F07E0 + (cond ^^^ 1).toNat % 2 ^ 4 * 2 ^ 12 + rd.toNat := by
    rw [encCset, or_reg0 hd (by omega), h1]
  obtain ⟨h24, h21, -, -, r16, r5, r0⟩ :=
    @fields_reg (encCset rd cond) 0x9A 4 31 ((cond ^^^ 1).toNat % 2 ^ 4 * 4 + 1) 31 rd.toNat
      (by decide) (by decide) (by decide) (by omega) (by decide) hd (by omega)
  have h10 : bits (encCset rd cond) 10 2 = 1 := by rw [bits, hval]; omega
  have h12 : bits (encCset rd cond) 12 4 = (cond ^^^ 1).toNat % 16 := by rw [bits, hval]; omega
  rw [decode, h24]
  simp only [decodeCondSelect, h21, h10, h12, r16, r5, r0, and_self, if_true, xreg_eq hd]
  rfl

end Decode

/-- A conditional branch fresh from the encoder, not patched yet. -/
theorem decode_encBcond (cond : CInt) :
    decode (encBcond cond) = some (.bcond (xcond cond) 0) := by
  have hc : (cond &&& 0xf).toNat < 2 ^ 4 := by rw [and_f_toNat]; omega
  have hb : bits (0x54000000 : Word) 0 4 = 0 := by decide
  have hval : (encBcond cond).toNat = 0x54000000 + cond.toNat % 2 ^ 4 := by
    rw [encBcond, toNat_or_low hc hb, and_f_toNat]
    rfl
  have h24 : bits (encBcond cond) 24 8 = 0x54 := by rw [bits, hval]; omega
  have h4 : bits (encBcond cond) 4 1 = 0 := by rw [bits, hval]; omega
  have h0 : bits (encBcond cond) 0 4 = cond.toNat % 16 := by rw [bits, hval]; omega
  have h5 : bits (encBcond cond) 5 19 = 0 := by rw [bits, hval]; omega
  rw [decode, h24]
  simp only [decodeCondBranch, h4, h0, h5, immAt, if_true]
  rfl

theorem decode_encRet : decode encRet = some (.ret 30) := by decide

theorem decode_encB : decode encB = some (.b 0) := by decide

theorem decode_encDmb (fence : CInt) :
    decode (encDmb fence) =
      some (.dmb (if fence = fenceLd then .ishld else if fence = fenceSt then .ishst else .ish)) := by
  unfold encDmb
  split
  · decide
  · split <;> decide

end Oryx
