/-
Oryx/DecodeStep.lean

One instruction of the decoder against the opcode map.

`insnIr` is the op an instruction stands for.  `decodeStep_whole` says what
one turn of the loop makes of an encoded instruction, `decodeStep_cut` what it
makes of the first bytes of one when the image ends there, and
`decodeStep_sound` that nothing else is taken.  All go through the switch row
by row.
-/
import Oryx.Decoder
import Oryx.GuestSemantics
import Mathlib.Tactic.FinCases

namespace Oryx

open Decoder X86

/-! ### What the instructions stand for -/

/-- A register number as an operand field. -/
def regField (r : X86.Reg) : CInt := BitVec.ofNat 32 r.val

def aluIr : AluOp → GuestOp
  | .add => .addRr
  | .or => .orRr
  | .and => .andRr
  | .sub => .subRr
  | .xor => .xorRr
  | .cmp => .cmpRr
  | .test => .testRr

def immIr : ImmOp → GuestOp
  | .add => .addRi
  | .sub => .subRi
  | .cmp => .cmpRi

def condIr : X86.Cond → CInt
  | .e => gccEq
  | .ne => gccNe
  | .l => gccLt
  | .ge => gccGe
  | .le => gccLe
  | .g => gccGt

/-- The op of an instruction that ends at `next`. -/
def insnIr (next : U64) : X86.Insn → Option OryxGinsn
  | .endbr64 => none
  | .mov dst src => some (ginsn .movRr (regField dst) (regField src) 0)
  | .movImm dst imm => some (ginsn .movRi (regField dst) 0 imm)
  | .alu op dst src => some (ginsn (aluIr op) (regField dst) (regField src) 0)
  | .aluImm op dst imm => some (ginsn (immIr op) (regField dst) 0 imm)
  | .lea dst base disp => some (ginsn .lea (regField dst) (regField base) disp)
  | .push src => some (ginsn .push (regField src) 0 0)
  | .pop dst => some (ginsn .pop (regField dst) 0 0)
  | .call rel => some { ginsn .call 0 0 next with target := next + rel }
  | .jcc cond rel => some { ginsn .br 0 0 0 with cc := condIr cond, target := next + rel }
  | .jmp rel => some { ginsn .jmp 0 0 0 with target := next + rel }
  | .ret => some (ginsn .x86ret 0 0 0)

/-- What a turn of the loop comes to for an instruction that ends at `next`. -/
def actionOf (next : U64) (i : X86.Insn) : Action :=
  match insnIr next i with
  | none => .skip
  | some g => .emit g i.isTerminator

/-! ### Fields -/

/-- A bit of a prefix as a C `int`. -/
def bit (b : Bool) : CInt := BitVec.ofNat 32 b.toNat

theorem bit_eq_zero_iff (b : Bool) : bit b = 0 ↔ b = false := by
  cases b <;> decide

theorem bit_ne_zero_iff (b : Bool) : bit b ≠ 0 ↔ b = true := by
  rw [ne_eq, bit_eq_zero_iff, Bool.not_eq_false]

theorem putLe_one (v : Byte) : putLe 1 v = [v] := by
  have h := v.isLt
  show [BitVec.ofNat 8 v.toNat] = [v]
  rw [BitVec.ofNat_toNat, BitVec.setWidth_eq]

/-- A register field and its extension bit. -/
theorem field_or_bit (hi : Bool) (lo : Fin 8) :
    BitVec.ofNat 32 lo.val ||| (bit hi <<< 3) = regField (extend hi lo) := by
  revert lo
  cases hi <;> decide

theorem rex_byte (p : Rex) : 0x40 ≤ p.byte ∧ p.byte ≤ 0x4F ∧
    ((p.byte.setWidth 32 : CInt) >>> 3) &&& 1 = bit p.w ∧
    ((p.byte.setWidth 32 : CInt) >>> 2) &&& 1 = bit p.r ∧
    (p.byte.setWidth 32 : CInt) &&& 1 = bit p.b := by
  obtain ⟨w, r, x, b⟩ := p
  cases w <;> cases r <;> cases x <;> cases b <;> decide

theorem exists_rex {b : Byte} (h : 0x40 ≤ b ∧ b ≤ 0x4F) : ∃ p : Rex, b = p.byte := by
  have hall : ∀ k : Fin 16, ∃ p : Rex, (0x40 : Byte) + BitVec.ofNat 8 k.val = p.byte := by
    intro k
    refine ⟨⟨k.val.testBit 3, k.val.testBit 2, k.val.testBit 1, k.val.testBit 0⟩, ?_⟩
    revert k
    decide
  obtain ⟨h0, h1⟩ := h
  rw [BitVec.le_def] at h0 h1
  have h0 : 64 ≤ b.toNat := h0
  have h1 : b.toNat ≤ 79 := h1
  obtain ⟨p, hp⟩ := hall ⟨b.toNat - 64, by omega⟩
  refine ⟨p, ?_⟩
  rw [← hp]
  apply BitVec.eq_of_toNat_eq
  rw [BitVec.toNat_add, BitVec.toNat_ofNat]
  show _ = (64 + _) % 256
  dsimp only
  omega

/-- A byte in a range of eight opcodes. -/
theorem exists_withLow {base b : Byte} {n : Nat} (h0 : base ≤ b) (h1 : b.toNat < base.toNat + n) :
    ∃ lo : Fin n, b = withLow base lo := by
  rw [BitVec.le_def] at h0
  refine ⟨⟨b.toNat - base.toNat, by omega⟩, ?_⟩
  apply BitVec.eq_of_toNat_eq
  have hb := b.isLt
  rw [withLow, BitVec.toNat_add, BitVec.toNat_ofNat]
  dsimp only
  omega

theorem modrm_fields (mod : Fin 4) (reg rm : Fin 8) :
    ((modrm mod reg rm).setWidth 32 : CInt) >>> 6 = BitVec.ofNat 32 mod.val ∧
    (((modrm mod reg rm).setWidth 32 : CInt) >>> 3) &&& 7 = BitVec.ofNat 32 reg.val ∧
    ((modrm mod reg rm).setWidth 32 : CInt) &&& 7 = BitVec.ofNat 32 rm.val := by
  revert mod reg rm
  decide

theorem exists_modrm (b : Byte) : ∃ mod reg rm, b = modrm mod reg rm := by
  have hb := b.isLt
  refine ⟨⟨b.toNat / 64, by omega⟩, ⟨b.toNat / 8 % 8, by omega⟩, ⟨b.toNat % 8, by omega⟩, ?_⟩
  apply BitVec.eq_of_toNat_eq
  rw [modrm, BitVec.toNat_ofNat]
  dsimp only
  omega

theorem ofNat_fin_inj {n : Nat} (hn : n ≤ 2 ^ 32) {i j : Fin n} :
    (BitVec.ofNat 32 i.val : CInt) = BitVec.ofNat 32 j.val ↔ i = j := by
  have hi := i.isLt
  have hj := j.isLt
  rw [← BitVec.toNat_inj, BitVec.toNat_ofNat, BitVec.toNat_ofNat, Nat.mod_eq_of_lt (by omega),
    Nat.mod_eq_of_lt (by omega), Fin.val_inj]

/-! ### ModRM -/

theorem consumes_byte (c : Cursor) (v : Byte) :
    Consumes DecodeErr.format (fetch .format 1) c v [v] := by
  have h := @Consumes.fetch DecodeErr 1 .format c v
  rwa [putLe_one] at h

theorem consumes_cons {α : Type} {f : Byte → Dec α} {c : Cursor} {v : Byte} {a : α}
    {bs : List Byte} (h : Consumes .format (f v) (c.advance 1) a bs) :
    Consumes .format (fetch .format 1 >>= f) c a (v :: bs) :=
  (consumes_byte c v).bind h

theorem consumes_direct (c : Cursor) (r b : Bool) (reg rm : Fin 8) :
    Consumes .format (decodeModrm (bit r) (bit b)) c
      ⟨regField (extend r reg), false, regField (extend b rm), 0, 0⟩ [modrm 3 reg rm] := by
  obtain ⟨hmod, hreg, hrm⟩ := modrm_fields 3 reg rm
  apply consumes_cons
  simp only [hmod, hreg, hrm, field_or_bit]
  exact .pure _ _ _

theorem consumes_mem (c : Cursor) {r b : Bool} {reg : Fin 8} {base : X86.Reg} {disp : U64}
    {bs : List Byte} (h : MemForm b reg base disp bs) :
    Consumes .format (decodeModrm (bit r) (bit b)) c
      ⟨regField (extend r reg), true, 0, regField base, disp⟩ bs := by
  have hsib : ∀ rm : Fin 8, rm ≠ 4 → (BitVec.ofNat 32 rm.val : CInt) ≠ 4 := fun rm hne he =>
    hne ((@ofNat_fin_inj 8 (by decide) rm 4).mp he)
  have hrip : ∀ rm : Fin 8, rm ≠ 5 → (BitVec.ofNat 32 rm.val : CInt) ≠ 5 := fun rm hne he =>
    hne ((@ofNat_fin_inj 8 (by decide) rm 5).mp he)
  cases h with
  -- without a displacement rm 5 would be the RIP form
  | disp0 rm h4 h5 =>
    obtain ⟨hmod, hreg, hrm⟩ := modrm_fields 0 reg rm
    apply consumes_cons
    simp only [hmod, hreg, hrm, field_or_bit]
    rw [if_neg (by decide), if_neg (hsib rm h4), if_neg fun h => hrip rm h5 h.1,
      if_neg (by decide), if_neg (by decide)]
    exact .pure _ _ _
  | disp8 rm d h4 =>
    obtain ⟨hmod, hreg, hrm⟩ := modrm_fields 1 reg rm
    apply consumes_cons
    simp only [hmod, hreg, hrm, field_or_bit]
    rw [if_neg (by decide), if_neg (hsib rm h4), if_neg fun h => absurd h.2 (by decide),
      if_pos (by decide)]
    exact (@Consumes.fetch _ 1 _ _ d).map _
  | disp32 rm d h4 =>
    obtain ⟨hmod, hreg, hrm⟩ := modrm_fields 2 reg rm
    apply consumes_cons
    simp only [hmod, hreg, hrm, field_or_bit]
    rw [if_neg (by decide), if_neg (hsib rm h4), if_neg fun h => absurd h.2 (by decide),
      if_neg (by decide), if_pos (by decide)]
    exact (@Consumes.fetch _ 4 _ _ d).map _

/-! ### The rows of the switch -/

section Rows

variable {p : Rex} {c : Cursor}

theorem consumes_regDirect (hw : p.w = true) (reg rm : Fin 8) :
    Consumes .format (regDirect (bit p.w) (bit p.r) (bit p.b)) c
      ⟨regField (extend p.r reg), false, regField (extend p.b rm), 0, 0⟩ [modrm 3 reg rm] := by
  have h : Consumes .format (regDirect (bit p.w) (bit p.r) (bit p.b)) c
      ⟨regField (extend p.r reg), false, regField (extend p.b rm), 0, 0⟩
      ([modrm 3 reg rm] ++ []) := by
    refine .bind (consumes_direct c p.r p.b reg rm) ?_
    rw [if_neg]
    · exact .pure _ _ _
    · rintro (h | h)
      · cases h
      · exact (bit_ne_zero_iff p.w).mpr hw h
  rwa [List.append_nil] at h

/-- The register and the condition in the low bits of an opcode. -/
theorem low_register (lo : Fin 8) :
    ((withLow 0xB8 lo).setWidth 32 : CInt) - 0xB8 = BitVec.ofNat 32 lo.val ∧
    ((withLow 0x50 lo).setWidth 32 : CInt) - 0x50 = BitVec.ofNat 32 lo.val ∧
    ((withLow 0x58 lo).setWidth 32 : CInt) - 0x58 = BitVec.ofNat 32 lo.val := by
  revert lo
  decide

theorem low_nibble (cc : Fin 16) :
    ((withLow 0x70 cc).setWidth 32 : CInt) &&& 0xf = BitVec.ofNat 32 cc.val ∧
    ((withLow 0x80 cc).setWidth 32 : CInt) &&& 0xf = BitVec.ofNat 32 cc.val ∧
      0x80 ≤ withLow 0x80 cc ∧ withLow 0x80 cc ≤ 0x8F := by
  revert cc
  decide

theorem x86ccToGcc_code (cond : X86.Cond) :
    x86ccToGcc (BitVec.ofNat 32 cond.code.val) = some (condIr cond) := by
  cases cond <;> decide

theorem consumes_emitJcc (cond : X86.Cond) (rel : U64) :
    Consumes .format (emitJcc (BitVec.ofNat 32 cond.code.val) rel) c
      (actionOf c.pc (.jcc cond rel)) [] := by
  refine .of_ok fun buf => ?_
  rw [emitJcc, x86ccToGcc_code]
  rfl

/-- The digit is what is left of the extended field. -/
theorem digit_of_field (hi : Bool) (lo : Fin 8) :
    regField (extend hi lo) &&& 7 = BitVec.ofNat 32 lo.val := by
  revert lo
  cases hi <;> decide

theorem groupGop_digit (op : ImmOp) : groupGop (BitVec.ofNat 32 op.digit.val) = some (immIr op) := by
  cases op <;> decide

theorem consumes_group {opByte : Byte} {imm : U64} {bs : List Byte} (hw : p.w = true) (op : ImmOp)
    (rm : Fin 8) (himm : Consumes .format (groupImm opByte) (c.advance 1) imm bs) :
    Consumes .format
      (do
        let m ← regDirect (bit p.w) (bit p.r) (bit p.b)
        let imm ← groupImm opByte
        match groupGop (m.reg &&& 7) with
        | none => fail .unsupported
        | some gop => emitOp (ginsn gop m.rmReg 0 imm)) c
      (.emit (ginsn (immIr op) (regField (extend p.b rm)) 0 imm) false)
      (modrm 3 op.digit rm :: bs) := by
  refine .bind (consumes_regDirect hw op.digit rm) ?_
  dsimp only
  rw [digit_of_field, groupGop_digit]
  exact himm.map _

/-! Opcodes with a register or a condition in their low bits. -/

theorem decodeOp_movImm (lo : Fin 8) (w r : CInt) (b : Bool) :
    decodeOp w r (bit b) (withLow 0xB8 lo) = movOpImm w (regField (extend b lo)) := by
  rw [← field_or_bit]
  fin_cases lo <;> rfl

theorem decodeOp_push (lo : Fin 8) (w r : CInt) (b : Bool) :
    decodeOp w r (bit b) (withLow 0x50 lo) =
      emitOp (ginsn .push (regField (extend b lo)) 0 0) := by
  rw [← field_or_bit]
  fin_cases lo <;> rfl

theorem decodeOp_pop (lo : Fin 8) (w r : CInt) (b : Bool) :
    decodeOp w r (bit b) (withLow 0x58 lo) =
      emitOp (ginsn .pop (regField (extend b lo)) 0 0) := by
  rw [← field_or_bit]
  fin_cases lo <;> rfl

theorem decodeOp_jcc8 (cc : Fin 16) (w r b : CInt) :
    decodeOp w r b (withLow 0x70 cc) = (do
      let rel ← fetch .format 1
      emitJcc (BitVec.ofNat 32 cc.val) (BitVec.signExtend 64 rel)) := by
  fin_cases cc <;> rfl

/-- A relative transfer, whose target counts from the end of the instruction. -/
theorem consumes_rel {n : Nat} {f : BitVec (8 * n) → Dec Action} (rel : BitVec (8 * n))
    {a : Action} (h : Consumes .format (f rel) (c.advance (putLe n rel).length) a []) :
    Consumes .format (fetch .format n >>= f) c a (putLe n rel) := by
  have hbind := (Consumes.fetch DecodeErr.format c rel).bind h
  rwa [List.append_nil] at hbind

/-- **A row of the opcode map** is decoded to its op. -/
theorem consumes_row {i : X86.Insn} {op : Byte} {bs : List Byte} (h : Row p i op bs) :
    Consumes .format (decodeOp (bit p.w) (bit p.r) (bit p.b) op) c
      (actionOf (c.advance bs.length).pc i) bs := by
  have hbit := (bit_ne_zero_iff p.w).mpr
  cases h with
  | movMR hw reg rm => exact (consumes_regDirect hw reg rm).map _
  | movRM hw reg rm => exact (consumes_regDirect hw reg rm).map _
  | aluMR hw op reg rm => cases op <;> exact (consumes_regDirect hw reg rm).map _
  | cmpRM hw reg rm => exact (consumes_regDirect hw reg rm).map _
  -- the digit is 0, whatever REX.R adds to it
  | movMI hw rm imm =>
    refine .bind (consumes_direct c p.r p.b 0 rm) ?_
    dsimp only
    rw [if_neg]
    · exact (@Consumes.fetch _ 4 _ _ imm).map _
    · rintro (h | h | h)
      · cases h
      · exact hbit hw h
      · revert h
        cases p.r <;> decide
  | lea hw reg hmem =>
    rw [← List.append_nil bs]
    refine .bind (consumes_mem c hmem) ?_
    dsimp only
    rw [if_neg]
    · exact .pure _ _ _
    · rintro (h | h)
      · cases h
      · exact hbit hw h
  | aluMI8 hw op rm imm => exact consumes_group hw op rm ((@Consumes.fetch _ 1 _ _ imm).map _)
  | aluMI32 hw op rm imm => exact consumes_group hw op rm ((@Consumes.fetch _ 4 _ _ imm).map _)
  -- REX.W chooses between the two widths of the constant
  | movOI64 hw lo imm =>
    rw [decodeOp_movImm, movOpImm, if_pos (hbit hw)]
    exact (@Consumes.fetch _ 8 _ _ imm).map _
  | movOI32 hw lo imm =>
    rw [decodeOp_movImm, movOpImm, if_neg (not_not_intro ((bit_eq_zero_iff _).mpr hw))]
    exact (@Consumes.fetch _ 4 _ _ imm).map _
  | push lo =>
    rw [decodeOp_push]
    exact .pure _ _ _
  | pop lo =>
    rw [decodeOp_pop]
    exact .pure _ _ _
  | jcc8 cond rel =>
    rw [decodeOp_jcc8]
    exact @consumes_rel c 1 _ rel _ (consumes_emitJcc cond _)
  -- the second opcode byte is consumed first
  | jcc32 cond rel =>
    obtain ⟨-, hcc, hrange⟩ := low_nibble cond.code
    apply consumes_cons
    rw [if_pos hrange, hcc, List.length_cons, Nat.add_comm, ← Cursor.advance_advance]
    exact @consumes_rel (c.advance 1) 4 _ rel _ (consumes_emitJcc cond _)
  | call rel => exact @consumes_rel c 4 _ rel _ (.of_ok fun _ => rfl)
  | jmp8 rel => exact @consumes_rel c 1 _ rel _ (.of_ok fun _ => rfl)
  | jmp32 rel => exact @consumes_rel c 4 _ rel _ (.of_ok fun _ => rfl)
  | ret => exact .pure _ _ _

end Rows

/-! ### What the switch takes -/

section Sound

variable {p : Rex} {buf : List Byte} {c c' : Cursor}

theorem span_of_fetch_byte {v : Byte} (h : fetch DecodeErr.format 1 buf c = .ok (v, c')) :
    Span buf c c' [v] := by
  have hspan := span_of_fetch h
  rwa [putLe_one] at hspan

theorem decodeModrm_sound {r b : Bool} {m : Modrm}
    (h : decodeModrm (bit r) (bit b) buf c = .ok (m, c')) :
    (∃ reg rm, m = ⟨regField (extend r reg), false, regField (extend b rm), 0, 0⟩ ∧
      Span buf c c' [modrm 3 reg rm]) ∨
    ∃ reg base disp bs, m = ⟨regField (extend r reg), true, 0, regField base, disp⟩ ∧
      MemForm b reg base disp bs ∧ Span buf c c' bs := by
  obtain ⟨byte, c₁, hb, h⟩ := bind_ok_iff.mp h
  have hspan := span_of_fetch_byte hb
  obtain ⟨mod, reg, rm, rfl⟩ := exists_modrm byte
  obtain ⟨hmod, hreg, hrm⟩ := modrm_fields mod reg rm
  simp only [hmod, hreg, hrm, field_or_bit] at h
  split at h
  · -- mod 3: a register
    next h3 =>
    cases (@ofNat_fin_inj 4 (by decide) mod 3).mp h3
    obtain ⟨rfl, rfl⟩ := pure_eq_ok_iff.mp h
    exact Or.inl ⟨reg, rm, rfl, hspan⟩
  next h3 =>
  split at h
  · exact absurd h fail_ne_ok
  next h4 =>
  -- a SIB byte was refused
  have hsib : rm ≠ 4 := by
    rintro rfl
    exact h4 rfl
  split at h
  · exact absurd h fail_ne_ok
  next h5 =>
  split at h
  · next h1 =>
    cases (@ofNat_fin_inj 4 (by decide) mod 1).mp h1
    obtain ⟨d, c₂, hd, h⟩ := bind_ok_iff.mp h
    obtain ⟨rfl, rfl⟩ := pure_eq_ok_iff.mp h
    exact Or.inr ⟨reg, _, _, _, rfl, .disp8 rm d hsib, hspan.trans (span_of_fetch hd)⟩
  next h1 =>
  split at h
  · next h2 =>
    cases (@ofNat_fin_inj 4 (by decide) mod 2).mp h2
    obtain ⟨d, c₂, hd, h⟩ := bind_ok_iff.mp h
    obtain ⟨rfl, rfl⟩ := pure_eq_ok_iff.mp h
    exact Or.inr ⟨reg, _, _, _, rfl, .disp32 rm d hsib, hspan.trans (span_of_fetch hd)⟩
  next h2 =>
  -- no displacement is left
  have h0 : mod = 0 := by
    have n1 : mod ≠ 1 := fun he => h1 (by rw [he]; rfl)
    have n2 : mod ≠ 2 := fun he => h2 (by rw [he]; rfl)
    have n3 : mod ≠ 3 := fun he => h3 (by rw [he]; rfl)
    omega
  subst h0
  -- the RIP form was refused
  have hrip : rm ≠ 5 := by
    rintro rfl
    exact h5 ⟨rfl, rfl⟩
  obtain ⟨rfl, rfl⟩ := pure_eq_ok_iff.mp h
  exact Or.inr ⟨reg, _, _, _, rfl, .disp0 rm hsib hrip, hspan⟩

theorem regDirect_sound {m : Modrm}
    (h : regDirect (bit p.w) (bit p.r) (bit p.b) buf c = .ok (m, c')) :
    p.w = true ∧ ∃ reg rm, m = ⟨regField (extend p.r reg), false, regField (extend p.b rm), 0, 0⟩ ∧
      Span buf c c' [modrm 3 reg rm] := by
  obtain ⟨m', c₁, hm, h⟩ := bind_ok_iff.mp h
  rcases ite_ok_iff.mp h with ⟨-, h⟩ | ⟨hok, h⟩
  · exact absurd h fail_ne_ok
  rw [not_or] at hok
  obtain ⟨rfl, rfl⟩ := pure_eq_ok_iff.mp h
  have hw : p.w = true := (bit_ne_zero_iff _).mp hok.2
  rcases decodeModrm_sound hm with hd | ⟨_, _, _, _, rfl, -⟩
  · exact ⟨hw, hd⟩
  · exact absurd rfl hok.1

theorem groupGop_sound {lo : Fin 8} {gop : GuestOp}
    (h : groupGop (BitVec.ofNat 32 lo.val) = some gop) : ∃ op, lo = ImmOp.digit op ∧ gop = immIr op := by
  fin_cases lo <;> cases h
  · exact ⟨.add, rfl, rfl⟩
  · exact ⟨.sub, rfl, rfl⟩
  · exact ⟨.cmp, rfl, rfl⟩

theorem x86ccToGcc_sound {cc : Fin 16} {gcc : CInt}
    (h : x86ccToGcc (BitVec.ofNat 32 cc.val) = some gcc) :
    ∃ cond, cc = X86.Cond.code cond ∧ gcc = condIr cond := by
  fin_cases cc <;> cases h
  · exact ⟨.e, rfl, rfl⟩
  · exact ⟨.ne, rfl, rfl⟩
  · exact ⟨.l, rfl, rfl⟩
  · exact ⟨.ge, rfl, rfl⟩
  · exact ⟨.le, rfl, rfl⟩
  · exact ⟨.g, rfl, rfl⟩

theorem emitJcc_sound {cc : Fin 16} {rel : U64} {a : Action}
    (h : emitJcc (BitVec.ofNat 32 cc.val) rel buf c = .ok (a, c')) :
    c' = c ∧ ∃ cond, cc = X86.Cond.code cond ∧ a = actionOf c.pc (.jcc cond rel) := by
  obtain ⟨cur, c₁, hcur, h⟩ := bind_ok_iff.mp h
  cases hcur
  cases hgcc : x86ccToGcc (BitVec.ofNat 32 cc.val) with
  | none =>
    rw [hgcc] at h
    exact absurd h fail_ne_ok
  | some gcc =>
    rw [hgcc] at h
    obtain ⟨rfl, rfl⟩ := pure_eq_ok_iff.mp h
    obtain ⟨cond, rfl, rfl⟩ := x86ccToGcc_sound hgcc
    exact ⟨rfl, cond, rfl, rfl⟩

theorem groupImm_sound {op : Byte} {imm : U64}
    (hop : op = 0x83 ∨ op = 0x81) (h : groupImm op buf c = .ok (imm, c')) :
    ∃ bs, Span buf c c' bs ∧ (p.w = true → ∀ (k : ImmOp) (rm : Fin 8),
      Row p (.aluImm k (extend p.b rm) imm) op (modrm 3 k.digit rm :: bs)) := by
  rcases hop with rfl | rfl
  · obtain ⟨v, c₁, hv, h⟩ := bind_ok_iff.mp h
    obtain ⟨rfl, rfl⟩ := pure_eq_ok_iff.mp h
    exact ⟨_, span_of_fetch hv, fun hw k rm => .aluMI8 hw k rm v⟩
  · obtain ⟨v, c₁, hv, h⟩ := bind_ok_iff.mp h
    obtain ⟨rfl, rfl⟩ := pure_eq_ok_iff.mp h
    exact ⟨_, span_of_fetch hv, fun hw k rm => .aluMI32 hw k rm v⟩

theorem movOpImm_sound {lo : Fin 8} {a : Action}
    (h : movOpImm (bit p.w) (regField (extend p.b lo)) buf c = .ok (a, c')) :
    ∃ i bs, Row p i (withLow 0xB8 lo) bs ∧ Span buf c c' bs ∧ a = actionOf c'.pc i := by
  unfold movOpImm at h
  split at h
  · next hw =>
    have hw : p.w = true := (bit_ne_zero_iff _).mp hw
    obtain ⟨imm, c₁, himm, h⟩ := bind_ok_iff.mp h
    obtain ⟨rfl, rfl⟩ := pure_eq_ok_iff.mp h
    exact ⟨_, _, .movOI64 hw lo imm, span_of_fetch himm, rfl⟩
  · next hw =>
    have hw : p.w = false := (bit_eq_zero_iff _).mp (not_not.mp hw)
    obtain ⟨imm, c₁, himm, h⟩ := bind_ok_iff.mp h
    obtain ⟨rfl, rfl⟩ := pure_eq_ok_iff.mp h
    exact ⟨_, _, .movOI32 hw lo imm, span_of_fetch himm, rfl⟩

/-- A register form, with what is emitted for it. -/
theorem registerForm_sound {mk : Modrm → OryxGinsn} {a : Action}
    (h : (regDirect (bit p.w) (bit p.r) (bit p.b) >>= fun m => emitOp (mk m)) buf c =
      .ok (a, c')) :
    p.w = true ∧ ∃ reg rm, Span buf c c' [modrm 3 reg rm] ∧ a = .emit
      (mk ⟨regField (extend p.r reg), false, regField (extend p.b rm), 0, 0⟩) false := by
  obtain ⟨m, c₁, hm, h⟩ := bind_ok_iff.mp h
  obtain ⟨rfl, rfl⟩ := pure_eq_ok_iff.mp h
  obtain ⟨hw, reg, rm, rfl, hspan⟩ := regDirect_sound hm
  exact ⟨hw, reg, rm, hspan, rfl⟩

/-- A relative transfer, with what is emitted for it. -/
theorem relativeForm_sound {n : Nat} {mk : BitVec (8 * n) → U64 → OryxGinsn} {a : Action}
    (h : (fetch .format n >>= fun rel => here >>= fun cur => emitLast (mk rel cur)) buf c =
      .ok (a, c')) :
    ∃ rel, Span buf c c' (putLe n rel) ∧ a = .emit (mk rel c'.pc) true := by
  obtain ⟨rel, c₁, hrel, h⟩ := bind_ok_iff.mp h
  obtain ⟨cur, c₂, hcur, h⟩ := bind_ok_iff.mp h
  cases hcur
  obtain ⟨rfl, rfl⟩ := pure_eq_ok_iff.mp h
  exact ⟨rel, span_of_fetch hrel, rfl⟩

theorem lea_sound {a : Action}
    (h : decodeOp (bit p.w) (bit p.r) (bit p.b) 0x8D buf c = .ok (a, c')) :
    ∃ i bs, Row p i 0x8D bs ∧ Span buf c c' bs ∧ a = actionOf c'.pc i := by
  obtain ⟨m, c₁, hm, h⟩ := bind_ok_iff.mp h
  rcases ite_ok_iff.mp h with ⟨-, h⟩ | ⟨hok, h⟩
  · exact absurd h fail_ne_ok
  rw [not_or] at hok
  obtain ⟨rfl, rfl⟩ := pure_eq_ok_iff.mp h
  have hw : p.w = true := (bit_ne_zero_iff _).mp hok.2
  rcases decodeModrm_sound hm with ⟨_, _, rfl, -⟩ | ⟨reg, base, disp, bs, rfl, hmem, hspan⟩
  · exact absurd rfl hok.1
  · exact ⟨_, _, .lea hw reg hmem, hspan, rfl⟩

/-- `MOV r/m, imm32`: the digit must be 0, whatever REX.R is. -/
theorem movRmImm_sound {a : Action}
    (h : decodeOp (bit p.w) (bit p.r) (bit p.b) 0xC7 buf c = .ok (a, c')) :
    ∃ i bs, Row p i 0xC7 bs ∧ Span buf c c' bs ∧ a = actionOf c'.pc i := by
  obtain ⟨m, c₁, hm, h⟩ := bind_ok_iff.mp h
  rcases ite_ok_iff.mp h with ⟨-, h⟩ | ⟨hok, h⟩
  · exact absurd h fail_ne_ok
  rw [not_or, not_or] at hok
  obtain ⟨hreg, hrexW, hdigit⟩ := hok
  obtain ⟨imm, c₂, himm, h⟩ := bind_ok_iff.mp h
  obtain ⟨rfl, rfl⟩ := pure_eq_ok_iff.mp h
  have hw : p.w = true := (bit_ne_zero_iff _).mp hrexW
  rcases decodeModrm_sound hm with ⟨reg, rm, rfl, hspan⟩ | ⟨_, _, _, _, rfl, -⟩
  · have hzero := not_not.mp hdigit
    rw [digit_of_field] at hzero
    cases (@ofNat_fin_inj 8 (by decide) reg 0).mp hzero
    exact ⟨_, _, .movMI hw rm imm, hspan.trans (span_of_fetch himm), rfl⟩
  · exact absurd rfl hreg

/-- Group 1: the immediate is read before the digit is looked at. -/
theorem group_sound {op : Byte} {a : Action} (hop : op = 0x83 ∨ op = 0x81)
    (h : (do
      let m ← regDirect (bit p.w) (bit p.r) (bit p.b)
      let imm ← groupImm op
      match groupGop (m.reg &&& 7) with
      -- another digit is refused
      | none => fail .unsupported
      | some gop => emitOp (ginsn gop m.rmReg 0 imm) : Dec Action) buf c = .ok (a, c')) :
    ∃ i bs, Row p i op bs ∧ Span buf c c' bs ∧ a = actionOf c'.pc i := by
  obtain ⟨m, c₁, hm, h⟩ := bind_ok_iff.mp h
  obtain ⟨imm, c₂, himm, h⟩ := bind_ok_iff.mp h
  obtain ⟨hw, reg, rm, rfl, hspan⟩ := regDirect_sound hm
  obtain ⟨bs, himmSpan, hrow⟩ := @groupImm_sound p _ _ _ _ _ hop himm
  dsimp only at h
  rw [digit_of_field] at h
  cases hgop : groupGop (BitVec.ofNat 32 reg.val) with
  | none =>
    rw [hgop] at h
    exact absurd h fail_ne_ok
  | some gop =>
    rw [hgop] at h
    obtain ⟨rfl, rfl⟩ := pure_eq_ok_iff.mp h
    obtain ⟨k, rfl, rfl⟩ := groupGop_sound hgop
    exact ⟨_, _, hrow hw k rm, hspan.trans himmSpan, rfl⟩

/-- The two-byte opcodes. -/
theorem jcc32_sound {a : Action}
    (h : decodeOp (bit p.w) (bit p.r) (bit p.b) 0x0F buf c = .ok (a, c')) :
    ∃ i bs, Row p i 0x0F bs ∧ Span buf c c' bs ∧ a = actionOf c'.pc i := by
  obtain ⟨op2, c₁, hop2, h⟩ := bind_ok_iff.mp h
  rcases ite_ok_iff.mp h with ⟨hrange, h⟩ | ⟨-, h⟩
  · obtain ⟨cc, rfl⟩ := @exists_withLow 0x80 op2 16 hrange.1 (Nat.lt_succ_of_le hrange.2)
    obtain ⟨rel, c₂, hfetch, h⟩ := bind_ok_iff.mp h
    rw [(low_nibble cc).2.1] at h
    obtain ⟨rfl, cond, rfl, rfl⟩ := emitJcc_sound h
    exact ⟨_, _, .jcc32 cond rel, (span_of_fetch_byte hop2).trans (span_of_fetch hfetch), rfl⟩
  · exact absurd h fail_ne_ok

/-- The switch takes the rows of the opcode map only. -/
theorem decodeOp_sound {op : Byte} {a : Action} (hc : c.off ≤ buf.length)
    (h : decodeOp (bit p.w) (bit p.r) (bit p.b) op buf c = .ok (a, c')) :
    ∃ i bs, Row p i op bs ∧ Span buf c c' bs ∧ a = actionOf c'.pc i := by
  -- one case for each test of the switch, in its order
  unfold decodeOp at h
  rw [ite_ok_iff] at h
  rcases h with ⟨rfl, h⟩ | ⟨-, h⟩
  · obtain ⟨hw, reg, rm, hspan, rfl⟩ := registerForm_sound h
    exact ⟨_, _, .movMR hw reg rm, hspan, rfl⟩
  rw [ite_ok_iff] at h
  rcases h with ⟨rfl, h⟩ | ⟨-, h⟩
  · obtain ⟨hw, reg, rm, hspan, rfl⟩ := registerForm_sound h
    exact ⟨_, _, .movRM hw reg rm, hspan, rfl⟩
  rw [ite_ok_iff] at h
  rcases h with ⟨rfl, h⟩ | ⟨-, h⟩
  · exact lea_sound h
  rw [ite_ok_iff] at h
  rcases h with ⟨rfl, h⟩ | ⟨-, h⟩
  · exact movRmImm_sound h
  rw [ite_ok_iff] at h
  rcases h with ⟨hop, h⟩ | ⟨-, h⟩
  · obtain ⟨hw, reg, rm, hspan, rfl⟩ := registerForm_sound h
    rcases hop with rfl | rfl | rfl | rfl | rfl | rfl | rfl
    · exact ⟨_, _, .aluMR hw .add reg rm, hspan, rfl⟩
    · exact ⟨_, _, .aluMR hw .sub reg rm, hspan, rfl⟩
    · exact ⟨_, _, .aluMR hw .xor reg rm, hspan, rfl⟩
    · exact ⟨_, _, .aluMR hw .and reg rm, hspan, rfl⟩
    · exact ⟨_, _, .aluMR hw .or reg rm, hspan, rfl⟩
    · exact ⟨_, _, .aluMR hw .cmp reg rm, hspan, rfl⟩
    · exact ⟨_, _, .aluMR hw .test reg rm, hspan, rfl⟩
  rw [ite_ok_iff] at h
  rcases h with ⟨rfl, h⟩ | ⟨-, h⟩
  · obtain ⟨hw, reg, rm, hspan, rfl⟩ := registerForm_sound h
    exact ⟨_, _, .cmpRM hw reg rm, hspan, rfl⟩
  rw [ite_ok_iff] at h
  rcases h with ⟨hop, h⟩ | ⟨-, h⟩
  · exact group_sound hop h
  rw [ite_ok_iff] at h
  rcases h with ⟨hop, h⟩ | ⟨-, h⟩
  · obtain ⟨lo, rfl⟩ := @exists_withLow 0xB8 op 8 hop.1 (Nat.lt_succ_of_le hop.2)
    rw [(low_register lo).1, field_or_bit] at h
    exact movOpImm_sound h
  rw [ite_ok_iff] at h
  rcases h with ⟨hop, h⟩ | ⟨-, h⟩
  · obtain ⟨lo, rfl⟩ := @exists_withLow 0x50 op 8 hop.1 (Nat.lt_succ_of_le hop.2)
    rw [(low_register lo).2.1, field_or_bit] at h
    obtain ⟨rfl, rfl⟩ := pure_eq_ok_iff.mp h
    exact ⟨_, _, .push lo, .refl hc, rfl⟩
  rw [ite_ok_iff] at h
  rcases h with ⟨hop, h⟩ | ⟨-, h⟩
  · obtain ⟨lo, rfl⟩ := @exists_withLow 0x58 op 8 hop.1 (Nat.lt_succ_of_le hop.2)
    rw [(low_register lo).2.2, field_or_bit] at h
    obtain ⟨rfl, rfl⟩ := pure_eq_ok_iff.mp h
    exact ⟨_, _, .pop lo, .refl hc, rfl⟩
  rw [ite_ok_iff] at h
  rcases h with ⟨rfl, h⟩ | ⟨-, h⟩
  · obtain ⟨rel, hspan, rfl⟩ := relativeForm_sound h
    exact ⟨_, _, .call rel, hspan, rfl⟩
  rw [ite_ok_iff] at h
  rcases h with ⟨hop, h⟩ | ⟨-, h⟩
  · obtain ⟨cc, rfl⟩ := @exists_withLow 0x70 op 16 hop.1 (Nat.lt_succ_of_le hop.2)
    obtain ⟨rel, c₁, hfetch, h⟩ := bind_ok_iff.mp h
    rw [(low_nibble cc).1] at h
    obtain ⟨rfl, cond, rfl, rfl⟩ := emitJcc_sound h
    exact ⟨_, _, .jcc8 cond rel, span_of_fetch hfetch, rfl⟩
  rw [ite_ok_iff] at h
  rcases h with ⟨rfl, h⟩ | ⟨-, h⟩
  · exact jcc32_sound h
  rw [ite_ok_iff] at h
  rcases h with ⟨rfl, h⟩ | ⟨-, h⟩
  · obtain ⟨rel, hspan, rfl⟩ := relativeForm_sound h
    exact ⟨_, _, .jmp8 rel, hspan, rfl⟩
  rw [ite_ok_iff] at h
  rcases h with ⟨rfl, h⟩ | ⟨-, h⟩
  · obtain ⟨rel, hspan, rfl⟩ := relativeForm_sound h
    exact ⟨_, _, .jmp32 rel, hspan, rfl⟩
  rw [ite_ok_iff] at h
  rcases h with ⟨rfl, h⟩ | ⟨-, h⟩
  · obtain ⟨rfl, rfl⟩ := pure_eq_ok_iff.mp h
    exact ⟨_, _, .ret, .refl hc, rfl⟩
  exact absurd h fail_ne_ok

end Sound

/-! ### Prefixed instructions -/

section Insn

variable {buf : List Byte} {c c' : Cursor}

theorem row_opcode_range {p : Rex} {i : X86.Insn} {op : Byte} {bs : List Byte}
    (h : Row p i op bs) : ¬ (0x40 ≤ op ∧ op ≤ 0x4F) ∧ op ≠ 0xF3 := by
  have hlow : ∀ lo : Fin 8, ∀ base ∈ [(0xB8 : Byte), 0x50, 0x58],
      ¬ (0x40 ≤ withLow base lo ∧ withLow base lo ≤ 0x4F) ∧ withLow base lo ≠ 0xF3 := by decide
  cases h with
  | aluMR hw op reg rm => cases op <;> decide
  | movOI64 hw lo imm | movOI32 hw lo imm => exact hlow lo 0xB8 (by decide)
  | push lo => exact hlow lo 0x50 (by decide)
  | pop lo => exact hlow lo 0x58 (by decide)
  | jcc8 cond rel => cases cond <;> decide
  | _ => decide

/-- An encoded instruction with its prefix. -/
theorem consumes_insn {p : Option Rex} {i : X86.Insn} {op : Byte} {bs : List Byte}
    (h : Row (rexBits p) i op bs) : Consumes .format decodeInsn c
      (actionOf (c.advance (rexBytes p ++ op :: bs).length).pc i) (rexBytes p ++ op :: bs) := by
  cases p with
  | none =>
    have hlen : c.advance (rexBytes none ++ op :: bs).length = (c.advance 1).advance bs.length := by
      rw [Cursor.advance_advance, Nat.add_comm]
      rfl
    rw [hlen]
    apply consumes_cons
    rw [if_neg (row_opcode_range h).1]
    exact @consumes_row Rex.none _ _ _ _ h
  | some p =>
    obtain ⟨hlo, hhi, hw, hr, hb⟩ := rex_byte p
    have hlen : c.advance (rexBytes (some p) ++ op :: bs).length =
        ((c.advance 1).advance 1).advance bs.length := by
      rw [Cursor.advance_advance, Cursor.advance_advance, Nat.add_comm 1 (1 + bs.length),
        Nat.add_comm 1 bs.length]
      rfl
    rw [hlen]
    apply consumes_cons
    rw [if_pos ⟨hlo, hhi⟩]
    apply consumes_cons
    simp only [hw, hr, hb]
    exact @consumes_row p _ _ _ _ h

theorem decodeInsn_sound {a : Action} (h : decodeInsn buf c = .ok (a, c')) :
    ∃ i bs, Encodes i bs ∧ Span buf c c' bs ∧ a = actionOf c'.pc i := by
  obtain ⟨b, c₁, hb, h⟩ := bind_ok_iff.mp h
  have hspan := span_of_fetch_byte hb
  by_cases hrex : 0x40 ≤ b ∧ b ≤ 0x4F
  · rw [if_pos hrex] at h
    obtain ⟨p, rfl⟩ := exists_rex hrex
    obtain ⟨op, c₂, hop, h⟩ := bind_ok_iff.mp h
    have hspan₂ := hspan.trans (span_of_fetch_byte hop)
    obtain ⟨-, -, hw, hr, hb⟩ := rex_byte p
    simp only [hw, hr, hb] at h
    obtain ⟨i, bs, hrow, hrest, rfl⟩ := decodeOp_sound hspan₂.le h
    exact ⟨i, _, .row (some p) hrow, hspan₂.trans hrest, rfl⟩
  · rw [if_neg hrex] at h
    obtain ⟨i, bs, hrow, hrest, rfl⟩ := @decodeOp_sound Rex.none _ _ _ _ _ hspan.le h
    exact ⟨i, _, .row none hrow, hspan.trans hrest, rfl⟩

end Insn

/-! ### One turn of the loop -/

section Step

variable {buf : List Byte} {c c' : Cursor}

theorem getLe_one (v : Byte) (rest : List Byte) : getLe 1 (v :: rest) = v := by
  have h := getLe_putLe_append 1 v rest
  rwa [putLe_one] at h

/-- The byte read `k` bytes on. -/
theorem peek_byte {k : Nat} {v : Byte} (h : (buf.drop c.off)[k]? = some v) :
    (peek k 1 : Dec _) buf c = .ok (v, c) := by
  rw [List.getElem?_drop] at h
  obtain ⟨hlt, hv⟩ := List.getElem?_eq_some_iff.mp h
  rw [peek_of_le hlt, List.drop_eq_getElem_cons hlt, hv, getLe_one]

/-- The test is true just when the four bytes stand at the cursor. -/
theorem isEndbr64_eq (hc : c.off < buf.length) :
    isEndbr64 buf c = .ok (decide ((buf.drop c.off).take 4 = endbr64Bytes), c) := by
  have hlen : (buf.drop c.off).length = buf.length - c.off := List.length_drop
  unfold isEndbr64
  rcases hdrop : buf.drop c.off with - | ⟨b0, rest⟩
  · rw [hdrop] at hlen
    rw [List.length_nil] at hlen
    omega
  rw [hdrop] at hlen
  rw [bind_of_ok _ (peek_byte (by rw [hdrop]; rfl))]
  by_cases h0 : b0 ≠ 0xF3
  · rw [if_pos h0, decide_eq_false]
    · rfl
    · intro h
      exact h0 (List.cons.inj h).1
  rw [if_neg h0]
  have hroom : (hasRoom 4 : Dec Bool) buf c = .ok (decide (4 ≤ (b0 :: rest).length), c) := by
    have hiff : c.off + 4 ≤ buf.length ↔ 4 ≤ (b0 :: rest).length := by omega
    rw [hasRoom, decide_eq_decide.mpr hiff]
  rw [bind_of_ok _ hroom]
  -- fewer than four bytes are no `endbr64`
  have hshort : ∀ l : List Byte, l.length < 4 → decide (l.take 4 = endbr64Bytes) = false := by
    intro l hl
    apply decide_eq_false
    intro h
    have hfour := congrArg List.length h
    rw [List.length_take] at hfour
    exact absurd hfour (by show _ ≠ 4; omega)
  match rest, hdrop with
  | [], _ =>
    rw [hshort [b0] (Nat.lt_of_sub_eq_succ rfl)]
    rfl
  | [b1], _ =>
    rw [hshort [b0, b1] (Nat.lt_of_sub_eq_succ rfl)]
    rfl
  | [b1, b2], _ =>
    rw [hshort [b0, b1, b2] (Nat.lt_of_sub_eq_succ rfl)]
    rfl
  | b1 :: b2 :: b3 :: rest, hdrop =>
    have henough : ¬ decide (4 ≤ (b0 :: b1 :: b2 :: b3 :: rest).length) = false := by simp
    rw [if_neg henough, bind_of_ok _ (peek_byte (by rw [hdrop]; rfl))]
    rw [not_not.mp h0]
    -- byte by byte, each read being in the image
    by_cases h1 : b1 ≠ 0x0F
    · rw [if_pos h1, decide_eq_false]
      · rfl
      · intro h
        exact h1 (List.cons.inj (List.cons.inj h).2).1
    rw [if_neg h1, bind_of_ok _ (peek_byte (by rw [hdrop]; rfl)), not_not.mp h1]
    by_cases h2 : b2 ≠ 0x1E
    · rw [if_pos h2, decide_eq_false]
      · rfl
      · intro h
        exact h2 (List.cons.inj (List.cons.inj (List.cons.inj h).2).2).1
    rw [if_neg h2, bind_of_ok _ (peek_byte (by rw [hdrop]; rfl)), not_not.mp h2]
    have hiff : b3 = 0xFA ↔ List.take 4 (0xF3 :: 0x0F :: 0x1E :: b3 :: rest) = endbr64Bytes := by
      simp [endbr64Bytes]
    rw [decide_eq_decide.mpr hiff]
    rfl

theorem decodeStep_nil (hc : c.off ≤ buf.length) (h : buf.drop c.off = []) :
    decodeStep buf c = .error (.err .format) := by
  have hlen : buf.length ≤ c.off := List.drop_eq_nil_iff.mp h
  exact bind_of_error _ (room_of_lt (by omega))

theorem decodeStep_endbr64 (hc : c.off < buf.length)
    (h : (buf.drop c.off).take 4 = endbr64Bytes) :
    decodeStep buf c = .ok (.skip, c.advance 4) := by
  have htest := isEndbr64_eq hc
  rw [decide_eq_true h] at htest
  rw [decodeStep, bind_of_ok _ (room_of_le hc), bind_of_ok _ htest]
  rfl

theorem decodeStep_insn (hc : c.off < buf.length)
    (h : (buf.drop c.off).take 4 ≠ endbr64Bytes) : decodeStep buf c = decodeInsn buf c := by
  have htest := isEndbr64_eq hc
  rw [decide_eq_false h] at htest
  rw [decodeStep, bind_of_ok _ (room_of_le hc), bind_of_ok _ htest]
  rfl

/-- No instruction but `ENDBR64` starts with its first byte. -/
theorem take_encoded_ne {p : Option Rex} {i : X86.Insn} {op : Byte} {bs rest : List Byte}
    (h : Row (rexBits p) i op bs) :
    ((rexBytes p ++ op :: bs) ++ rest).take 4 ≠ endbr64Bytes := by
  cases p with
  | none =>
    intro htake
    exact (row_opcode_range h).2 (List.cons.inj htake).1
  | some p =>
    intro htake
    have hbyte : p.byte = 0xF3 := (List.cons.inj htake).1
    have hhi := (rex_byte p).2.1
    rw [hbyte] at hhi
    exact absurd hhi (by decide)

theorem off_lt_of_drop (hc : c.off ≤ buf.length) {bs rest : List Byte} (hbs : 0 < bs.length)
    (hdrop : buf.drop c.off = bs ++ rest) : c.off < buf.length := by
  have hlen := congrArg List.length hdrop
  rw [List.length_drop, List.length_append] at hlen
  omega

/-- **An encoded instruction** is taken and comes to its op. -/
theorem decodeStep_whole (e : Encoded) {rest : List Byte} (hc : c.off ≤ buf.length)
    (hdrop : buf.drop c.off = e.bytes ++ rest) :
    decodeStep buf c =
      .ok (actionOf (c.advance e.bytes.length).pc e.insn, c.advance e.bytes.length) := by
  obtain ⟨i, bs, henc⟩ := e
  have hlt := off_lt_of_drop hc henc.length_pos hdrop
  cases henc with
  | endbr64 => exact decodeStep_endbr64 hlt (by rw [hdrop]; rfl)
  | row p h =>
    have hne : (buf.drop c.off).take 4 ≠ endbr64Bytes := by
      rw [hdrop]
      exact take_encoded_ne h
    rw [decodeStep_insn hlt hne]
    exact (consumes_insn h).whole hc hdrop

/-- What is made of the first bytes `t` of an instruction. -/
def cutError (i : X86.Insn) (t : List Byte) : DecodeErr :=
  if i = .endbr64 ∧ t ≠ [] then .unsupported else .format

/-- **An instruction cut short**: only within `ENDBR64` the room is not missed. -/
theorem decodeStep_cut (e : Encoded) {u : List Byte} (hc : c.off ≤ buf.length) (hu : u ≠ [])
    (hbs : e.bytes = buf.drop c.off ++ u) :
    decodeStep buf c = .error (.err (cutError e.insn (buf.drop c.off))) := by
  rcases hdrop : buf.drop c.off with - | ⟨b, t⟩
  · rw [decodeStep_nil hc hdrop, cutError, if_neg fun h => h.2 rfl]
  have hlt : c.off < buf.length := by
    have hlen := congrArg List.length hdrop
    rw [List.length_drop, List.length_cons] at hlen
    omega
  obtain ⟨i, bs, henc⟩ := e
  dsimp only at hbs ⊢
  cases henc with
  -- cut short, it is no `endbr64`, and F3 is no opcode
  | endbr64 =>
    rw [hdrop] at hbs
    have hb : b = 0xF3 := (List.cons.inj hbs).1.symm
    have hne : (buf.drop c.off).take 4 ≠ endbr64Bytes := by
      intro htake
      have hlen := congrArg List.length htake
      have hall := congrArg List.length hbs
      have hpos := List.length_pos_iff.mpr hu
      rw [List.length_append] at hall
      rw [hdrop, List.length_take] at hlen
      have h4 : endbr64Bytes.length = 4 := rfl
      omega
    rw [decodeStep_insn hlt hne, cutError, if_pos ⟨rfl, List.cons_ne_nil b t⟩]
    have hfetch := (consumes_byte c b).whole hc hdrop
    rw [decodeInsn, bind_of_ok _ hfetch, hb]
    rfl
  -- another instruction misses one of its reads
  | row p h =>
    have hne : (buf.drop c.off).take 4 ≠ endbr64Bytes := by
      intro htake
      refine @take_encoded_ne _ _ _ _ [] h ?_
      have hlen := congrArg List.length htake
      rw [List.length_take] at hlen
      have h4 : endbr64Bytes.length = 4 := rfl
      rw [List.append_nil, hbs, List.take_append_of_le_length (by omega), htake]
    have hi : ¬ (i = .endbr64 ∧ b :: t ≠ []) := by
      rintro ⟨rfl, -⟩
      cases h
    rw [decodeStep_insn hlt hne, cutError, if_neg hi]
    exact (consumes_insn h).cut hc hu hbs

/-- Nothing but encoded instructions is taken. -/
theorem decodeStep_sound (hc : c.off ≤ buf.length) {a : Action}
    (h : decodeStep buf c = .ok (a, c')) :
    ∃ e : Encoded, Span buf c c' e.bytes ∧ a = actionOf c'.pc e.insn := by
  rcases Nat.lt_or_eq_of_le hc with hlt | heq
  · by_cases hend : (buf.drop c.off).take 4 = endbr64Bytes
    · rw [decodeStep_endbr64 hlt hend] at h
      cases h
      have hlen := congrArg List.length hend
      rw [List.length_take, List.length_drop] at hlen
      have h4 : endbr64Bytes.length = 4 := rfl
      refine ⟨⟨.endbr64, _, .endbr64⟩, ⟨rfl, by rw [Cursor.advance_off]; omega, ?_⟩, rfl⟩
      have hsplit := List.take_append_drop 4 (buf.drop c.off)
      rw [hend, List.drop_drop] at hsplit
      exact hsplit.symm
    · rw [decodeStep_insn hlt hend] at h
      obtain ⟨i, bs, henc, hspan, rfl⟩ := decodeInsn_sound h
      exact ⟨⟨i, bs, henc⟩, hspan, rfl⟩
  · rw [decodeStep_nil hc (List.drop_eq_nil_iff.mpr (Nat.le_of_eq heq.symm))] at h
    cases h

/-! ### Faults -/

theorem noFault_decodeModrm (r b : CInt) : NoFault (decodeModrm r b) := by
  refine .bind (.fetch _ _) fun byte => ?_
  refine .ite (.pure _) (.ite (.fail _) (.ite (.fail _) ?_))
  refine .ite (.bind (.fetch _ _) fun d => .pure _) ?_
  exact .ite (.bind (.fetch _ _) fun d => .pure _) (.pure _)

theorem noFault_regDirect (w r b : CInt) : NoFault (regDirect w r b) :=
  .bind (noFault_decodeModrm r b) fun _ => .ite (.fail _) (.pure _)

theorem noFault_emitJcc (cc : CInt) (rel : U64) : NoFault (emitJcc cc rel) := by
  refine .bind .here fun cur => ?_
  split
  · exact .fail _
  · exact .pure _

theorem noFault_decodeOp (w r b : CInt) (op : Byte) : NoFault (decodeOp w r b op) := by
  unfold decodeOp
  -- case by case of the switch: every read is a checked one
  refine .ite (.bind (noFault_regDirect w r b) fun _ => .pure _) ?_
  refine .ite (.bind (noFault_regDirect w r b) fun _ => .pure _) ?_
  refine .ite (.bind (noFault_decodeModrm r b) fun _ => .ite (.fail _) (.pure _)) ?_
  refine .ite (.bind (noFault_decodeModrm r b) fun _ =>
    .ite (.fail _) (.bind (.fetch _ _) fun _ => .pure _)) ?_
  refine .ite (.bind (noFault_regDirect w r b) fun _ => .pure _) ?_
  refine .ite (.bind (noFault_regDirect w r b) fun _ => .pure _) ?_
  refine .ite (.bind (noFault_regDirect w r b) fun m => .bind ?_ fun _ => ?_) ?_
  · exact .ite (.bind (.fetch _ _) fun _ => .pure _) (.bind (.fetch _ _) fun _ => .pure _)
  · split
    · exact .fail _
    · exact .pure _
  refine .ite (.ite (.bind (.fetch _ _) fun _ => .pure _) (.bind (.fetch _ _) fun _ => .pure _)) ?_
  refine .ite (.pure _) (.ite (.pure _) ?_)
  refine .ite (.bind (.fetch _ _) fun _ => .bind .here fun _ => .pure _) ?_
  refine .ite (.bind (.fetch _ _) fun _ => noFault_emitJcc _ _) ?_
  refine .ite (.bind (.fetch _ _) fun _ =>
    .ite (.bind (.fetch _ _) fun _ => noFault_emitJcc _ _) (.fail _)) ?_
  refine .ite (.bind (.fetch _ _) fun _ => .bind .here fun _ => .pure _) ?_
  refine .ite (.bind (.fetch _ _) fun _ => .bind .here fun _ => .pure _) ?_
  exact .ite (.pure _) (.fail _)

/-- **No read of a turn** is outside the image. -/
theorem noFault_decodeStep : NoFault decodeStep := by
  intro buf c h
  rcases Nat.lt_or_ge c.off buf.length with hlt | hge
  · by_cases hend : (buf.drop c.off).take 4 = endbr64Bytes
    · rw [decodeStep_endbr64 hlt hend] at h
      cases h
    · rw [decodeStep_insn hlt hend] at h
      refine NoFault.bind (.fetch _ _) (fun b => ?_) buf c h
      exact .ite (.bind (.fetch _ _) fun _ => noFault_decodeOp _ _ _ _) (noFault_decodeOp _ _ _ _)
  · have hroom : decodeStep buf c = .error (.err .format) :=
      bind_of_error _ (room_of_lt (Nat.lt_succ_of_le hge))
    rw [hroom] at h
    cases h

end Step

end Oryx
