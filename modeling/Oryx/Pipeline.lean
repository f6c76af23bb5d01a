/-
Oryx/Pipeline.lean

The decoder, the translator and the linker, one after the other.

They agree by convention only: the translator takes any IR and the linker any
unit.  What the decoder gives out is IR the translator takes, and what the
translator builds passes every check of the linker, also read back from its
serialized form (`pipeline_accepts`).
-/
import Oryx.DecodeBlock
import Oryx.Preservation

namespace Oryx

open A64

/-! ### From the decoder to the translator -/

theorem regField_lt (r : X86.Reg) : (regField r).toNat < 16 := by
  revert r
  decide

/-- The op of an instruction is no memory access, and its fields are in range. -/
theorem insnIr_fields {next : U64} {i : X86.Insn} {g : OryxGinsn} (h : insnIr next i = some g) :
    (∃ op, g.opcode = some op ∧ op ≠ .load ∧ op ≠ .store) ∧ g.rd.toNat < 16 ∧ g.rn.toNat < 16 := by
  have hzero : (0 : CInt).toNat < 16 := by decide
  cases i with
  | endbr64 => cases h
  | alu op dst src =>
    cases h
    refine ⟨⟨aluIr op, GuestOp.ofCode_code _, ?_, ?_⟩, regField_lt dst, regField_lt src⟩
    · cases op <;> exact GuestOp.noConfusion
    · cases op <;> exact GuestOp.noConfusion
  | aluImm op dst imm =>
    cases h
    refine ⟨⟨immIr op, GuestOp.ofCode_code _, ?_, ?_⟩, regField_lt dst, hzero⟩
    · cases op <;> exact GuestOp.noConfusion
    · cases op <;> exact GuestOp.noConfusion
  | mov dst src =>
    cases h
    exact ⟨⟨.movRr, rfl, GuestOp.noConfusion, GuestOp.noConfusion⟩, regField_lt dst,
      regField_lt src⟩
  | movImm dst imm =>
    cases h
    exact ⟨⟨.movRi, rfl, GuestOp.noConfusion, GuestOp.noConfusion⟩, regField_lt dst, hzero⟩
  | lea dst base disp =>
    cases h
    exact ⟨⟨.lea, rfl, GuestOp.noConfusion, GuestOp.noConfusion⟩, regField_lt dst,
      regField_lt base⟩
  -- the fields that a form leaves out are zero
  | push src =>
    cases h
    exact ⟨⟨.push, rfl, GuestOp.noConfusion, GuestOp.noConfusion⟩, regField_lt src, hzero⟩
  | pop dst =>
    cases h
    exact ⟨⟨.pop, rfl, GuestOp.noConfusion, GuestOp.noConfusion⟩, regField_lt dst, hzero⟩
  | call rel =>
    cases h
    exact ⟨⟨.call, rfl, GuestOp.noConfusion, GuestOp.noConfusion⟩, hzero, hzero⟩
  | jcc cond rel =>
    cases h
    exact ⟨⟨.br, rfl, GuestOp.noConfusion, GuestOp.noConfusion⟩, hzero, hzero⟩
  | jmp rel =>
    cases h
    exact ⟨⟨.jmp, rfl, GuestOp.noConfusion, GuestOp.noConfusion⟩, hzero, hzero⟩
  | ret =>
    cases h
    exact ⟨⟨.x86ret, rfl, GuestOp.noConfusion, GuestOp.noConfusion⟩, hzero, hzero⟩

/-- Every op of a run comes from one of its instructions. -/
theorem mem_runOps {pc : U64} {run : List X86.Encoded} {g : OryxGinsn} (h : g ∈ runOps pc run) :
    ∃ next i, insnIr next i = some g := by
  induction run generalizing pc with
  | nil => cases h
  | cons e run ih =>
    rw [runOps] at h
    rcases List.mem_append.mp h with h | h
    · exact ⟨_, e.insn, Option.mem_toList.mp h⟩
    · exact ih h

/-- **The translator takes what the decoder gives out.** -/
theorem translates_decoded {img : OryxX86Image} {pc : U64} {cap : Nat} {ops : List OryxGinsn}
    {len : U32} (hcap : cap ≤ 2 ^ 20) (h : oryxX86DecodeBlock img pc cap = .ok ops len)
    (cfg : TransCfg) (profileId : U32) : ∃ r, oryxTranslateEx ops cfg profileId = .ok r := by
  obtain ⟨run, hrun, rfl, -⟩ := blockAt_of_ok h
  obtain ⟨body, last, heq, hbody, hlast⟩ := runOps_eq_append hrun.isBlock pc
  rw [oryxTranslateEx_isOk_iff]
  refine ⟨⟨?_, Nat.le_trans hrun.fits hcap, fun i hi => ?_, body, last, heq, hbody, hlast⟩,
    fun i hi hmem => ?_⟩
  · rw [heq, List.length_append, List.length_singleton]
    omega
  · obtain ⟨next, j, hj⟩ := mem_runOps hi
    obtain ⟨⟨op, hop, -⟩, hrd, hrn⟩ := insnIr_fields hj
    exact ⟨⟨op, hop⟩, i.regsOk_iff.mpr ⟨hrd, hrn⟩⟩
  · obtain ⟨next, j, hj⟩ := mem_runOps hi
    obtain ⟨⟨op, hop, hload, hstore⟩, -⟩ := insnIr_fields hj
    rcases hmem with hmem | hmem
    · exact absurd (Option.some.inj (hop.symm.trans hmem)) hload
    · exact absurd (Option.some.inj (hop.symm.trans hmem)) hstore

/-! ### From the translator to the linker -/

/-- The branch at the word `n` leads to the stub of `pc`. -/
def BranchReaches (ws : List Word) (n : Nat) (pc : U64) : Prop :=
  ∃ w k, ws[n]? = some w ∧ (ws.drop k).take 5 = setpcWords pc ∧
    ((∃ off : BitVec 26, decode w = some (.b off) ∧ (n : Int) + off.toInt = k) ∨
      ∃ (cond : Fin 16) (off : BitVec 19),
        decode w = some (.bcond cond off) ∧ (n : Int) + off.toInt = k)

/-- The unit holds the words `ws`, and passes every check of the linker for a block that ends
with `last`. -/
structure PassesLinker (cfg : TransCfg) (ws : List Word) (last : OryxGinsn) (tu : OryxTu) :
    Prop where
  code : tu.code.val = wordBytes ws
  codeLen : tu.code.count.toNat = 4 * ws.length
  nonempty : tu.code.count ≠ 0
  aligned : tu.code.count &&& 3 = 0
  relocs : tu.relocs.val.length ≤ 1
  plain : tu.relocs.val = [] → ws.getLast? = some aarch64Ret
  reloc : ∀ r, tu.relocs.val = [r] → r.kind = relocBranchGuestPc ∧
    r.offset.toNat = tu.code.count.toNat - 4 ∧ r.guestTarget = last.target ∧
    ∃ w, ws.getLast? = some w ∧
      ((∃ off, decode w = some (.b off)) ∨ ∃ cond off, decode w = some (.bcond cond off))
  exitsBr : last.opcode = some .br →
    tu.exits.val = [last.target, cfg.guestPc + cfg.guestLen.setWidth 64]
  exitsJump : last.opcode = some .jmp ∨ last.opcode = some .call → tu.exits.val = [last.target]
  linked : ∃ exe, oryxExecMapLinked tu = .ok exe ∧ (∀ r, tu.relocs.val = [r] →
    BranchReaches exe.words (r.offset.toNat / 4) r.guestTarget) ∧
    (last.opcode = some .br → (exe.words.drop ws.length).take 5 =
      setpcWords (cfg.guestPc + cfg.guestLen.setWidth 64))

section Link

variable {cfg : TransCfg} {tu : OryxTu} {pre : List Word} {last : OryxGinsn} {op : GuestOp}

/-- A relocation at the last word. -/
theorem reloc_last {w : Word} (hcode : tu.code.val = wordBytes (pre ++ [w])) :
    (BitVec.ofNat 32 (4 * pre.length)).toNat = tu.code.count.toNat - 4 ∧
      (BitVec.ofNat 32 (4 * pre.length)).toNat / 4 = pre.length := by
  obtain ⟨hlen, -, -⟩ := codeLen_ok hcode
  obtain ⟨hsite, -⟩ := reloc_ok hcode
  omega

/-- The checks on a relocation at the last word, a branch. -/
theorem reloc_checked {w : Word} (hcode : tu.code.val = wordBytes (pre ++ [w]))
    (hrelocs : tu.relocs.val =
      [⟨BitVec.ofNat 32 (4 * pre.length), relocBranchGuestPc, last.target⟩])
    (hw : (∃ off, decode w = some (.b off)) ∨ ∃ cond off, decode w = some (.bcond cond off)) :
    tu.relocs.val.length ≤ 1 ∧ tu.relocs.val ≠ [] ∧ ∀ r, tu.relocs.val = [r] →
      r.kind = relocBranchGuestPc ∧ r.offset.toNat = tu.code.count.toNat - 4 ∧
      r.guestTarget = last.target ∧ ∃ w', (pre ++ [w]).getLast? = some w' ∧
        ((∃ off, decode w' = some (.b off)) ∨ ∃ cond off, decode w' = some (.bcond cond off)) := by
  rw [hrelocs]
  refine ⟨Nat.le_refl 1, List.cons_ne_nil _ _, fun r hr => ?_⟩
  cases hr
  exact ⟨rfl, (reloc_last hcode).1, rfl, w, by simp, hw⟩

theorem length_movimmWords_le (reg : CInt) (v : U64) : (movimmWords reg v).length ≤ 4 := by
  rw [movimmWords, List.length_cons]
  exact Nat.succ_le_succ (List.length_filterMap_le _ [1, 2, 3])

theorem length_termFront_le (i : OryxGinsn) (op : GuestOp) : (termFront i op).length ≤ 6 := by
  cases op with
  | call =>
    have hmov := length_movimmWords_le oryxScratch i.imm
    rw [termFront, List.length_append]
    exact Nat.add_le_add_right hmov 2
  | x86ret => exact Nat.le_add_right 2 4
  | _ => exact Nat.zero_le 6

theorem wordBytes_injective {ws ws' : List Word} (h : wordBytes ws = wordBytes ws') : ws = ws' := by
  rw [← words_wordBytes ws, h, words_wordBytes]

/-- A unit of one of the translator's forms passes the linker. -/
theorem UnitForm.passes {ws : List Word} (hop : last.opcode = some op)
    (hemit : tu.code.val = wordBytes ws) (hroom : 4 * pre.length + 24 < 2 ^ 32)
    (h : UnitForm tu pre last (cfg.guestPc + cfg.guestLen.setWidth 64) op) :
    PassesLinker cfg ws last tu := by
  have hother : ∀ {op'}, last.opcode = some op' → op' = op := fun h' =>
    Option.some.inj (h'.symm.trans hop)
  cases h with
  | br code relocs exits =>
    cases wordBytes_injective (hemit.symm.trans code)
    obtain ⟨hlen, hne, hand⟩ := codeLen_ok code
    obtain ⟨hone, hsome, hreloc⟩ :=
      reloc_checked code relocs (Or.inr ⟨_, _, decode_encBcond _⟩)
    have hlink := linked_br hroom code relocs exits
    refine ⟨code, by rw [hlen]; simp, hne, hand, hone, fun hnil => absurd hnil hsome, hreloc,
      fun _ => exits, ?_, _, hlink, ?_, ?_⟩
    · rintro (h' | h') <;> cases hother h'
    · intro r hr
      rw [relocs] at hr
      cases hr
      rw [words_wordBytes, (reloc_last code).2]
      -- the patched branch jumps over the fall-through stub
      refine ⟨patchedBcond (armCond last.cc), pre.length + 6, by simp, ?_,
        Or.inr ⟨_, _, decode_patchedBcond last.cc, rfl⟩⟩
      rw [← List.drop_drop, List.drop_left]
      rfl
    · intro _
      rw [words_wordBytes, List.length_append, ← List.drop_drop, List.drop_left]
      rfl
  | jump kind code relocs exits =>
    cases wordBytes_injective (hemit.symm.trans code)
    obtain ⟨hlen, hne, hand⟩ := codeLen_ok code
    obtain ⟨hone, hsome, hreloc⟩ := reloc_checked code relocs (Or.inl ⟨_, decode_encB⟩)
    have hlink := linked_jmp code relocs exits
    refine ⟨code, by rw [hlen]; simp, hne, hand, hone, fun hnil => absurd hnil hsome, hreloc,
      ?_, fun _ => exits, _, hlink, ?_, ?_⟩
    · intro h'
      cases hother h'
      rcases kind with h' | h' <;> cases h'
    · intro r hr
      rw [relocs] at hr
      cases hr
      rw [words_wordBytes, (reloc_last code).2]
      -- the patched branch is the one to the next word
      refine ⟨0x14000001, pre.length + 1, by simp, ?_, Or.inl ⟨1, by decide, rfl⟩⟩
      rw [← List.drop_drop, List.drop_left]
      rfl
    · intro h'
      cases hother h'
      rcases kind with h' | h' <;> cases h'
  | ret kind code relocs =>
    cases wordBytes_injective (hemit.symm.trans code)
    obtain ⟨hlen, hne, hand⟩ := codeLen_ok code
    have hlink := linked_ret code relocs
    -- no relocation: the last word is the RET
    have hnone : ∀ r, tu.relocs.val ≠ [r] := by
      intro r hr
      rw [relocs] at hr
      cases hr
    refine ⟨code, by rw [hlen]; simp, hne, hand, by rw [relocs]; exact Nat.zero_le 1, ?_,
      fun r hr => absurd hr (hnone r), ?_, ?_, _, hlink, fun r hr => absurd hr (hnone r), ?_⟩
    · intro _
      simp
      rfl
    · intro h'
      cases hother h'
      rcases kind with h' | h' <;> cases h'
    · rintro (h' | h') <;> cases hother h' <;> rcases kind with h' | h' <;> cases h'
    · intro h'
      cases hother h'
      rcases kind with h' | h' <;> cases h'

end Link

/-- **The linker takes what the translator builds.** -/
theorem passesLinker_translated {ops : List OryxGinsn} {cfg : TransCfg} {profileId : U32}
    {tu : OryxTu} {st : OryxMmStats} (htrans : oryxTranslateEx ops cfg profileId = .ok (tu, st)) :
    ∃ body last, ops = body ++ [last] ∧
      PassesLinker cfg (ops.flatMap (opWords cfg)) last tu := by
  obtain ⟨body, last, ds, dl, h⟩ := oryxTranslateEx_ok htrans
  obtain ⟨op, hop, -, hterm, -⟩ := h.last_op
  refine ⟨body, last, h.ops_eq, (h.unitForm htrans hop hterm).passes hop (translated_code htrans).1 ?_⟩
  have hbody := decode_code h.body_lowers
  have h1 := length_blockInsns_le cfg body
  have h2 := h.length_le
  have h3 := length_termFront_le last op
  rw [h.ops_eq, List.length_append, List.length_singleton] at h2
  rw [List.length_append, hbody.length]
  omega

/-- **The pipeline takes its own output**: the translator what the decoder gives out, under every
policy and strength, and the linker what the translator builds, also after it has been written
and read back. -/
theorem pipeline_accepts :
    (∀ (img : OryxX86Image) (pc : U64) (cap : Nat) (ops : List OryxGinsn) (len : U32),
      cap ≤ 2 ^ 20 → oryxX86DecodeBlock img pc cap = .ok ops len →
      ∀ (cfg : TransCfg) (profileId : U32), ∃ r, oryxTranslateEx ops cfg profileId = .ok r) ∧
    ∀ (ops : List OryxGinsn) (cfg : TransCfg) (profileId : U32) (tu : OryxTu) (st : OryxMmStats),
      oryxTranslateEx ops cfg profileId = .ok (tu, st) →
      ∃ body last, ops = body ++ [last] ∧
        PassesLinker cfg (ops.flatMap (opWords cfg)) last tu ∧
        ∃ tu', oryxTuParse (oryxTuSerialize tu) = .ok tu' ∧
          PassesLinker cfg (ops.flatMap (opWords cfg)) last tu' := by
  refine ⟨fun img pc cap ops len hcap h => translates_decoded hcap h, ?_⟩
  intro ops cfg profileId tu st htrans
  obtain ⟨body, last, hops, hpass⟩ := passesLinker_translated htrans
  exact ⟨body, last, hops, hpass, tu, oryxTuParse_serialize tu, hpass⟩

/-- The ops of the entry block of `sum_to_n`. -/
def entryOps : List OryxGinsn :=
  [ginsn .testRr 7 7 0, { ginsn .br 0 0 0 with cc := gccLe, target := 0x400027 }]

/-- The block goes through, with its relocation, up to the linker. -/
theorem pipeline_accepts_entry :
    (oryxX86DecodeBlock entryImage 0x400000 16 = .ok entryOps 9 ∧
      ∃ r, oryxTranslateEx entryOps (blockCfg .drf .rcpc) 0 = .ok r) ∧
      ∃ tu st, oryxTranslateEx entryOps (blockCfg .drf .rcpc) 0 = .ok (tu, st) ∧
        tu.relocs.val = [⟨4, relocBranchGuestPc, 0x400027⟩] ∧
        ∃ body last, entryOps = body ++ [last] ∧
          PassesLinker (blockCfg .drf .rcpc) (entryOps.flatMap (opWords (blockCfg .drf .rcpc)))
            last tu ∧
          ∃ tu', oryxTuParse (oryxTuSerialize tu) = .ok tu' ∧
            PassesLinker (blockCfg .drf .rcpc) (entryOps.flatMap (opWords (blockCfg .drf .rcpc)))
              last tu' :=
  ⟨⟨rfl, pipeline_accepts.1 entryImage 0x400000 16 _ 9 (by decide) rfl _ 0⟩,
    _, _, rfl, rfl, pipeline_accepts.2 entryOps (blockCfg .drf .rcpc) 0 _ _ rfl⟩

end Oryx
