/-
Oryx/Acceptance.lean

Which blocks the translator accepts.

`WellFormedBlock` is the IR as `oryxtu.h` documents it.  The translator checks
the frame of a block (`FramedBlock`) as documented, but not the rest: an
ordered access of the acquire and release forms has its own displacement rule
(`Encodable`), and no condition code is looked at.  `oryxTranslateEx_isOk_iff`
says what is accepted, `acceptsExactly_iff` when that is the documented set.
-/
import Oryx.Translate

namespace Oryx

/-! ### The documented IR -/

/-- The record is a terminator. -/
def OryxGinsn.terminates (i : OryxGinsn) : Bool := i.opcode.any GuestOp.isTerminator

/-- The record evaluates a condition code. -/
def OryxGinsn.isConditional (i : OryxGinsn) : Prop := i.opcode = some .br ∨ i.opcode = some .setcc

/-- The length, the opcodes and registers, and the place of the terminator. -/
structure FramedBlock (ops : List OryxGinsn) : Prop where
  nonempty : 1 ≤ ops.length
  small : ops.length ≤ 2 ^ 20
  records : ∀ i ∈ ops, (∃ op, i.opcode = some op) ∧ i.regsOk
  terminator : ∃ body last, ops = body ++ [last] ∧ (∀ i ∈ body, i.terminates = false) ∧
    last.terminates = true

/-- A multiple of 8 from 0 to 32760. -/
def DocumentedDisplacement (imm : U64) : Prop :=
  0 ≤ imm.toInt ∧ imm.toInt ≤ 32760 ∧ imm.toInt % 8 = 0

/-- The displacement of an access and the condition code of a branch or `SETCC`. -/
structure DocumentedInsn (i : OryxGinsn) : Prop where
  displacement : i.isLoadStore → DocumentedDisplacement i.imm
  condition : i.isConditional → i.cc ∈ [gccEq, gccNe, gccLt, gccGe, gccLe, gccGt]

/-- A well-formed block. -/
structure WellFormedBlock (ops : List OryxGinsn) : Prop extends FramedBlock ops where
  insns : ∀ i ∈ ops, DocumentedInsn i

/-! ### What lowers -/

/-- The form chosen for the access can encode its displacement. -/
def Encodable (cfg : TransCfg) (i : OryxGinsn) : Prop :=
  i.isLoadStore →
    if orderedAccess cfg i = true ∧ cfg.strength ≠ .tso then 0 ≤ i.imm.toInt ∧ i.imm.toInt ≤ 0xFFF
    else DocumentedDisplacement i.imm

/-- The scaled forms take the documented displacements. -/
theorem scaledImm12_isSome_iff (imm : U64) :
    (∃ off, scaledImm12 imm = some off) ↔ DocumentedDisplacement imm := by
  have hand : (imm &&& 7).toNat = imm.toNat % 8 := by
    rw [BitVec.toNat_and]
    exact Nat.and_two_pow_sub_one_eq_mod imm.toNat 3
  -- the low three bits, read in the signed number
  have hmod : imm &&& 7 = 0 ↔ imm.toInt % 8 = 0 := by
    rw [← BitVec.toNat_inj, hand, BitVec.toInt_eq_toNat_cond]
    show imm.toNat % 8 = 0 ↔ _
    split <;> omega
  have hshift : (imm.sshiftRight 3).toInt = imm.toInt / 8 := by
    rw [BitVec.toInt_sshiftRight, Int.shiftRight_eq_div_pow]
    rfl
  unfold scaledImm12 DocumentedDisplacement
  rw [hshift]
  split
  · next hno =>
    apply iff_of_false (fun h => nomatch h)
    intro hok
    rcases hno with h | h | h
    · omega
    · exact h (hmod.mpr hok.2.2)
    · omega
  · next hok =>
    rw [not_or, not_or] at hok
    obtain ⟨hpos, halign, hrange⟩ := hok
    have hzero := hmod.mp (not_not.mp halign)
    refine iff_of_true ⟨_, rfl⟩ ⟨by omega, by omega, hzero⟩

theorem lowerLoadStore_isOk_iff (cfg : TransCfg) (s : TransState) {i : OryxGinsn} (load : Bool)
    (hi : i.isLoadStore) :
    (∃ d, lowerLoadStore cfg s i load = .ok d) ↔ Encodable cfg i := by
  have hscaled := scaledImm12_isSome_iff i.imm
  unfold Encodable lowerLoadStore
  rw [forall_prop_of_true hi]
  cases hord : orderedAccess cfg i with
  -- the weak form scales its offset
  | false =>
    rw [if_pos rfl, if_neg fun h => Bool.false_ne_true h.1, ← hscaled]
    cases hoff : scaledImm12 i.imm with
    | none => exact iff_of_false (fun h => nomatch h) fun h => nomatch h
    | some off => cases load <;> exact iff_of_true ⟨_, rfl⟩ ⟨off, rfl⟩
  | true =>
    rw [if_neg fun h => Bool.false_ne_true h.symm]
    -- the fenced form does too, the others add it
    by_cases htso : cfg.strength = .tso
    · rw [if_pos htso, if_neg fun h => h.2 htso, ← hscaled]
      cases hoff : scaledImm12 i.imm with
      | none => exact iff_of_false (fun h => nomatch h) fun h => nomatch h
      | some off => cases load <;> exact iff_of_true ⟨_, rfl⟩ ⟨off, rfl⟩
    · rw [if_neg htso, if_pos (c := true = true ∧ cfg.strength ≠ .tso) ⟨rfl, htso⟩]
      split
      · next hno => exact iff_of_false (fun h => nomatch h) fun h => by omega
      · next hok => cases load <;> exact iff_of_true ⟨_, rfl⟩ (by omega)

theorem not_isLoadStore {i : OryxGinsn} {op : GuestOp} (hop : i.opcode = some op)
    (hload : op ≠ .load) (hstore : op ≠ .store) : ¬ i.isLoadStore := by
  rintro (h | h)
  · exact hload (Option.some.inj (hop.symm.trans h))
  · exact hstore (Option.some.inj (hop.symm.trans h))

/-- The switch fails on accesses only. -/
theorem lowerOp_isOk_iff (cfg : TransCfg) (s : TransState) {i : OryxGinsn} {op : GuestOp}
    (hop : i.opcode = some op) : (∃ d, lowerOp cfg s i op = .ok d) ↔ Encodable cfg i := by
  cases op with
  | load => exact lowerLoadStore_isOk_iff cfg s true (Or.inl hop)
  | store => exact lowerLoadStore_isOk_iff cfg s false (Or.inr hop)
  | _ =>
    refine iff_of_true ⟨_, rfl⟩ fun h => absurd h (not_isLoadStore hop ?_ ?_)
    all_goals exact GuestOp.noConfusion

theorem lowered_isOk_iff (cfg : TransCfg) (i : OryxGinsn) :
    (∃ d, lowered cfg i = .ok d) ↔
      ((∃ op, i.opcode = some op) ∧ i.regsOk) ∧ Encodable cfg i := by
  constructor
  · rintro ⟨d, hd⟩
    obtain ⟨hregs, op, hop, hlow⟩ := lowered_ok hd
    exact ⟨⟨⟨op, hop⟩, hregs⟩, (lowerOp_isOk_iff cfg _ hop).mp ⟨d, hlow⟩⟩
  · rintro ⟨⟨⟨op, hop⟩, hregs⟩, henc⟩
    obtain ⟨d, hd⟩ := (lowerOp_isOk_iff cfg .init hop).mpr henc
    have hinit : ¬ TransState.init.terminated = true := Bool.false_ne_true
    refine ⟨d, ?_⟩
    rw [lowered, lowerInsn, if_neg hinit, if_neg (not_not_intro hregs), hop]
    exact hd

/-- An instruction that lowers terminates exactly when it is a terminator. -/
theorem lowered_terminated {cfg : TransCfg} {i : OryxGinsn} {d : TransState}
    (h : lowered cfg i = .ok d) : d.terminated = i.terminates := by
  obtain ⟨-, op, hop, hlow⟩ := lowered_ok h
  rw [OryxGinsn.terminates, hop]
  show d.terminated = op.isTerminator
  cases hterm : op.isTerminator with
  | true => exact lowerOp_terminates hlow hterm
  | false => exact (lowerOp_keepsControl hlow hterm).terminated

/-! ### What the loop accepts -/

theorem lowerOp_error {cfg : TransCfg} {s : TransState} {i : OryxGinsn} {op : GuestOp}
    {e : OryxErr} (h : lowerOp cfg s i op = .error e) : e = .inval := by
  have haccess : ∀ load, lowerLoadStore cfg s i load = .error e → e = .inval := by
    intro load h
    unfold lowerLoadStore at h
    grind
  cases op with
  | load => exact haccess true h
  | store => exact haccess false h
  | _ => cases h

theorem lowerInsn_error {cfg : TransCfg} {s : TransState} {i : OryxGinsn} {e : OryxErr}
    (h : lowerInsn cfg s i = .error e) : e = .inval := by
  unfold lowerInsn at h
  split at h
  · -- behind a terminator
    cases h
    rfl
  split at h
  · -- a register out of range
    cases h
    rfl
  split at h
  · -- no opcode
    cases h
    rfl
  · exact lowerOp_error h

/-- The loop fails with `ORYX_ERR_INVAL` only. -/
theorem lowerBlock_error {cfg : TransCfg} {ops : List OryxGinsn} {s : TransState} {e : OryxErr}
    (h : lowerBlock cfg s ops = .error e) : e = .inval := by
  induction ops generalizing s with
  | nil => cases h
  | cons i ops ih =>
    rw [lowerBlock] at h
    cases hi : lowerInsn cfg s i with
    | ok s' =>
      rw [hi] at h
      exact ih h
    | error e' =>
      rw [hi] at h
      cases h
      exact lowerInsn_error hi

/-- What lowers without ending the block is no terminator. -/
theorem LowersTo.not_terminates {cfg : TransCfg} {body : List OryxGinsn} {ds : List TransState}
    (h : LowersTo cfg body ds) (hopen : ∀ d ∈ ds, d.terminated = false) :
    ∀ i ∈ body, i.terminates = false := by
  induction h with
  | nil => exact fun _ hi => nomatch hi
  | cons hj _ ih =>
    intro i hi
    rcases List.mem_cons.mp hi with rfl | hi
    · rw [← lowered_terminated hj]
      exact hopen _ List.mem_cons_self
    · exact ih (fun d hd => hopen d (List.mem_cons_of_mem _ hd)) i hi

/-- A block whose instructions all lower, with one terminator at its end, goes through the
loop. -/
theorem lowerBlock_framed {cfg : TransCfg} {body : List OryxGinsn} {last : OryxGinsn}
    {s : TransState} (hs : s.terminated = false)
    (hbody : ∀ i ∈ body, (∃ d, lowered cfg i = .ok d) ∧ i.terminates = false)
    (hlast : ∃ d, lowered cfg last = .ok d) (hterm : last.terminates = true) :
    ∃ s', lowerBlock cfg s (body ++ [last]) = .ok s' ∧ s'.terminated = true := by
  induction body generalizing s with
  | nil =>
    obtain ⟨d, hd⟩ := hlast
    refine ⟨s.append d, ?_, ?_⟩
    · rw [List.nil_append, lowerBlock, lowerInsn_eq cfg hs, hd]
      rfl
    · rw [TransState.append, hs, lowered_terminated hd, hterm]
      rfl
  | cons i body ih =>
    obtain ⟨⟨d, hd⟩, hopen⟩ := hbody i List.mem_cons_self
    have happ : (s.append d).terminated = false := by
      rw [TransState.append, hs, lowered_terminated hd, hopen]
      rfl
    obtain ⟨s', hs', hfin⟩ := ih happ fun j hj => hbody j (List.mem_cons_of_mem i hj)
    refine ⟨s', ?_, hfin⟩
    rw [List.cons_append, lowerBlock, lowerInsn_eq cfg hs, hd]
    exact hs'

variable {ops : List OryxGinsn} {cfg : TransCfg} {profileId : U32}

/-- **What is accepted**: a framed block whose accesses can be encoded. -/
theorem oryxTranslateEx_isOk_iff :
    (∃ r, oryxTranslateEx ops cfg profileId = .ok r) ↔
      FramedBlock ops ∧ ∀ i ∈ ops, Encodable cfg i := by
  constructor
  · rintro ⟨⟨tu, st⟩, h⟩
    obtain ⟨body, last, ds, dl, ht⟩ := oryxTranslateEx_ok h
    have hlow := ht.lowersTo.lowers
    have hbody := ht.body_lowers.not_terminates ht.body_open
    refine ⟨⟨?_, ht.length_le, fun i hi => ((lowered_isOk_iff cfg i).mp (hlow i hi)).1,
      body, last, ht.ops_eq, hbody, ?_⟩, fun i hi => ((lowered_isOk_iff cfg i).mp (hlow i hi)).2⟩
    · rw [ht.ops_eq, List.length_append, List.length_singleton]
      omega
    · rw [← lowered_terminated ht.last_lowers]
      exact ht.last_terminates
  · rintro ⟨hframe, henc⟩
    obtain ⟨body, last, rfl, hbody, hterm⟩ := hframe.terminator
    have hlow : ∀ i ∈ body ++ [last], ∃ d, lowered cfg i = .ok d := fun i hi =>
      (lowered_isOk_iff cfg i).mpr ⟨hframe.records i hi, henc i hi⟩
    obtain ⟨s, hs, hfin⟩ := @lowerBlock_framed cfg body last .init rfl
      (fun i hi => ⟨hlow i (List.mem_append_left _ hi), hbody i hi⟩)
      (hlow last (List.mem_append_right _ List.mem_cons_self)) hterm
    refine ⟨(buildTu cfg profileId (body ++ [last]) s, s.st), ?_⟩
    have hsmall := hframe.small
    have hnonempty := hframe.nonempty
    rw [oryxTranslateEx, if_neg (by omega), hs]
    dsimp only
    rw [if_neg (by rw [hfin]; exact Bool.noConfusion)]

theorem oryxTranslateEx_error {e : OryxErr}
    (h : oryxTranslateEx ops cfg profileId = .error e) : e = .inval := by
  unfold oryxTranslateEx at h
  split at h
  · cases h
    rfl
  split at h
  · next hs =>
    cases h
    exact lowerBlock_error hs
  · split at h
    · cases h
      rfl
    · cases h

/-! ### Accepting the documented IR -/

/-- Well-formed blocks and no others are accepted, and the others answered with
`ORYX_ERR_INVAL`. -/
def AcceptsExactly (ops : List OryxGinsn) (cfg : TransCfg) (profileId : U32) : Prop :=
  ((∃ r, oryxTranslateEx ops cfg profileId = .ok r) ↔ WellFormedBlock ops) ∧
    (¬ WellFormedBlock ops → oryxTranslateEx ops cfg profileId = .error .inval)

/-- **When exactly the documented IR is accepted**: the forms chosen can encode a framed block
just when its displacements and condition codes are the documented ones. -/
theorem acceptsExactly_iff :
    AcceptsExactly ops cfg profileId ↔
      (FramedBlock ops →
        ((∀ i ∈ ops, Encodable cfg i) ↔ ∀ i ∈ ops, DocumentedInsn i)) := by
  have hok := @oryxTranslateEx_isOk_iff ops cfg profileId
  have hwf : WellFormedBlock ops ↔ FramedBlock ops ∧ ∀ i ∈ ops, DocumentedInsn i :=
    ⟨fun h => ⟨h.toFramedBlock, h.insns⟩, fun h => ⟨h.1, h.2⟩⟩
  unfold AcceptsExactly
  rw [hok, hwf, and_congr_right_iff]
  constructor
  · intro h
    exact h.1
  · intro h
    refine ⟨h, fun hno => ?_⟩
    cases hrun : oryxTranslateEx ops cfg profileId with
    | error e => rw [oryxTranslateEx_error hrun]
    | ok r =>
      have hacc := hok.mp ⟨r, hrun⟩
      exact absurd ⟨hacc.1, (h hacc.1).mp hacc.2⟩ hno

/-- Three blocks that the documentation and the translator disagree on: an acquire load at 4096,
one at 1, and a branch on condition 6. -/
theorem not_acceptsExactly :
    ¬ AcceptsExactly [ginsn .load 0 7 4096, ginsn .ret 0 0 0] ⟨.conservative, .sc, 0x1000, 4⟩ 0 ∧
    ¬ AcceptsExactly [ginsn .load 0 7 1, ginsn .ret 0 0 0] ⟨.conservative, .rcpc, 0x1000, 4⟩ 0 ∧
    ¬ AcceptsExactly [{ ginsn .br 0 0 0 with cc := 6 }] ⟨.drf, .sc, 0x1000, 4⟩ 0 := by
  have hload : ∀ imm, (ginsn .load 0 7 imm).isLoadStore := fun imm => Or.inl rfl
  refine ⟨fun h => ?_, fun h => ?_, fun h => ?_⟩
  · have hwf : WellFormedBlock [ginsn .load 0 7 4096, ginsn .ret 0 0 0] := by
      refine ⟨⟨by decide, by decide, ?_, [ginsn .load 0 7 4096], ginsn .ret 0 0 0, rfl, ?_, rfl⟩,
        ?_⟩
      · rw [List.forall_mem_cons, List.forall_mem_singleton]
        exact ⟨⟨⟨_, rfl⟩, by decide⟩, ⟨_, rfl⟩, by decide⟩
      · rw [List.forall_mem_singleton]
        rfl
      · rw [List.forall_mem_cons, List.forall_mem_singleton]
        refine ⟨⟨fun _ => (by decide : _ ∧ _ ∧ _), ?_⟩, ?_, ?_⟩
        all_goals
          rintro (hc | hc)
          all_goals cases hc
    obtain ⟨r, hr⟩ := h.1.mpr hwf
    cases hr
  · have hwf := h.1.mp ⟨_, rfl⟩
    have himm := ((hwf.insns _ List.mem_cons_self).displacement (hload 1)).2.2
    exact absurd himm (by decide)
  · have hwf := h.1.mp ⟨_, rfl⟩
    have hcc := (hwf.insns _ List.mem_cons_self).condition (Or.inl rfl)
    exact absurd hcc (by decide)

end Oryx
