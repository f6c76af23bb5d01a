/-
Oryx/CacheKey.lean

What the cache key of a translation determines.

The key is the hash of a stream of fixed-width records, so two translations
with one key have the same entry PC, policy and strength, and op by op the
same fields (`sameKey_ops`) -- up to what a record leaves out: of the 64-bit
branch target only the low half is hashed, and `guest_len` is not hashed at
all.  The main result, `serialize_eq_iff_of_sameKey`, says that this is the
whole gap: units with one key have the same bytes exactly when their
`guest_len` and the targets of their branches agree.
-/
import Oryx.Translate

namespace Oryx

/-! ### The hashed stream -/

/-- The byte stream `hash_block` feeds to the hash. -/
def hashStream (ops : List OryxGinsn) (cfg : TransCfg) : List Byte :=
  (hashChunks ops cfg.guestPc cfg.policy cfg.strength).flatten

/-- Two translations have one logical-key preimage: the hashed streams are
equal, and so are the fields that `oryx_tu_logical_key` appends. -/
structure SameKey (ops₁ ops₂ : List OryxGinsn) (cfg₁ cfg₂ : TransCfg) (tu₁ tu₂ : OryxTu) :
    Prop where
  stream : hashStream ops₁ cfg₁ = hashStream ops₂ cfg₂
  translatorId : tu₁.translatorId = tu₂.translatorId
  translatorVersion : tu₁.translatorVersion = tu₂.translatorVersion
  profileId : tu₁.profileId = tu₂.profileId
  isaId : tu₁.isaId = tu₂.isaId

/-- Two ops have one record: they agree in every field but the high half of
the target. -/
structure SameRecord (i j : OryxGinsn) : Prop where
  op : i.op = j.op
  rd : i.rd = j.rd
  rn : i.rn = j.rn
  imm : i.imm = j.imm
  targetLow : i.target.setWidth 32 = j.target.setWidth 32
  cc : i.cc = j.cc
  mclass : i.mclass = j.mclass

theorem length_hashRecord (i : OryxGinsn) : (hashRecord i).length = 32 := by
  simp [hashRecord]

theorem length_hashHeader (guestPc : U64) (policy : MmPolicy) (strength : OrderStrength) :
    (hashHeader guestPc policy strength).length = 16 := by
  simp [hashHeader]

/-- A 64-bit value is its two halves. -/
theorem eq_of_halves {v w : U64} (hlo : v.setWidth 32 = w.setWidth 32)
    (hhi : (v >>> 32).setWidth 32 = (w >>> 32).setWidth 32) : v = w := by
  have h1 := congrArg BitVec.toNat hlo
  have h2 := congrArg BitVec.toNat hhi
  have hv := v.isLt
  have hw := w.isLt
  simp only [BitVec.toNat_setWidth, BitVec.toNat_ushiftRight, Nat.shiftRight_eq_div_pow] at h1 h2
  apply BitVec.eq_of_toNat_eq
  omega

theorem append_putU32_inj {v w : U32} {r r' : List Byte} (h : putU32 v ++ r = putU32 w ++ r') :
    v = w ∧ r = r' := by
  obtain ⟨h1, h2⟩ := List.append_inj h (by simp)
  exact ⟨putU32_injective h1, h2⟩

theorem sameRecord_of_hashRecord {i j : OryxGinsn} (h : hashRecord i = hashRecord j) :
    SameRecord i j := by
  obtain ⟨hop, h⟩ := append_putU32_inj h
  obtain ⟨hrd, h⟩ := append_putU32_inj h
  obtain ⟨hrn, h⟩ := append_putU32_inj h
  obtain ⟨hlo, h⟩ := append_putU32_inj h
  obtain ⟨hhi, h⟩ := append_putU32_inj h
  obtain ⟨htgt, h⟩ := append_putU32_inj h
  obtain ⟨hcc, h⟩ := append_putU32_inj h
  exact ⟨hop, hrd, hrn, eq_of_halves hlo hhi, htgt, hcc, putU32_injective h⟩

theorem hashHeader_inj {pc pc' : U64} {pol pol' : MmPolicy} {str str' : OrderStrength}
    (h : hashHeader pc pol str = hashHeader pc' pol' str') :
    pc = pc' ∧ pol = pol' ∧ str = str' := by
  obtain ⟨hpc, hrest⟩ := List.append_inj h (by simp)
  obtain ⟨hpol, hstr⟩ := List.cons.inj hrest
  have hstr := (List.cons.inj hstr).1
  refine ⟨putU64_injective hpc, ?_, ?_⟩
  · cases pol <;> cases pol' <;> first | rfl | cases hpol
  · cases str <;> cases str' <;> first | rfl | cases hstr

/-- **The stream is injective** up to what the records leave out. -/
theorem hashStream_inj {ops₁ ops₂ : List OryxGinsn} {cfg₁ cfg₂ : TransCfg}
    (h : hashStream ops₁ cfg₁ = hashStream ops₂ cfg₂) :
    cfg₂ = { cfg₁ with guestLen := cfg₂.guestLen } ∧
      ops₁.map hashRecord = ops₂.map hashRecord := by
  simp only [hashStream, hashChunks, List.flatten_cons] at h
  obtain ⟨hhead, htail⟩ := List.append_inj h (by simp [length_hashHeader])
  obtain ⟨hpc, hpol, hstr⟩ := hashHeader_inj hhead
  rw [← List.flatMap_def, ← List.flatMap_def] at htail
  refine ⟨?_, map_eq_of_flatMap_eq length_hashRecord (by decide) htail⟩
  rw [hpc, hpol, hstr]

theorem sameRecords_of_map {ops₁ ops₂ : List OryxGinsn}
    (h : ops₁.map hashRecord = ops₂.map hashRecord) : List.Forall₂ SameRecord ops₁ ops₂ := by
  induction ops₁ generalizing ops₂ with
  | nil =>
    cases ops₂ with
    | nil => exact .nil
    | cons j ops₂ => cases h
  | cons i ops₁ ih =>
    cases ops₂ with
    | nil => cases h
    | cons j ops₂ =>
      obtain ⟨hij, hrest⟩ := List.cons.inj h
      exact .cons (sameRecord_of_hashRecord hij) (ih hrest)

/-! ### Branch targets -/

/-- The opcodes that use their target. -/
def GuestOp.branches : GuestOp → Bool
  | .br => true
  | .jmp => true
  | .call => true
  | _ => false

/-- An op that branches. -/
def OryxGinsn.branches (i : OryxGinsn) : Bool := i.opcode.any GuestOp.branches

/-- The target of an op that branches. -/
def branchTarget (i : OryxGinsn) : Option U64 := if i.branches then some i.target else none

/-- The targets of a block's branches. -/
def branchTargets (ops : List OryxGinsn) : List U64 := ops.filterMap branchTarget

theorem lowered_relocs {cfg : TransCfg} {i : OryxGinsn} {d : TransState}
    (h : lowered cfg i = .ok d) :
    d.relocs.map OryxReloc.guestTarget = (branchTarget i).toList := by
  obtain ⟨-, op, hop, hlow⟩ := lowered_ok h
  simp only [branchTarget, OryxGinsn.branches, hop, Option.any_some]
  cases hterm : op.isTerminator with
  | false =>
    have hb : op.branches = false := by cases op <;> first | rfl | cases hterm
    rw [(lowerOp_keepsControl hlow hterm).relocs, hb]
    rfl
  | true => cases op <;> first | (cases hlow; rfl) | cases hterm

/-- The relocations of a block refer to the targets of its branches. -/
theorem concat_relocs {cfg : TransCfg} {ops : List OryxGinsn} {ds : List TransState}
    (h : LowersTo cfg ops ds) :
    (TransState.concat ds).relocs.map OryxReloc.guestTarget = branchTargets ops := by
  have key : ∀ s : TransState, (ds.foldl TransState.append s).relocs.map OryxReloc.guestTarget =
      s.relocs.map OryxReloc.guestTarget ++ branchTargets ops := by
    induction h with
    | nil => intro s; simp [branchTargets]
    | @cons i d ops ds hi _ ih =>
      intro s
      have hr := lowered_relocs hi
      rw [List.foldl_cons, ih]
      simp only [TransState.append, List.map_append, List.map_map, branchTargets,
        List.append_assoc]
      have hmap : d.relocs.map (OryxReloc.guestTarget ∘ fun r =>
          { r with offset := s.codeLen + r.offset }) = (branchTarget i).toList := hr
      rw [hmap]
      cases hb : branchTarget i with
      | none => simp [hb]
      | some t => simp [hb]
  exact key .init

/-! ### Lowering sees what the record holds -/

theorem opcode_of_sameRecord {i j : OryxGinsn} (h : SameRecord i j) : i.opcode = j.opcode :=
  congrArg GuestOp.ofCode h.op

theorem branches_of_sameRecord {i j : OryxGinsn} (h : SameRecord i j) :
    i.branches = j.branches :=
  congrArg (Option.any GuestOp.branches) (opcode_of_sameRecord h)

theorem eq_of_sameRecord {i j : OryxGinsn} (h : SameRecord i j) :
    j = { i with target := j.target } := by
  rw [h.op, h.rd, h.rn, h.imm, h.cc, h.mclass]

/-- An op that does not branch is lowered alike for every target. -/
theorem lowerInsn_target (cfg : TransCfg) (s : TransState) {i : OryxGinsn} (t : U64)
    (h : i.branches = false) : lowerInsn cfg s { i with target := t } = lowerInsn cfg s i := by
  have hopc : OryxGinsn.opcode { i with target := t } = i.opcode := rfl
  have hregs : OryxGinsn.regsOk { i with target := t } = i.regsOk := rfl
  unfold lowerInsn
  simp only [hopc, hregs]
  cases hop : i.opcode with
  | none => rfl
  | some op =>
    have hb : op.branches = false := by
      rw [OryxGinsn.branches, hop] at h
      exact h
    have hlow : lowerOp cfg s { i with target := t } op = lowerOp cfg s i op := by
      cases op <;> first | rfl | cases hb
    simp only [hlow]

/-- Ops with one record and one branch target are lowered alike. -/
theorem lowerInsn_congr (cfg : TransCfg) (s : TransState) {i j : OryxGinsn} (h : SameRecord i j)
    (ht : branchTarget i = branchTarget j) : lowerInsn cfg s i = lowerInsn cfg s j := by
  have hbr := branches_of_sameRecord h
  have hj := eq_of_sameRecord h
  cases hb : i.branches with
  | false =>
    rw [hj]
    exact (lowerInsn_target cfg s j.target hb).symm
  | true =>
    rw [branchTarget, branchTarget, ← hbr, hb] at ht
    rw [hj, ← Option.some.inj ht]

/-- Two streams of one kind branch at the same places. -/
theorem branchTargets_cons {i j : OryxGinsn} {ops₁ ops₂ : List OryxGinsn} (h : SameRecord i j)
    (ht : branchTargets (i :: ops₁) = branchTargets (j :: ops₂)) :
    branchTarget i = branchTarget j ∧ branchTargets ops₁ = branchTargets ops₂ := by
  have hbr := branches_of_sameRecord h
  simp only [branchTargets, List.filterMap_cons, branchTarget] at ht ⊢
  rw [← hbr] at ht ⊢
  cases hb : i.branches with
  | false =>
    rw [hb] at ht
    exact ⟨rfl, ht⟩
  | true =>
    rw [hb] at ht
    obtain ⟨hhead, htail⟩ := List.cons.inj ht
    exact ⟨congrArg some hhead, htail⟩

theorem lowerBlock_congr (cfg : TransCfg) {ops₁ ops₂ : List OryxGinsn}
    (h : List.Forall₂ SameRecord ops₁ ops₂) (ht : branchTargets ops₁ = branchTargets ops₂)
    (s : TransState) : lowerBlock cfg s ops₁ = lowerBlock cfg s ops₂ := by
  induction h generalizing s with
  | nil => rfl
  | @cons i j ops₁ ops₂ hij _ ih =>
    obtain ⟨hhead, htail⟩ := branchTargets_cons hij ht
    rw [lowerBlock, lowerBlock, lowerInsn_congr cfg s hij hhead]
    cases lowerInsn cfg s j with
    | error e => rfl
    | ok s' => exact ih htail s'

/-! ### Units with one key -/

/-- The relocations of a unit refer to the targets of its block's branches. -/
theorem tu_relocs {ops : List OryxGinsn} {cfg : TransCfg} {profileId : U32} {tu : OryxTu}
    {st : OryxMmStats} (h : oryxTranslateEx ops cfg profileId = .ok (tu, st)) :
    tu.relocs.val.map OryxReloc.guestTarget = branchTargets ops := by
  obtain ⟨body, last, ds, dl, ht⟩ := oryxTranslateEx_ok h
  have hr := concat_relocs ht.lowersTo
  rw [concat_append_singleton] at hr
  have hlen : ((TransState.concat ds).append dl).relocs.length < 2 ^ 32 := by
    have h1 := congrArg List.length hr
    have h2 := List.length_filterMap_le branchTarget ops
    have h3 := ht.length_le
    rw [List.length_map, branchTargets] at h1
    omega
  rw [ht.tu_eq]
  simp only [buildTu, Counted.clip_val hlen, hr]

/-- The unit carries the `guest_len` it was translated with. -/
theorem tu_guestLen {ops : List OryxGinsn} {cfg : TransCfg} {profileId : U32} {tu : OryxTu}
    {st : OryxMmStats} (h : oryxTranslateEx ops cfg profileId = .ok (tu, st)) :
    tu.guestLen = cfg.guestLen ∧ tu.profileId = profileId := by
  obtain ⟨body, last, ds, dl, ht⟩ := oryxTranslateEx_ok h
  rw [ht.tu_eq]
  exact ⟨rfl, rfl⟩

/-- Blocks that agree in what is hashed, in their branch targets and in
`guest_len` translate to one unit. -/
theorem oryxTranslateEx_congr {ops₁ ops₂ : List OryxGinsn} {cfg : TransCfg} (profileId : U32)
    (hmap : ops₁.map hashRecord = ops₂.map hashRecord)
    (ht : branchTargets ops₁ = branchTargets ops₂) :
    oryxTranslateEx ops₁ cfg profileId = oryxTranslateEx ops₂ cfg profileId := by
  have hlen : ops₁.length = ops₂.length := by
    have h := congrArg List.length hmap
    rwa [List.length_map, List.length_map] at h
  have hhash : ∀ s, buildTu cfg profileId ops₁ s = buildTu cfg profileId ops₂ s := by
    intro s
    simp only [buildTu, hashBlock, hashChunks, hmap]
  unfold oryxTranslateEx
  simp only [hlen, lowerBlock_congr cfg (sameRecords_of_map hmap) ht, hhash]

/-- **What the key leaves out.**  Two units with one logical-key preimage have
the same bytes exactly when the blocks agree in `guest_len` and in the 64-bit
targets of their branches. -/
theorem serialize_eq_iff_of_sameKey {ops₁ ops₂ : List OryxGinsn} {cfg₁ cfg₂ : TransCfg}
    {profile₁ profile₂ : U32} {tu₁ tu₂ : OryxTu} {st₁ st₂ : OryxMmStats}
    (h₁ : oryxTranslateEx ops₁ cfg₁ profile₁ = .ok (tu₁, st₁))
    (h₂ : oryxTranslateEx ops₂ cfg₂ profile₂ = .ok (tu₂, st₂))
    (hkey : SameKey ops₁ ops₂ cfg₁ cfg₂ tu₁ tu₂) :
    oryxTuSerialize tu₁ = oryxTuSerialize tu₂ ↔
      cfg₁.guestLen = cfg₂.guestLen ∧ branchTargets ops₁ = branchTargets ops₂ := by
  obtain ⟨hcfg, hmap⟩ := hashStream_inj hkey.stream
  obtain ⟨hlen₁, hprof₁⟩ := tu_guestLen h₁
  obtain ⟨hlen₂, hprof₂⟩ := tu_guestLen h₂
  constructor
  · intro hser
    have htu := oryxTuSerialize_injective hser
    rw [← hlen₁, ← hlen₂, ← tu_relocs h₁, ← tu_relocs h₂, htu]
    exact ⟨rfl, rfl⟩
  · rintro ⟨hlen, ht⟩
    have hcfg' : cfg₂ = cfg₁ := by rw [hcfg, ← hlen]
    have hprof : profile₂ = profile₁ := by rw [← hprof₁, ← hprof₂, hkey.profileId]
    rw [hcfg', hprof, ← oryxTranslateEx_congr profile₁ hmap ht, h₁] at h₂
    cases h₂
    rfl

/-- The op `GOP_JMP target`. -/
def jmpTo (target : U64) : OryxGinsn := { ginsn .jmp 0 0 0 with target := target }

/-- The op `GOP_RET`, with a target it does not use. -/
def retWith (target : U64) : OryxGinsn := { ginsn .ret 0 0 0 with target := target }

/-- An entry at `0x1000`, 2 guest bytes long. -/
def shortBlock : TransCfg := ⟨.drf, .sc, 0x1000, 2⟩

/-- Two blocks with one key that jump to targets `2^32` apart get different
units. -/
theorem sameKey_jmp_serialize_ne :
    ∃ tu₁ st₁ tu₂ st₂, oryxTranslateEx [jmpTo 0x2000] shortBlock 0 = .ok (tu₁, st₁) ∧
      oryxTranslateEx [jmpTo 0x100002000] shortBlock 0 = .ok (tu₂, st₂) ∧
      SameKey [jmpTo 0x2000] [jmpTo 0x100002000] shortBlock shortBlock tu₁ tu₂ ∧
      oryxTuSerialize tu₁ ≠ oryxTuSerialize tu₂ := by
  refine ⟨_, _, _, _, rfl, rfl, ⟨rfl, rfl, rfl, rfl, rfl⟩, ?_⟩
  intro h
  have htarget := congrArg (fun tu : OryxTu => tu.relocs.val.map OryxReloc.guestTarget)
    (oryxTuSerialize_injective h)
  revert htarget
  decide

/-- A block that does not branch is determined by its key and length, whatever
its unused target. -/
theorem serialize_ret_of_sameKey :
    ∃ tu₁ st₁ tu₂ st₂, oryxTranslateEx [retWith 0x2000] shortBlock 0 = .ok (tu₁, st₁) ∧
      oryxTranslateEx [retWith 0x100002000] shortBlock 0 = .ok (tu₂, st₂) ∧
      oryxTuSerialize tu₁ = oryxTuSerialize tu₂ := by
  refine ⟨_, _, _, _, rfl, rfl, ?_⟩
  have hkey := @serialize_eq_iff_of_sameKey [retWith 0x2000] [retWith 0x100002000] shortBlock
    shortBlock 0 0 _ _ _ _ rfl rfl ⟨rfl, rfl, rfl, rfl, rfl⟩
  exact hkey.mpr ⟨rfl, by decide⟩

end Oryx
