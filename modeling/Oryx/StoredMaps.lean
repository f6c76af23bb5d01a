/-
Oryx/StoredMaps.lean

A classified block in the store: the path from the classifier over the map's
bytes and the two directories of the store to the ordering of one access.

The counter of the classifier may wrap and the blob may be lost, but neither
ever weakens an access: an answer other than TSO is the right one for the
operation at the address (`storedOrder_sound`).
-/
import Oryx.Classifier
import Oryx.StoreRuns

namespace Oryx

variable {ops : List OryxGinsn} {guestPc : U64}

/-- What a lookup finds in a classifier's map is the entry of an operation. -/
theorem lookup_classify (hpc : guestPc.toNat + ops.length < 2 ^ 64)
    (moduleIdent : Option (List Byte)) (isaId analyzerId analyzerVersion : U32) {pc : U64}
    {e : OryxMmapEntry}
    (h : oryxMmapLookup (oryxMmapClassify ops guestPc moduleIdent isaId analyzerId
      analyzerVersion) pc = some e) :
    ∃ i ins, ops[i]? = some ins ∧ pc = guestPc + BitVec.ofNat 64 i ∧
      classifyOp guestPc i ins = some e := by
  have hentries :=
    entries_oryxMmapClassify ops guestPc moduleIdent isaId analyzerId analyzerVersion
  have hasc := (oryxMmapParse_ok.mp
    (oryxMmapParse_classify hpc moduleIdent isaId analyzerId analyzerVersion)).ascending
  obtain ⟨hmem, rfl⟩ := (oryxMmapLookup_eq_some hasc).mp h
  rw [hentries] at hmem
  obtain ⟨i, ins, hins, hclass⟩ := mem_accessEntries.mp (List.mem_of_mem_drop hmem)
  rw [Nat.zero_add] at hclass
  exact ⟨i, ins, hins, guestPc_of_classifyOp hclass, hclass⟩

/-- Whatever the counter has lost, an answer other than TSO is right. -/
theorem decide_classify (hpc : guestPc.toNat + ops.length < 2 ^ 64)
    (moduleIdent : Option (List Byte)) (isaId analyzerId analyzerVersion : U32) (pc : U64)
    (guardConfirmed : U32) :
    let order := oryxMmapDecide (oryxMmapLookup (oryxMmapClassify ops guestPc moduleIdent isaId
      analyzerId analyzerVersion) pc) guardConfirmed
    order = .tso ∨ ∃ i ins, ops[i]? = some ins ∧ pc = guestPc + BitVec.ofNat 64 i ∧
      AnswerFor ins guardConfirmed order := by
  intro order
  cases hfound : oryxMmapLookup (oryxMmapClassify ops guestPc moduleIdent isaId analyzerId
      analyzerVersion) pc with
  | none =>
    left
    show oryxMmapDecide _ guardConfirmed = .tso
    rw [hfound]
    rfl
  | some e =>
    right
    obtain ⟨i, ins, hins, hat, hclass⟩ :=
      lookup_classify hpc moduleIdent isaId analyzerId analyzerVersion hfound
    refine ⟨i, ins, hins, hat, ?_⟩
    show AnswerFor ins guardConfirmed (oryxMmapDecide _ guardConfirmed)
    rw [hfound, ← hclass]
    exact answerFor_classifyOp guestPc i ins guardConfirmed

/-- **What the store says of an access is right or TSO**, once a block's map is the last thing put
under the identity asked for, whatever else was put and whatever is done to the blob files: an
access is relaxed only where the block accesses the stack and the guard is confirmed, and no
address outside the block is.  If the classifier's counter has lost nothing but shared accesses,
every answer is the right one; and an answer comes as long as nobody touches the map's blob. -/
theorem storedOrder_sound (hpc : guestPc.toNat + ops.length < 2 ^ 64)
    (moduleIdent : Option (List Byte)) (isaId analyzerId analyzerVersion : U32)
    (es : List StoreWrite) (hsha : Set.InjOn sha256 (involvedBytes es)) (want : MapIdentity)
    (hlast : lastStored es want.key = some (.putMap
      (oryxMmapClassify ops guestPc moduleIdent isaId analyzerId analyzerVersion))) :
    (∀ pc guardConfirmed order, mmapOrdering (storeRun es) want pc guardConfirmed = .ok order →
      order = .tso ∨ ∃ i ins, ops[i]? = some ins ∧ pc = guestPc + BitVec.ofNat 64 i ∧
        AnswerFor ins guardConfirmed order) ∧
    ((∀ ins ∈ lostAccesses ops, ¬ ins.isAtomic ∧ ¬ ins.isStackAccess) →
      ∀ i ins guardConfirmed order, ops[i]? = some ins →
        mmapOrdering (storeRun es) want (guestPc + BitVec.ofNat 64 i) guardConfirmed =
          .ok order → AnswerFor ins guardConfirmed order) ∧
    (KeptBlob es (oryxContentAddress (oryxMmapSerialize
        (oryxMmapClassify ops guestPc moduleIdent isaId analyzerId analyzerVersion))) →
      oryxMmapVerifyIdentity
        (oryxMmapClassify ops guestPc moduleIdent isaId analyzerId analyzerVersion) want =
          .ok () →
      ∀ pc guardConfirmed, ∃ order,
        mmapOrdering (storeRun es) want pc guardConfirmed = .ok order) := by
  have hparse := oryxMmapParse_classify hpc moduleIdent isaId analyzerId analyzerVersion
  -- an answer is drawn from the map
  have hanswer : ∀ {pc guardConfirmed order},
      mmapOrdering (storeRun es) want pc guardConfirmed = .ok order →
        order = oryxMmapDecide (oryxMmapLookup (oryxMmapClassify ops guestPc moduleIdent isaId
          analyzerId analyzerVersion) pc) guardConfirmed := by
    intro pc guardConfirmed order h
    obtain ⟨m, hget, horder⟩ := bind_eq_ok_iff.mp h
    obtain ⟨-, p, hp, hm⟩ := served_map hsha hget
    rw [hlast] at hp
    cases hp
    rw [StorePut.data, hparse] at hm
    cases hm
    exact (Except.ok.inj horder).symm
  refine ⟨fun pc guardConfirmed order h => ?_, fun hlost i ins guardConfirmed order hins h => ?_,
    fun hkept hident pc guardConfirmed => ?_⟩
  · rw [hanswer h]
    exact decide_classify hpc moduleIdent isaId analyzerId analyzerVersion pc guardConfirmed
  · rw [hanswer h]
    exact (answersBlock_classify_iff hpc moduleIdent isaId analyzerId analyzerVersion).mpr hlost
      i ins hins guardConfirmed
  · have hget := serves_kept_map hsha hlast hkept (oryxMmapParse_ok.mp hparse).ascending hident
    exact ⟨_, bind_eq_ok_iff.mpr ⟨_, hget, rfl⟩⟩

/-! ### A push in the store -/

/-- A block that stores under RSP, and the run that puts its map. -/
def stackBlock : List OryxGinsn := [ginsn .store 0 grRsp 0, ginsn .x86ret 0 0 0]

def stackMapRun : List StoreWrite :=
  [.put (.putMap (oryxMmapClassify stackBlock 0x400000 none 1 1 1))]

/-- With the guard confirmed the store is relaxed. -/
theorem storedOrder_sound_stackBlock :
    mmapOrdering (storeRun stackMapRun) ⟨sha256 [], 1, 1, 1⟩ 0x400000 1 = .ok .relax := by
  have hsha : Set.InjOn sha256 (involvedBytes stackMapRun) := by
    have hput : ∀ b ∈ involvedBytes stackMapRun,
        b = oryxMmapSerialize (oryxMmapClassify stackBlock 0x400000 none 1 1 1) := by
      rintro b (⟨p, hp, rfl⟩ | ⟨a, ha⟩)
      · cases List.mem_singleton.mp hp
        rfl
      · cases List.mem_singleton.mp ha
    intro x hx y hy _
    rw [hput x hx, hput y hy]
  have hhex := StorePut.isHex64_putMap (oryxMmapClassify stackBlock 0x400000 none 1 1 1)
  have hlast : lastStored stackMapRun (MapIdentity.key ⟨sha256 [], 1, 1, 1⟩) =
      some (.putMap (oryxMmapClassify stackBlock 0x400000 none 1 1 1)) := by
    rw [lastStored, stackMapRun, List.foldl_cons, storedStep, if_pos hhex]
    exact Function.update_self _ _ _
  obtain ⟨-, hright, hanswers⟩ :=
    @storedOrder_sound stackBlock 0x400000 (by decide) none 1 1 1 stackMapRun hsha _ hlast
  obtain ⟨order, horder⟩ := hanswers ⟨[], _, [], rfl, hhex, rfl, rfl, by simp⟩
    (oryxMmapVerifyIdentity_ok.mpr ⟨rfl, rfl, rfl, rfl⟩) 0x400000 1
  have hanswer := hright (fun ins hins => absurd hins List.not_mem_nil) 0 _ 1 order rfl horder
  rw [hanswer.relax.mpr ⟨⟨Or.inr rfl, Or.inl rfl⟩, by decide⟩] at horder
  exact horder

end Oryx
