/-
Oryx/Classifier.lean

The reference classifier of `oryxmap.c`: the map it makes of one block, and
what lookups and decisions answer with that map, before and after its bytes.

The entries stand under `guest_pc + i`, so they ascend and the parser accepts
them (`oryxMmapParse_serialize`).  Every operation of the block gets its
answer (`classifies_iff`) unless the 32-bit count of entries has wrapped:
then the map has lost its first entries, and the answers are still right
exactly when these were all shared.
-/
import Oryx.GuestIR
import Oryx.MemoryMap
import Oryx.Lib.WrapFill
import Mathlib.Data.List.Forall2

namespace Oryx

/-! ### The classifier -/

/-- `GR_RBP`. -/
def grRbp : CInt := 5

/-- The entry of operation `i`, if it accesses memory. -/
def classifyOp (guestPc : U64) (i : Nat) (ins : OryxGinsn) : Option OryxMmapEntry :=
  let entry (mclass eflags : Byte) : OryxMmapEntry := ⟨guestPc + BitVec.ofNat 64 i, mclass, eflags⟩
  match ins.opcode with
  | some .load | some .store =>
      -- only the stack is local, and only as a hint
      if ins.rn = grRsp ∨ ins.rn = grRbp then some (entry omcLocal omcEfGuardRequired)
      else some (entry omcShared 0)
  | some .atomicAdd | some .atomicCas => some (entry omcAtomic 0)
  | _ => none

/-- The loop of `oryx_mmap_classify`: the array `ents` and the counter `k`. -/
def classifyLoop (guestPc : U64) :
    Nat → List OryxGinsn → List OryxMmapEntry → U32 → List OryxMmapEntry × U32
  | _, [], ents, k => (ents, k)
  | i, ins :: rest, ents, k =>
      match classifyOp guestPc i ins with
      | none => classifyLoop guestPc (i + 1) rest ents k
      | some e => classifyLoop guestPc (i + 1) rest (ents.set k.toNat e) (k + 1)

/-- `calloc(n ? n : 1, sizeof(*ents))`. -/
def callocEntries (n : Nat) : List OryxMmapEntry :=
  List.replicate (if n = 0 then 1 else n) ⟨0, 0, 0⟩

/-- `oryx_mmap_classify`, with the allocation succeeding. -/
def oryxMmapClassify (ops : List OryxGinsn) (guestPc : U64) (moduleIdent : Option (List Byte))
    (isaId analyzerId analyzerVersion : U32) : OryxMmap :=
  let r := classifyLoop guestPc 0 ops (callocEntries ops.length) 0
  { isaId := isaId
    analyzerId := analyzerId
    analyzerVersion := analyzerVersion
    flags := 0
    moduleHash := sha256 (moduleIdent.getD [])
    entries := ⟨r.1.take r.2.toNat, by
      rw [List.length_take]
      exact Nat.lt_of_le_of_lt (Nat.min_le_left _ _) r.2.isLt⟩ }

/-! ### Its entries -/

/-- The entries of the operations from `i` on, in order. -/
def accessEntries (guestPc : U64) : Nat → List OryxGinsn → List OryxMmapEntry
  | _, [] => []
  | i, ins :: rest => (classifyOp guestPc i ins).toList ++ accessEntries guestPc (i + 1) rest

theorem mem_accessEntries {guestPc : U64} {i : Nat} {ops : List OryxGinsn} {e : OryxMmapEntry} :
    e ∈ accessEntries guestPc i ops ↔
      ∃ j ins, ops[j]? = some ins ∧ classifyOp guestPc (i + j) ins = some e := by
  induction ops generalizing i with
  | nil => simp [accessEntries]
  | cons ins rest ih =>
    rw [accessEntries, List.mem_append, Option.mem_toList, ih]
    constructor
    · rintro (he | ⟨j, ins', hj, he⟩)
      · exact ⟨0, ins, rfl, he⟩
      · exact ⟨j + 1, ins', hj, by rwa [Nat.add_right_comm] at he⟩
    · rintro ⟨j, ins', hj, he⟩
      cases j with
      | zero =>
        cases hj
        exact Or.inl he
      | succ j => exact Or.inr ⟨j, ins', hj, by rwa [Nat.add_right_comm]⟩

/-- The array and the counter after the loop hold the entries. -/
theorem wrapFill_classifyLoop {guestPc : U64} {i : Nat} {ops : List OryxGinsn}
    {ents written : List OryxMmapEntry} {k : U32} (h : WrapFill ents k written)
    (hroom : written.length + ops.length ≤ ents.length) :
    WrapFill (classifyLoop guestPc i ops ents k).1 (classifyLoop guestPc i ops ents k).2
      (written ++ accessEntries guestPc i ops) := by
  induction ops generalizing i ents k written with
  | nil =>
    rw [accessEntries, List.append_nil]
    exact h
  | cons ins rest ih =>
    rw [List.length_cons] at hroom
    rw [classifyLoop, accessEntries]
    cases classifyOp guestPc i ins with
    | none => exact ih h (by omega)
    | some e =>
      have hk := h.le
      have hset := ih (i := i + 1) (h.push (by omega) e) (by
        rw [List.length_append, List.length_singleton, List.length_set]
        omega)
      rwa [List.append_assoc] at hset

/-- How many entries the counter has forgotten. -/
def forgotten (written : List OryxMmapEntry) : Nat := 2 ^ 32 * (written.length / 2 ^ 32)

theorem length_callocEntries (n : Nat) : n ≤ (callocEntries n).length := by
  rw [callocEntries, List.length_replicate]
  split <;> omega

/-- The entries of the map: all that were written, less the rounds forgotten. -/
theorem entries_oryxMmapClassify (ops : List OryxGinsn) (guestPc : U64)
    (moduleIdent : Option (List Byte)) (isaId analyzerId analyzerVersion : U32) :
    (oryxMmapClassify ops guestPc moduleIdent isaId analyzerId analyzerVersion).entries.val =
      (accessEntries guestPc 0 ops).drop (forgotten (accessEntries guestPc 0 ops)) := by
  have hroom := length_callocEntries ops.length
  have h : WrapFill (classifyLoop guestPc 0 ops (callocEntries ops.length) 0).1
      (classifyLoop guestPc 0 ops (callocEntries ops.length) 0).2 (accessEntries guestPc 0 ops) :=
    wrapFill_classifyLoop (wrapFill_nil (callocEntries ops.length))
      (by rwa [List.length_nil, Nat.zero_add])
  exact h.kept

/-! ### The entries ascend -/

theorem guestPc_of_classifyOp {guestPc : U64} {i : Nat} {ins : OryxGinsn} {e : OryxMmapEntry}
    (h : classifyOp guestPc i ins = some e) : e.guestPc = guestPc + BitVec.ofNat 64 i := by
  unfold classifyOp at h
  split at h
  · split at h <;> cases h <;> rfl
  · split at h <;> cases h <;> rfl
  all_goals cases h
  all_goals rfl

theorem toNat_pc_add {guestPc : U64} {i n : Nat} (hi : i < n) (hpc : guestPc.toNat + n < 2 ^ 64) :
    (guestPc + BitVec.ofNat 64 i).toNat = guestPc.toNat + i := by
  rw [BitVec.toNat_add, BitVec.toNat_ofNat, Nat.mod_eq_of_lt (a := i) (by omega),
    Nat.mod_eq_of_lt (by omega)]

theorem ascending_accessEntries {guestPc : U64} {i : Nat} {ops : List OryxGinsn}
    (hpc : guestPc.toNat + (i + ops.length) < 2 ^ 64) :
    ((accessEntries guestPc i ops).map OryxMmapEntry.pcKey).Pairwise (· < ·) := by
  induction ops generalizing i with
  | nil => exact List.Pairwise.nil
  | cons ins rest ih =>
    rw [List.length_cons] at hpc
    rw [accessEntries, List.map_append, List.pairwise_append]
    refine ⟨?_, ih (by omega), ?_⟩
    · cases classifyOp guestPc i ins with
      | none => exact List.Pairwise.nil
      | some e => exact List.pairwise_singleton _ _
    · -- every later entry is of a later op
      intro a ha b hb
      obtain ⟨e, he, rfl⟩ := List.mem_map.mp ha
      obtain ⟨e', he', rfl⟩ := List.mem_map.mp hb
      obtain ⟨j, ins', hj, he'⟩ := mem_accessEntries.mp he'
      have hlen := (List.getElem?_eq_some_iff.mp hj).1
      have hfirst := guestPc_of_classifyOp (Option.mem_toList.mp he)
      have hlater := guestPc_of_classifyOp he'
      rw [OryxMmapEntry.pcKey, OryxMmapEntry.pcKey, hfirst, hlater,
        toNat_pc_add (n := i + (rest.length + 1)) (by omega) hpc,
        toNat_pc_add (n := i + (rest.length + 1)) (by omega) hpc]
      omega

/-! ### The answers -/

/-- A `LOAD` or `STORE` with base RSP or RBP. -/
def OryxGinsn.isStackAccess (ins : OryxGinsn) : Prop :=
  ins.isLoadStore ∧ (ins.rn = grRsp ∨ ins.rn = grRbp)

/-- The ordering an operation must get. -/
structure AnswerFor (ins : OryxGinsn) (guardConfirmed : U32) (order : OryxOrder) : Prop where
  atomic : order = .atomic ↔ ins.isAtomic
  relax : order = .relax ↔ ins.isStackAccess ∧ guardConfirmed ≠ 0
  tso : order = .tso ↔ ¬ ins.isAtomic ∧ ¬ (ins.isStackAccess ∧ guardConfirmed ≠ 0)

/-- The three answers decide each other. -/
theorem answerFor_of {ins : OryxGinsn} {guardConfirmed : U32} {order : OryxOrder}
    (hatomic : order = .atomic ↔ ins.isAtomic)
    (hrelax : order = .relax ↔ ins.isStackAccess ∧ guardConfirmed ≠ 0) :
    AnswerFor ins guardConfirmed order := by
  refine ⟨hatomic, hrelax, ?_⟩
  rw [← hatomic, ← hrelax]
  cases order <;> simp

theorem isAtomic_not_loadStore {ins : OryxGinsn} (h : ins.isAtomic) : ¬ ins.isLoadStore := by
  rintro (hp | hp)
  all_goals
    rcases h with h | h
    all_goals
      rw [hp] at h
      cases h

/-- What the classifier writes for each kind of operation. -/
theorem classifyOp_cases (guestPc : U64) (i : Nat) (ins : OryxGinsn) :
    (ins.isAtomic ∧
      classifyOp guestPc i ins = some ⟨guestPc + BitVec.ofNat 64 i, omcAtomic, 0⟩) ∨
    (ins.isStackAccess ∧ classifyOp guestPc i ins =
      some ⟨guestPc + BitVec.ofNat 64 i, omcLocal, omcEfGuardRequired⟩) ∨
    (ins.isLoadStore ∧ ¬ ins.isStackAccess ∧
      classifyOp guestPc i ins = some ⟨guestPc + BitVec.ofNat 64 i, omcShared, 0⟩) ∨
    (¬ ins.isAtomic ∧ ¬ ins.isLoadStore ∧ classifyOp guestPc i ins = none) := by
  -- the base register splits the plain accesses
  have hplain (h : ins.isLoadStore) : classifyOp guestPc i ins =
      if ins.rn = grRsp ∨ ins.rn = grRbp
      then some ⟨guestPc + BitVec.ofNat 64 i, omcLocal, omcEfGuardRequired⟩
      else some ⟨guestPc + BitVec.ofNat 64 i, omcShared, 0⟩ := by
    rcases h with h | h <;> rw [classifyOp, h]
  by_cases hatomic : ins.isAtomic
  · refine Or.inl ⟨hatomic, ?_⟩
    rcases hatomic with h | h <;> rw [classifyOp, h]
  by_cases hp : ins.isLoadStore
  · by_cases hbase : ins.rn = grRsp ∨ ins.rn = grRbp
    · exact Or.inr (Or.inl ⟨⟨hp, hbase⟩, by rw [hplain hp, if_pos hbase]⟩)
    · exact Or.inr (Or.inr (Or.inl ⟨hp, fun h => hbase h.2, by rw [hplain hp, if_neg hbase]⟩))
  · refine Or.inr (Or.inr (Or.inr ⟨hatomic, hp, ?_⟩))
    unfold classifyOp
    split
    · exact absurd (Or.inl ‹_›) hp
    · exact absurd (Or.inr ‹_›) hp
    · exact absurd (Or.inl ‹_›) hatomic
    · exact absurd (Or.inr ‹_›) hatomic
    · rfl

/-- The answer drawn from the entry of an operation is the right one. -/
theorem answerFor_classifyOp (guestPc : U64) (i : Nat) (ins : OryxGinsn) (guardConfirmed : U32) :
    AnswerFor ins guardConfirmed (oryxMmapDecide (classifyOp guestPc i ins) guardConfirmed) := by
  rcases classifyOp_cases guestPc i ins with ⟨ha, he⟩ | ⟨hs, he⟩ | ⟨hp, hs, he⟩ | ⟨ha, hp, he⟩
  all_goals rw [he]
  · refine answerFor_of (iff_of_true rfl ha) (iff_of_false OryxOrder.noConfusion fun h => ?_)
    exact isAtomic_not_loadStore ha h.1.1
  · have hna : ¬ ins.isAtomic := fun h => isAtomic_not_loadStore h hs.1
    -- local, with a guard
    have hdecide : oryxMmapDecide
        (some ⟨guestPc + BitVec.ofNat 64 i, omcLocal, omcEfGuardRequired⟩) guardConfirmed =
          if guardConfirmed ≠ 0 then .relax else .tso := by
      have hclass : ¬ omcLocal = omcAtomic := by decide
      have hescaped : ¬ omcEfGuardRequired &&& omcEfEscaped ≠ 0 := by decide
      have hguard : ¬ omcEfGuardRequired &&& omcEfGuardRequired = 0 := by decide
      rw [oryxMmapDecide]
      show (if omcLocal = omcAtomic then OryxOrder.atomic
        else if omcLocal = omcLocal then
          if omcEfGuardRequired &&& omcEfEscaped ≠ 0 then .tso
          else if omcEfGuardRequired &&& omcEfGuardRequired = 0 then .relax
          else if guardConfirmed ≠ 0 then .relax else .tso
        else .tso) = _
      rw [if_neg hclass, if_pos rfl, if_neg hescaped, if_neg hguard]
    rw [hdecide]
    split
    · exact answerFor_of (iff_of_false OryxOrder.noConfusion hna) (iff_of_true rfl ⟨hs, ‹_›⟩)
    · exact answerFor_of (iff_of_false OryxOrder.noConfusion hna)
        (iff_of_false OryxOrder.noConfusion fun h => absurd h.2 ‹_›)
  · have hna : ¬ ins.isAtomic := fun h => isAtomic_not_loadStore h hp
    exact answerFor_of (iff_of_false OryxOrder.noConfusion hna)
      (iff_of_false OryxOrder.noConfusion fun h => hs h.1)
  · exact answerFor_of (iff_of_false OryxOrder.noConfusion ha)
      (iff_of_false OryxOrder.noConfusion fun h => hp h.1.1)

/-- "TSO" is the right answer under both guards exactly for what is not special. -/
theorem answerFor_tso_iff {ins : OryxGinsn} :
    (∀ guardConfirmed, AnswerFor ins guardConfirmed .tso) ↔
      ¬ ins.isAtomic ∧ ¬ ins.isStackAccess := by
  constructor
  · intro h
    -- a guard that is confirmed asks the most
    have h1 := (h 1).tso.mp rfl
    exact ⟨h1.1, fun hs => h1.2 ⟨hs, by decide⟩⟩
  · rintro ⟨hna, hns⟩ guardConfirmed
    exact answerFor_of (iff_of_false OryxOrder.noConfusion hna)
      (iff_of_false OryxOrder.noConfusion fun h => hns h.1)

/-- An entry is shared when its operation is a plain access outside the stack. -/
theorem shared_iff {guestPc : U64} {i : Nat} {ins : OryxGinsn} {e : OryxMmapEntry}
    (h : classifyOp guestPc i ins = some e) :
    e.mclass = omcShared ↔ ¬ ins.isAtomic ∧ ¬ ins.isStackAccess := by
  rcases classifyOp_cases guestPc i ins with ⟨ha, he⟩ | ⟨hs, he⟩ | ⟨hp, hs, he⟩ | ⟨-, -, he⟩
  all_goals
    rw [he] at h
    cases h
  · exact iff_of_false (show ¬ omcAtomic = omcShared by decide) fun h => h.1 ha
  · exact iff_of_false (show ¬ omcLocal = omcShared by decide) fun h => h.2 hs
  · exact iff_of_true rfl ⟨fun ha => isAtomic_not_loadStore ha hp, hs⟩

/-! ### The block end to end -/

/-- Every operation of a block gets its ordering from the map. -/
def AnswersBlock (ops : List OryxGinsn) (guestPc : U64) (m : OryxMmap) : Prop :=
  ∀ i ins, ops[i]? = some ins → ∀ guardConfirmed, AnswerFor ins guardConfirmed
    (oryxMmapDecide (oryxMmapLookup m (guestPc + BitVec.ofNat 64 i)) guardConfirmed)

/-- The map of a block is accepted once serialized, and it answers for the block, before and
after. -/
def Classifies (ops : List OryxGinsn) (guestPc : U64) (moduleIdent : Option (List Byte))
    (isaId analyzerId analyzerVersion : U32) : Prop :=
  let m := oryxMmapClassify ops guestPc moduleIdent isaId analyzerId analyzerVersion
  (∃ m', oryxMmapParse (oryxMmapSerialize m) = .ok m') ∧
    ∀ m', (m' = m ∨ oryxMmapParse (oryxMmapSerialize m) = .ok m') → AnswersBlock ops guestPc m'

/-- The operations that get an entry. -/
def memoryAccesses (ops : List OryxGinsn) : List OryxGinsn :=
  ops.filter fun ins => decide (ins.isAtomic ∨ ins.isLoadStore)

/-- Entries and memory accesses go together. -/
theorem accessEntries_memoryAccesses (guestPc : U64) (i : Nat) (ops : List OryxGinsn) :
    List.Forall₂ (fun e ins => ∃ j, classifyOp guestPc j ins = some e)
      (accessEntries guestPc i ops) (memoryAccesses ops) := by
  induction ops generalizing i with
  | nil => exact List.Forall₂.nil
  | cons ins rest ih =>
    rw [accessEntries, memoryAccesses, List.filter_cons]
    rcases classifyOp_cases guestPc i ins with ⟨ha, he⟩ | ⟨hs, he⟩ | ⟨hp, -, he⟩ | ⟨ha, hp, he⟩
    · rw [if_pos (decide_eq_true (Or.inl ha)), he]
      exact List.Forall₂.cons ⟨i, he⟩ (ih (i + 1))
    · rw [if_pos (decide_eq_true (Or.inr hs.1)), he]
      exact List.Forall₂.cons ⟨i, he⟩ (ih (i + 1))
    · rw [if_pos (decide_eq_true (Or.inr hp)), he]
      exact List.Forall₂.cons ⟨i, he⟩ (ih (i + 1))
    · rw [if_neg (by
        rw [decide_eq_true_eq]
        exact fun h => h.elim ha hp), he]
      exact ih (i + 1)

theorem forall_mem_iff_of_forall₂ {es : List OryxMmapEntry} {xs : List OryxGinsn} {guestPc : U64}
    (h : List.Forall₂ (fun e ins => ∃ j, classifyOp guestPc j ins = some e) es xs) :
    (∀ e ∈ es, e.mclass = omcShared) ↔ ∀ ins ∈ xs, ¬ ins.isAtomic ∧ ¬ ins.isStackAccess := by
  induction h with
  | nil => exact iff_of_true (fun _ h => nomatch h) fun _ h => nomatch h
  | cons hhead _ ih =>
    obtain ⟨j, hj⟩ := hhead
    rw [List.forall_mem_cons, List.forall_mem_cons, shared_iff hj, ih]

/-- The memory accesses whose entries the 32-bit counter forgets. -/
def lostAccesses (ops : List OryxGinsn) : List OryxGinsn :=
  (memoryAccesses ops).take (2 ^ 32 * ((memoryAccesses ops).length / 2 ^ 32))

section Block

variable {ops : List OryxGinsn} {guestPc : U64} (hpc : guestPc.toNat + ops.length < 2 ^ 64)

include hpc

theorem ascending_block :
    ((accessEntries guestPc 0 ops).map OryxMmapEntry.pcKey).Pairwise (· < ·) :=
  ascending_accessEntries (by rwa [Nat.zero_add])

/-- Only operation `i` writes an entry under `guest_pc + i`. -/
theorem mem_accessEntries_pc {i : Nat} {ins : OryxGinsn} (hins : ops[i]? = some ins)
    {e : OryxMmapEntry} :
    (e ∈ accessEntries guestPc 0 ops ∧ e.guestPc = guestPc + BitVec.ofNat 64 i) ↔
      classifyOp guestPc i ins = some e := by
  constructor
  · rintro ⟨hmem, he⟩
    obtain ⟨j, ins', hj, hclass⟩ := mem_accessEntries.mp hmem
    rw [Nat.zero_add] at hclass
    have hsame : guestPc + BitVec.ofNat 64 j = guestPc + BitVec.ofNat 64 i := by
      rw [← guestPc_of_classifyOp hclass, he]
    have hnat := congrArg BitVec.toNat hsame
    rw [toNat_pc_add (List.getElem?_eq_some_iff.mp hj).1 hpc,
      toNat_pc_add (List.getElem?_eq_some_iff.mp hins).1 hpc] at hnat
    obtain rfl : j = i := Nat.add_left_cancel hnat
    rw [hins] at hj
    cases hj
    exact hclass
  · intro hclass
    exact ⟨mem_accessEntries.mpr ⟨i, ins, hins, by rwa [Nat.zero_add]⟩,
      guestPc_of_classifyOp hclass⟩

/-- The lookup of operation `i` finds its entry, if the map still has it. -/
theorem lookup_block {m : OryxMmap} {lost : Nat}
    (hm : m.entries.val = (accessEntries guestPc 0 ops).drop lost) {i : Nat} {ins : OryxGinsn}
    (hins : ops[i]? = some ins) :
    oryxMmapLookup m (guestPc + BitVec.ofNat 64 i) =
      (classifyOp guestPc i ins).filter (· ∈ m.entries.val) := by
  have hasc : (m.entries.val.map OryxMmapEntry.pcKey).Pairwise (· < ·) := by
    rw [hm, List.map_drop]
    exact (ascending_block hpc).sublist (List.drop_sublist _ _)
  apply Option.ext
  intro e
  rw [oryxMmapLookup_eq_some hasc, Option.filter_eq_some_iff, ← mem_accessEntries_pc hpc hins]
  simp only [decide_eq_true_eq]
  constructor
  · rintro ⟨hmem, he⟩
    refine ⟨⟨?_, he⟩, hmem⟩
    rw [hm] at hmem
    exact List.mem_of_mem_drop hmem
  · rintro ⟨⟨-, he⟩, hmem⟩
    exact ⟨hmem, he⟩

/-- The map answers for the block when every entry it has lost was shared. -/
theorem answersBlock_iff {m : OryxMmap} {lost : Nat}
    (hm : m.entries.val = (accessEntries guestPc 0 ops).drop lost) :
    AnswersBlock ops guestPc m ↔
      ∀ e ∈ (accessEntries guestPc 0 ops).take lost, e.mclass = omcShared := by
  -- the addresses differ, so an entry is lost or kept, never both
  have hsplit := List.take_append_drop lost (accessEntries guestPc 0 ops)
  have hnodup : (accessEntries guestPc 0 ops).Nodup :=
    ((ascending_block hpc).imp ne_of_lt).of_map _ fun _ _ h => ne_of_apply_ne _ h
  have hdisjoint : ∀ e ∈ (accessEntries guestPc 0 ops).take lost, e ∉ m.entries.val := by
    rw [← hsplit, List.nodup_append] at hnodup
    intro e he hkept
    rw [hm] at hkept
    exact hnodup.2.2 e he e hkept rfl
  constructor
  · intro h e he
    obtain ⟨i, ins, hins, hclass⟩ := mem_accessEntries.mp (List.mem_of_mem_take he)
    rw [Nat.zero_add] at hclass
    have htso := h i ins hins
    rw [lookup_block hpc hm hins, hclass, Option.filter_some, if_neg (by
      rw [decide_eq_true_eq]
      exact hdisjoint e he)] at htso
    exact (shared_iff hclass).mpr (answerFor_tso_iff.mp htso)
  · intro h i ins hins guardConfirmed
    rw [lookup_block hpc hm hins]
    cases hclass : classifyOp guestPc i ins with
    | none =>
      have hanswer := answerFor_classifyOp guestPc i ins guardConfirmed
      rwa [hclass] at hanswer
    | some e =>
      by_cases hkept : e ∈ m.entries.val
      · have hanswer := answerFor_classifyOp guestPc i ins guardConfirmed
        rw [hclass] at hanswer
        rwa [Option.filter_some, if_pos (decide_eq_true hkept)]
      · -- the entry is lost, so it was shared
        rw [Option.filter_some, if_neg (by rwa [decide_eq_true_eq])]
        have hmem := ((mem_accessEntries_pc hpc hins).mpr hclass).1
        rw [← hsplit, List.mem_append, ← hm] at hmem
        have hshared := h e (hmem.resolve_right hkept)
        exact answerFor_tso_iff.mpr ((shared_iff hclass).mp hshared) guardConfirmed

/-- The map the classifier makes answers for the block unless an entry lost was special. -/
theorem answersBlock_classify_iff (moduleIdent : Option (List Byte))
    (isaId analyzerId analyzerVersion : U32) :
    AnswersBlock ops guestPc
        (oryxMmapClassify ops guestPc moduleIdent isaId analyzerId analyzerVersion) ↔
      ∀ ins ∈ lostAccesses ops, ¬ ins.isAtomic ∧ ¬ ins.isStackAccess := by
  have hentries := entries_oryxMmapClassify ops guestPc moduleIdent isaId analyzerId
    analyzerVersion
  have hboth := accessEntries_memoryAccesses guestPc 0 ops
  rw [answersBlock_iff hpc hentries, lostAccesses, ← hboth.length_eq]
  exact forall_mem_iff_of_forall₂ (List.forall₂_take _ hboth)

/-- Its bytes parse to the map again. -/
theorem oryxMmapParse_classify (moduleIdent : Option (List Byte))
    (isaId analyzerId analyzerVersion : U32) :
    oryxMmapParse (oryxMmapSerialize
        (oryxMmapClassify ops guestPc moduleIdent isaId analyzerId analyzerVersion)) =
      .ok (oryxMmapClassify ops guestPc moduleIdent isaId analyzerId analyzerVersion) := by
  apply oryxMmapParse_serialize
  rw [entries_oryxMmapClassify, List.map_drop]
  exact (ascending_block hpc).sublist (List.drop_sublist _ _)

/-- **The classifier is right end to end** exactly when the count of entries did not wrap, or
lost nothing but shared accesses. -/
theorem classifies_iff (moduleIdent : Option (List Byte))
    (isaId analyzerId analyzerVersion : U32) :
    Classifies ops guestPc moduleIdent isaId analyzerId analyzerVersion ↔
      ∀ ins ∈ lostAccesses ops, ¬ ins.isAtomic ∧ ¬ ins.isStackAccess := by
  have hparse := oryxMmapParse_classify hpc moduleIdent isaId analyzerId analyzerVersion
  rw [← answersBlock_classify_iff hpc moduleIdent isaId analyzerId analyzerVersion]
  constructor
  · intro h
    exact h.2 _ (Or.inl rfl)
  · intro h
    refine ⟨⟨_, hparse⟩, fun m' hm' => ?_⟩
    rcases hm' with rfl | hm'
    · exact h
    · rw [hparse] at hm'
      cases hm'
      exact h

end Block

/-- `mov`, a store to the stack, `cmp`, a load from elsewhere, `lock add`, `ret`. -/
def mixedBlock : List OryxGinsn :=
  [ginsn .movRi 0 0 7, ginsn .store 0 grRsp 0, ginsn .cmpRr 0 1 0, ginsn .load 2 7 0,
    ginsn .atomicAdd 1 7 0, ginsn .x86ret 0 0 0]

/-- Three of the six have entries, and all six are answered. -/
theorem classifies_mixedBlock :
    (oryxMmapClassify mixedBlock 0x400000 none 0 1 1).entries.val.length = 3 ∧
      Classifies mixedBlock 0x400000 none 0 1 1 := by
  refine ⟨rfl, (classifies_iff (by decide) none 0 1 1).mpr fun ins hins => ?_⟩
  have hlost : lostAccesses mixedBlock = [] := rfl
  rw [hlost] at hins
  cases hins

/-- A block of `2 ^ 32` locked additions: the counter is back at zero, and the map is empty. -/
theorem not_classifies_atomicAdd :
    ¬ Classifies (List.replicate (2 ^ 32) (ginsn .atomicAdd 1 7 0)) 0x400000 none 0 1 1 := by
  intro h
  have hpc : (0x400000 : U64).toNat + (List.replicate (2 ^ 32) (ginsn .atomicAdd 1 7 0)).length
      < 2 ^ 64 := by
    rw [List.length_replicate]
    decide
  have hatomic : (ginsn .atomicAdd 1 7 0).isAtomic := Or.inl (GuestOp.ofCode_code .atomicAdd)
  have hall := (answersBlock_classify_iff hpc none 0 1 1).mp (h.2 _ (Or.inl rfl))
  refine (hall (ginsn .atomicAdd 1 7 0) ?_).1 hatomic
  have haccesses : memoryAccesses (List.replicate (2 ^ 32) (ginsn .atomicAdd 1 7 0)) =
      List.replicate (2 ^ 32) (ginsn .atomicAdd 1 7 0) :=
    List.filter_replicate_of_pos (decide_eq_true (Or.inl hatomic))
  rw [lostAccesses, haccesses, List.length_replicate, List.take_replicate]
  exact List.mem_replicate.mpr ⟨by decide, rfl⟩

end Oryx
