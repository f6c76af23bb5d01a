/-
Oryx/OrderedForms.lean

Which accesses are lowered in the ordered form of the chosen strength.

Main result `neverRelaxed_iff`: when no access is relaxed that should not be.
The stack ops are lowered without ordering under every policy, and of the
memory classes only SHARED is ordered.
-/
import Oryx.Stream
import Oryx.CacheKey

namespace Oryx

open A64

variable {cfg : TransCfg} {ops : List OryxGinsn}

/-! ### Ordered forms -/

/-- The access `a` at position `p` is in the ordered form of a strength. -/
def OrderedForm (str : OrderStrength) (is : List Insn) (p : Nat) : Insn → Prop
  | .ldar .. => str = .sc
  | .ldapr .. => str = .rcpc
  | .stlr .. => str ≠ .tso
  | .ldr .. => str = .tso ∧ is[p + 1]? = some (.dmb .ishld)
  | .str .. => str = .tso ∧ 0 < p ∧ is[p - 1]? = some (.dmb .ishst)
  | _ => False

/-- Every ordinary access of the sequence is in ordered form. -/
def OrderedInsns (str : OrderStrength) (is : List Insn) : Prop :=
  ∀ p a, is[p]? = some a → a.isOrdinary = true → OrderedForm str is p a

theorem orderedInsns_of_quiet {str : OrderStrength} {is : List Insn}
    (h : ∀ a ∈ is, a.isOrdinary = false) : OrderedInsns str is := by
  intro p a hp hord
  rw [h a (List.mem_of_getElem? hp)] at hord
  cases hord

theorem not_ordinary_of_quiet {a : Insn} (h : isQuiet a = true) : a.isOrdinary = false := by
  cases a <;> first | rfl | cases h

/-- Behind the address computation stands the only access. -/
theorem access_addrInsns {i : OryxGinsn} {x a : Insn} (ha : a ∈ addrInsns i ++ [x])
    (hacc : a.isAccess = true) : a = x := by
  rcases List.mem_append.mp ha with hmem | hmem
  · have hquiet : (addrInsns i).all isQuiet = true := all_addrInsns fun _ => rfl
    rw [not_access_of_quiet (List.all_eq_true.mp hquiet a hmem)] at hacc
    cases hacc
  · exact List.mem_singleton.mp hmem

theorem isAccess_of_isOrdinary {a : Insn} (h : a.isOrdinary = true) : a.isAccess = true := by
  cases a <;> first | rfl | cases h

/-- An ordered LOAD is lowered in ordered form. -/
theorem loadInsns_ordered {i : OryxGinsn} (h : orderedAccess cfg i = true) :
    OrderedInsns cfg.strength (loadInsns cfg i) := by
  intro p a hp hord
  cases hs : cfg.strength with
  | tso =>
    rw [loadInsns_tso h hs] at hp ⊢
    match p with
    | 0 =>
      cases hp
      exact ⟨rfl, rfl⟩
    | 1 =>
      cases hp
      cases hord
    | p + 2 => cases hp
  | rcpc =>
    rw [loadInsns_rcpc h hs] at hp
    rw [access_addrInsns (List.mem_of_getElem? hp) (isAccess_of_isOrdinary hord)]
    rfl
  | sc =>
    rw [loadInsns_sc h hs] at hp
    rw [access_addrInsns (List.mem_of_getElem? hp) (isAccess_of_isOrdinary hord)]
    rfl

/-- An ordered STORE is lowered in ordered form. -/
theorem storeInsns_ordered {i : OryxGinsn} (h : orderedAccess cfg i = true) :
    OrderedInsns cfg.strength (storeInsns cfg i) := by
  intro p a hp hord
  by_cases hs : cfg.strength = .tso
  · rw [storeInsns_tso h hs] at hp ⊢
    match p with
    | 0 =>
      cases hp
      cases hord
    | 1 =>
      cases hp
      exact ⟨hs, Nat.one_pos, rfl⟩
    | p + 2 => cases hp
  · rw [storeInsns_release h hs] at hp
    rw [access_addrInsns (List.mem_of_getElem? hp) (isAccess_of_isOrdinary hord)]
    exact hs

/-- A weak LOAD is not in ordered form. -/
theorem not_orderedInsns_weakLoad {i : OryxGinsn} (str : OrderStrength)
    (h : orderedAccess cfg i = false) : ¬ OrderedInsns str (loadInsns cfg i) := by
  intro hord
  rw [loadInsns_weak h] at hord
  obtain ⟨-, hfence⟩ := hord 0 _ rfl rfl
  cases hfence

theorem not_orderedInsns_weakStore {i : OryxGinsn} (str : OrderStrength)
    (h : orderedAccess cfg i = false) : ¬ OrderedInsns str (storeInsns cfg i) := by
  intro hord
  rw [storeInsns_weak h] at hord
  obtain ⟨-, hpos, -⟩ := hord 0 _ rfl rfl
  exact Nat.lt_irrefl 0 hpos

/-- No stack op is in ordered form: its access stands next to the update of
`RSP` or the branch. -/
theorem not_orderedInsns_stack (i : OryxGinsn) {op : GuestOp} (str : OrderStrength)
    (h : op.usesStack = true) : ¬ OrderedInsns str (opInsns cfg i op) := by
  intro hord
  cases op with
  | push =>
    obtain ⟨-, -, hfence⟩ := hord 1 _ rfl rfl
    cases hfence
  | pop =>
    obtain ⟨-, hfence⟩ := hord 0 _ rfl rfl
    cases hfence
  | x86ret =>
    obtain ⟨-, hfence⟩ := hord 0 _ rfl rfl
    cases hfence
  -- the word before the store is the subtraction, no fence
  | call =>
    have hstr : (opInsns cfg i .call)[(movimmInsns 16 i.imm).length + 1]? =
        some (.str 16 4 0) := by
      rw [opInsns, List.getElem?_append_right (Nat.le_add_right _ 1), Nat.add_sub_cancel_left]
      rfl
    have hsub : (opInsns cfg i .call)[(movimmInsns 16 i.imm).length + 1 - 1]? =
        some (.addSubImm true false 4 4 8) := by
      rw [opInsns, Nat.add_sub_cancel, List.getElem?_append_right (Nat.le_refl _), Nat.sub_self]
      rfl
    obtain ⟨-, -, hfence⟩ := hord _ _ hstr rfl
    rw [hsub] at hfence
    cases hfence
  | _ => cases h

/-- An op that is no LOAD, STORE or stack op makes no ordinary access. -/
theorem not_ordinary_opInsns (i : OryxGinsn) {op : GuestOp} (hstack : op.usesStack = false)
    (hload : op ≠ .load) (hstore : op ≠ .store) : ∀ a ∈ opInsns cfg i op, a.isOrdinary = false := by
  intro a ha
  by_cases hq : op.accesses = false ∧ op ≠ .fence
  · exact not_ordinary_of_quiet (List.all_eq_true.mp (quiet_opInsns cfg i hq.1 hq.2) a ha)
  · cases op with
    | load => exact absurd rfl hload
    | store => exact absurd rfl hstore
    | push => cases hstack
    | pop => cases hstack
    | call => cases hstack
    | x86ret => cases hstack
    | atomicAdd => exact List.mem_singleton.mp ha ▸ rfl
    | atomicCas => exact List.mem_singleton.mp ha ▸ rfl
    | fence => exact List.mem_singleton.mp ha ▸ rfl
    | _ => exact absurd ⟨rfl, GuestOp.noConfusion⟩ hq

/-- Which ops are lowered in ordered form. -/
theorem orderedInsns_iff (i : OryxGinsn) (op : GuestOp) :
    OrderedInsns cfg.strength (opInsns cfg i op) ↔
      op.usesStack = false ∧ ((op = .load ∨ op = .store) → orderedAccess cfg i = true) := by
  constructor
  · intro hord
    refine ⟨?_, ?_⟩
    · cases hstack : op.usesStack with
      | true => exact absurd hord (not_orderedInsns_stack i cfg.strength hstack)
      | false => rfl
    · intro hop
      cases hacc : orderedAccess cfg i with
      | true => rfl
      | false =>
        rcases hop with rfl | rfl
        · exact absurd hord (not_orderedInsns_weakLoad _ hacc)
        · exact absurd hord (not_orderedInsns_weakStore _ hacc)
  · -- the other ops have no ordinary access
    rintro ⟨hstack, hacc⟩
    by_cases hload : op = .load
    · rw [hload]
      exact loadInsns_ordered (hacc (Or.inl hload))
    · by_cases hstore : op = .store
      · rw [hstore]
        exact storeInsns_ordered (hacc (Or.inr hstore))
      · exact orderedInsns_of_quiet (not_ordinary_opInsns i hstack hload hstore)

/-! ### Never relax on doubt -/

/-- The words are lowered in ordered form: every ordinary access among them is
in the ordered form of the strength. -/
def LoweredOrdered (str : OrderStrength) (ws : List Word) : Prop :=
  ∃ is, DecodesTo ws is ∧ OrderedInsns str is

/-- No access is relaxed that should not be: under CONSERVATIVE every op is
lowered in ordered form; under DRF a LOAD or STORE that is not is LOCAL. -/
def NeverRelaxed (cfg : TransCfg) (ops : List OryxGinsn) : Prop :=
  (cfg.policy = .conservative → ∀ i ∈ ops, LoweredOrdered cfg.strength (opWords cfg i)) ∧
  (cfg.policy = .drf → ∀ i ∈ ops, (i.opcode = some .load ∨ i.opcode = some .store) →
    ¬ LoweredOrdered cfg.strength (opWords cfg i) → i.mclass = mclassLocal)

theorem loweredOrdered_iff {i : OryxGinsn} {op : GuestOp} (hop : i.opcode = some op)
    (hdec : DecodesTo (opWords cfg i) (insnsOf cfg i)) :
    LoweredOrdered cfg.strength (opWords cfg i) ↔
      op.usesStack = false ∧ ((op = .load ∨ op = .store) → orderedAccess cfg i = true) := by
  have hinsns : insnsOf cfg i = opInsns cfg i op := by rw [insnsOf, hop]
  rw [hinsns] at hdec
  rw [← orderedInsns_iff]
  constructor
  · rintro ⟨is, his, hord⟩
    rwa [hdec.unique his]
  · intro hord
    exact ⟨_, hdec, hord⟩

/-- **When no access is relaxed on doubt**: under CONSERVATIVE exactly when the
block has no stack op, under DRF exactly when no LOAD or STORE has a memory
class other than LOCAL and SHARED. -/
theorem neverRelaxed_iff {profileId : U32} {tu : OryxTu} {st : OryxMmStats}
    (h : oryxTranslateEx ops cfg profileId = .ok (tu, st)) :
    codeWords tu = ops.flatMap (opWords cfg) ∧
    (NeverRelaxed cfg ops ↔
      (cfg.policy = .conservative → ∀ i ∈ ops, ∀ op, i.opcode = some op → op.usesStack = false) ∧
      (cfg.policy = .drf → ∀ i ∈ ops, (i.opcode = some .load ∨ i.opcode = some .store) →
        i.mclass = mclassLocal ∨ i.mclass = mclassShared)) := by
  refine ⟨(codeWords_translated h).1, ?_⟩
  obtain ⟨hops, hdec, -⟩ := translated_stream h
  have hop : ∀ i ∈ ops, ∃ op, i.opcode = some op ∧
      (LoweredOrdered cfg.strength (opWords cfg i) ↔
        op.usesStack = false ∧ ((op = .load ∨ op = .store) → orderedAccess cfg i = true)) := by
    intro i hi
    obtain ⟨op, hop⟩ := hops i hi
    exact ⟨op, hop, loweredOrdered_iff hop (hdec i hi)⟩
  refine and_congr (imp_congr_right fun hpol => ?_) (imp_congr_right fun hpol => ?_)
  · -- CONSERVATIVE: every LOAD and STORE is ordered, so only the stack ops matter
    apply forall₂_congr
    intro i hi
    obtain ⟨op, hopc, hiff⟩ := hop i hi
    rw [hiff, hopc]
    constructor
    · rintro ⟨hstack, -⟩ op' hop'
      rwa [← Option.some.inj hop']
    · intro hstack
      exact ⟨hstack op rfl, fun _ => orderedAccess_conservative hpol i⟩
  · -- DRF: the class of the access decides
    apply forall₂_congr
    intro i hi
    apply imp_congr_right
    intro hls
    obtain ⟨op, hopc, hiff⟩ := hop i hi
    have hls' : op = .load ∨ op = .store := by
      rcases hls with h | h
      · exact Or.inl (Option.some.inj (hopc.symm.trans h))
      · exact Or.inr (Option.some.inj (hopc.symm.trans h))
    have hstack : op.usesStack = false := by
      rcases hls' with rfl | rfl <;> rfl
    rw [hiff]
    simp only [hstack, hls', true_and, forall_true_left, orderedAccess_drf_iff hpol]
    exact or_iff_not_imp_right.symm

/-- `push rax; ret`. -/
def pushRet : List OryxGinsn := [ginsn .push 0 0 0, ginsn .ret 0 0 0]

/-- A load of class `mclass`, then `ret`. -/
def loadRet (mclass : CInt) : List OryxGinsn :=
  [{ ginsn .load 0 3 8 with mclass := mclass }, ginsn .ret 0 0 0]

/-- A block at `0x1000` that covers 4 guest bytes. -/
def blockCfg (policy : MmPolicy) (strength : OrderStrength) : TransCfg :=
  ⟨policy, strength, 0x1000, 4⟩

/-- A push under CONSERVATIVE and a load of class 2 under DRF are relaxed. -/
theorem not_neverRelaxed_push_and_class2 :
    (∃ r, oryxTranslateEx pushRet (blockCfg .conservative .sc) 0 = .ok r) ∧
      ¬ NeverRelaxed (blockCfg .conservative .sc) pushRet ∧
      (∃ r, oryxTranslateEx (loadRet 2) (blockCfg .drf .sc) 0 = .ok r) ∧
      ¬ NeverRelaxed (blockCfg .drf .sc) (loadRet 2) := by
  refine ⟨⟨_, rfl⟩, ?_, ⟨_, rfl⟩, ?_⟩
  · rintro ⟨hcons, -⟩
    have hpush := hcons rfl (ginsn .push 0 0 0) List.mem_cons_self
    exact Bool.noConfusion ((loweredOrdered_iff rfl (decode_opWords rfl)).mp hpush).1
  · rintro ⟨-, hdrf⟩
    have hlocal := hdrf rfl _ List.mem_cons_self (Or.inl rfl) fun hord => by
      have hacc := ((loweredOrdered_iff rfl (decode_opWords rfl)).mp hord).2 (Or.inl rfl)
      exact Bool.noConfusion hacc
    exact absurd hlocal (by decide)

/-- A load under CONSERVATIVE is not relaxed, whatever its class. -/
theorem neverRelaxed_load_conservative :
    NeverRelaxed (blockCfg .conservative .tso) (loadRet 7) := by
  refine (@neverRelaxed_iff (blockCfg .conservative .tso) (loadRet 7) 0 _ _ rfl).2.mpr ⟨?_, ?_⟩
  · intro _ i hi op hop
    rcases List.mem_cons.mp hi with rfl | hi
    · cases hop
      rfl
    · rw [List.mem_singleton.mp hi] at hop
      cases hop
      rfl
  · intro h
    cases h

end Oryx
