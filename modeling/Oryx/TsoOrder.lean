/-
Oryx/TsoOrder.lean

What the ordered lowerings order.

Every ordered LOAD and STORE is emitted in the ordered form of the chosen
strength, and from the form alone follow the ordering edges of a TSO access,
at any distance (`orderedForm_load`, `orderedForm_store`).  That no store is
ordered before a later load is an invariant of the closure: without atomics,
fences and `LDAR`s every edge out of a store leads to a store
(`edge_of_store`).

Main result `orderedLowerings_tso`.
-/
import Oryx.OrderedForms

namespace Oryx

open A64 StreamOrder

variable {cfg : TransCfg} {ops : List OryxGinsn}

/-! ### Edges of an ordered access -/

/-- Position `p` of the stream holds an access, a load, a store. -/
def AccessAt (s : List Insn) (p : Nat) : Prop := ∃ a, s[p]? = some a ∧ a.isAccess = true
def LoadAt (s : List Insn) (p : Nat) : Prop := ∃ a, s[p]? = some a ∧ a.isLoad = true
def StoreAt (s : List Insn) (p : Nat) : Prop := ∃ a, s[p]? = some a ∧ a.isStore = true

theorem isAccess_of_isStore {a : Insn} (h : a.isStore = true) : a.isAccess = true := by
  rw [Insn.isAccess, h, Bool.or_true]

/-- A load in ordered form is ordered before every later access: it acquires,
or the barrier behind it orders it. -/
theorem orderedForm_load {str : OrderStrength} {s is : List Insn} {o j q : Nat} {a : Insn}
    (hemb : ∀ m x, is[m]? = some x → s[o + m]? = some x) (hj : is[j]? = some a)
    (hload : a.isLoad = true) (hform : OrderedForm str is j a) (hlt : o + j < q)
    (hq : AccessAt s q) : Ordered baseRules s (o + j) q := by
  obtain ⟨b, hb, hacc⟩ := hq
  have hp := hemb j a hj
  cases a with
  | ldar rt rn => exact ordered_of_acquire hp hb hlt rfl hacc
  | ldapr rt rn => exact ordered_of_acquire hp hb hlt rfl hacc
  | ldr rt rn imm12 =>
    obtain ⟨-, hfence⟩ := hform
    have hm := hemb (j + 1) _ hfence
    have hne : q ≠ o + (j + 1) := by
      rintro rfl
      rw [hm] at hb
      cases hb
      cases hacc
    apply ordered_of_fence hp hm hb (by omega) (by omega)
    exact hacc
  | ldaddal rs rt rn => cases hform
  | casal rs rt rn => cases hform
  | _ => cases hload

/-- A store in ordered form is ordered after every earlier store: it releases,
or the barrier in front of it orders it. -/
theorem orderedForm_store {str : OrderStrength} {s is : List Insn} {o j p : Nat} {b : Insn}
    (hemb : ∀ m x, is[m]? = some x → s[o + m]? = some x) (hj : is[j]? = some b)
    (hstore : b.isStore = true) (hform : OrderedForm str is j b) (hlt : p < o + j)
    (hp : StoreAt s p) : Ordered baseRules s p (o + j) := by
  obtain ⟨a, ha, hst⟩ := hp
  have hq := hemb j b hj
  cases b with
  | stlr rt rn => exact ordered_of_release ha hq hlt (isAccess_of_isStore hst) rfl
  | str rt rn imm12 =>
    obtain ⟨-, hpos, hfence⟩ := hform
    have hm := hemb (j - 1) _ hfence
    have hne : p ≠ o + (j - 1) := by
      rintro rfl
      rw [hm] at ha
      cases ha
      cases hst
    apply ordered_of_fence ha hm hq (by omega) (by omega)
    exact (Bool.and_true _).trans hst
  | ldaddal rs rt rn => cases hform
  | casal rs rt rn => cases hform
  | _ => cases hstore

/-- Under SC an ordered store is an `STLR` and an ordered load an `LDAR`. -/
theorem pairs_of_sc {str : OrderStrength} {is js : List Insn} {m n : Nat} {a b : Insn}
    (hs : str = .sc) (ha : OrderedForm str is m a) (hstore : a.isStore = true)
    (hb : OrderedForm str js n b) (hload : b.isLoad = true) : baseRules.pairs a b = true := by
  subst hs
  cases a with
  | stlr rt rn =>
    cases b with
    | ldar rt rn => rfl
    | ldapr rt rn => cases hb
    | ldr rt rn imm12 => cases hb.1
    | ldaddal rs rt rn => cases hb
    | casal rs rt rn => cases hb
    | _ => cases hload
  | str rt rn imm12 => cases ha.1
  | ldaddal rs rt rn => cases ha
  | casal rs rt rn => cases ha
  | _ => cases hstore

/-! ### Ordered ops in the stream -/

/-- The op is a LOAD or STORE (`op`) that is ordered: SHARED, or any under
CONSERVATIVE. -/
def OrderedOp (cfg : TransCfg) (op : GuestOp) (i : OryxGinsn) : Prop :=
  i.opcode = some op ∧ (cfg.policy = .conservative ∨ i.mclass = mclassShared)

theorem OrderedOp.orderedAccess {op : GuestOp} {i : OryxGinsn} (h : OrderedOp cfg op i) :
    orderedAccess cfg i = true := by
  obtain ⟨-, h⟩ := h
  simpa [Oryx.orderedAccess] using h

/-- An access among the instructions of a LOAD is an ordinary load. -/
theorem access_loadInsns {i : OryxGinsn} {a : Insn} (h : orderedAccess cfg i = true)
    (ha : a ∈ loadInsns cfg i) (hacc : a.isAccess = true) :
    a.isOrdinary = true ∧ a.isLoad = true := by
  cases hs : cfg.strength with
  | tso =>
    rw [loadInsns_tso h hs] at ha
    rcases List.mem_cons.mp ha with rfl | ha
    · exact ⟨rfl, rfl⟩
    · rw [List.mem_singleton.mp ha] at hacc
      cases hacc
  | rcpc =>
    rw [loadInsns_rcpc h hs] at ha
    rw [access_addrInsns ha hacc]
    exact ⟨rfl, rfl⟩
  | sc =>
    rw [loadInsns_sc h hs] at ha
    rw [access_addrInsns ha hacc]
    exact ⟨rfl, rfl⟩

theorem access_storeInsns {i : OryxGinsn} {a : Insn} (h : orderedAccess cfg i = true)
    (ha : a ∈ storeInsns cfg i) (hacc : a.isAccess = true) :
    a.isOrdinary = true ∧ a.isStore = true := by
  by_cases hs : cfg.strength = .tso
  · rw [storeInsns_tso h hs] at ha
    rcases List.mem_cons.mp ha with rfl | ha
    · cases hacc
    · rw [List.mem_singleton.mp ha]
      exact ⟨rfl, rfl⟩
  · rw [storeInsns_release h hs] at ha
    rw [access_addrInsns ha hacc]
    exact ⟨rfl, rfl⟩

theorem exists_access_loadInsns (cfg : TransCfg) (i : OryxGinsn) :
    ∃ a ∈ loadInsns cfg i, a.isAccess = true := by
  cases hacc : orderedAccess cfg i with
  | false => exact ⟨_, loadInsns_weak hacc ▸ List.mem_cons_self, rfl⟩
  | true =>
    cases hs : cfg.strength with
    | tso => exact ⟨_, loadInsns_tso hacc hs ▸ List.mem_cons_self, rfl⟩
    | rcpc => exact ⟨_, loadInsns_rcpc hacc hs ▸ List.mem_append_right _ List.mem_cons_self, rfl⟩
    | sc => exact ⟨_, loadInsns_sc hacc hs ▸ List.mem_append_right _ List.mem_cons_self, rfl⟩

theorem exists_access_storeInsns (cfg : TransCfg) (i : OryxGinsn) :
    ∃ a ∈ storeInsns cfg i, a.isAccess = true := by
  cases hacc : orderedAccess cfg i with
  | false => exact ⟨_, storeInsns_weak hacc ▸ List.mem_cons_self, rfl⟩
  | true =>
    by_cases hs : cfg.strength = .tso
    · exact ⟨_, storeInsns_tso hacc hs ▸ List.mem_cons_of_mem _ List.mem_cons_self, rfl⟩
    · exact ⟨_, storeInsns_release hacc hs ▸ List.mem_append_right _ List.mem_cons_self, rfl⟩

/-- The access of an ordered op: where it stands and that it is in ordered form. -/
theorem orderedOp_access {k p : Nat} {i : OryxGinsn} {op : GuestOp}
    (hdec : ∀ i ∈ ops, DecodesTo (opWords cfg i) (insnsOf cfg i)) (hk : ops[k]? = some i)
    (hi : OrderedOp cfg op i) (hop : op = .load ∨ op = .store) (hp : OfOp cfg ops k p)
    (hacc : AccessAt (blockInsns cfg ops) p) :
    ∃ j a, p = opStart cfg ops k + j ∧ (insnsOf cfg i)[j]? = some a ∧
      OrderedForm cfg.strength (insnsOf cfg i) j a ∧
      (op = .load → a.isLoad = true) ∧ (op = .store → a.isStore = true) := by
  obtain ⟨a, ha, haccess⟩ := hacc
  rw [getElem?_ofOp hdec hk hp] at ha
  have hord := hi.orderedAccess
  refine ⟨p - opStart cfg ops k, a, ?_, ha, ?_⟩
  · have := hp.1
    omega
  · -- the address computation accesses nothing
    have hmem := List.mem_of_getElem? ha
    rcases hop with rfl | rfl
    · have hins : insnsOf cfg i = loadInsns cfg i := by rw [insnsOf, hi.1]; rfl
      rw [hins] at ha hmem ⊢
      obtain ⟨hordin, hload⟩ := access_loadInsns hord hmem haccess
      exact ⟨loadInsns_ordered hord _ _ ha hordin, fun _ => hload, GuestOp.noConfusion⟩
    · have hins : insnsOf cfg i = storeInsns cfg i := by rw [insnsOf, hi.1]; rfl
      rw [hins] at ha hmem ⊢
      obtain ⟨hordin, hstore⟩ := access_storeInsns hord hmem haccess
      exact ⟨storeInsns_ordered hord _ _ ha hordin, GuestOp.noConfusion, fun _ => hstore⟩

/-! ### What must stay unordered -/

/-- No atomic, no full barrier and no `LDAR`: nothing that orders a store
before a later load. -/
def keepsRelaxed : Insn → Bool
  | .ldaddal .. => false
  | .casal .. => false
  | .dmb .ish => false
  | .ldar .. => false
  | _ => true

theorem keepsRelaxed_of_quiet {a : Insn} (h : isQuiet a = true) : keepsRelaxed a = true := by
  cases a <;> first | rfl | cases h

/-- Without atomics and fences, only the `LDAR`s of SC order a store before a
load. -/
theorem keepsRelaxed_opInsns (i : OryxGinsn) {op : GuestOp} (hs : cfg.strength ≠ .sc)
    (hadd : op ≠ .atomicAdd) (hcas : op ≠ .atomicCas) (hfence : op ≠ .fence) :
    (opInsns cfg i op).all keepsRelaxed = true := by
  have haddr : (addrInsns i).all keepsRelaxed = true := all_addrInsns fun _ => rfl
  cases op with
  | load =>
    rw [opInsns]
    cases hacc : orderedAccess cfg i with
    | false =>
      rw [loadInsns_weak hacc]
      rfl
    | true =>
      cases hstr : cfg.strength with
      | sc => exact absurd hstr hs
      | rcpc =>
        rw [loadInsns_rcpc hacc hstr, List.all_append, haddr]
        rfl
      | tso =>
        rw [loadInsns_tso hacc hstr]
        rfl
  | store =>
    rw [opInsns]
    cases hacc : orderedAccess cfg i with
    | false =>
      rw [storeInsns_weak hacc]
      rfl
    | true =>
      by_cases hstr : cfg.strength = .tso
      · rw [storeInsns_tso hacc hstr]
        rfl
      · rw [storeInsns_release hacc hstr, List.all_append, haddr]
        rfl
  | atomicAdd => exact absurd rfl hadd
  | atomicCas => exact absurd rfl hcas
  | fence => exact absurd rfl hfence
  | call =>
    rw [opInsns, List.all_append, all_movimmInsns fun _ _ _ => rfl]
    rfl
  | push => rfl
  | pop => rfl
  | x86ret => rfl
  | _ =>
    exact List.all_eq_true.mpr fun a ha =>
      keepsRelaxed_of_quiet (List.all_eq_true.mp (quiet_opInsns cfg i rfl hfence) a ha)

theorem isStore_of_acquires {a : Insn} (h : baseRules.acquires a = true) : a.isStore = false := by
  cases a <;> first | rfl | cases h

theorem isStore_of_releases {a : Insn} (h : baseRules.releases a = true) : a.isStore = true := by
  cases a <;> first | rfl | cases h

/-- Only an atomic is a load and a store. -/
theorem isLoad_of_isStore {a : Insn} (hkeep : keepsRelaxed a = true) (hst : a.isStore = true) :
    a.isLoad = false := by
  cases a <;> first | rfl | (cases hst; done) | cases hkeep

theorem pairs_of_keepsRelaxed {a b : Insn} (hkeep : keepsRelaxed b = true) :
    baseRules.pairs a b = false := by
  cases a <;> first | rfl | (cases b <;> first | rfl | cases hkeep)

/-- What a remaining fence orders after a store is a store. -/
theorem isStore_of_fences {c a b : Insn} (hc : keepsRelaxed c = true) (ha : keepsRelaxed a = true)
    (hst : a.isStore = true) (h : baseRules.fences c a b = true) : b.isStore = true := by
  cases c with
  | dmb kind =>
    cases kind with
    | ish => cases hc
    | ishst => exact (Bool.and_eq_true_iff.mp h).2
    | ishld =>
      have hload : a.isLoad = true := (Bool.and_eq_true_iff.mp h).1
      rw [isLoad_of_isStore ha hst] at hload
      cases hload
  | _ => cases h

/-- In such a stream every edge out of a store leads to a store. -/
theorem edge_of_store {s : List Insn} (hs : ∀ a ∈ s, keepsRelaxed a = true) {p q : Nat}
    (hp : StoreAt s p) (h : Edge baseRules s p q) : StoreAt s q := by
  obtain ⟨a, ha, hst⟩ := hp
  cases h with
  | via hvia =>
    cases hvia with
    | acquire hm _ _ hc _ =>
      rw [ha] at hm
      cases hm
      rw [isStore_of_acquires hc] at hst
      cases hst
    | release _ hm _ _ hc => exact ⟨_, hm, isStore_of_releases hc⟩
    | fence hp' hm hq _ _ hc =>
      rw [ha] at hp'
      cases hp'
      exact ⟨_, hq, isStore_of_fences (hs _ (List.mem_of_getElem? hm))
        (hs a (List.mem_of_getElem? ha)) hst hc⟩
  | pair _ hq _ hpair =>
    rw [pairs_of_keepsRelaxed (hs _ (List.mem_of_getElem? hq))] at hpair
    cases hpair

/-- **The store-to-load edge stays absent**, in the closure too. -/
theorem not_ordered_store_load {s : List Insn} (hs : ∀ a ∈ s, keepsRelaxed a = true) {p q : Nat}
    (hp : StoreAt s p) (hq : LoadAt s q) : ¬ Ordered baseRules s p q := by
  intro h
  obtain ⟨a, ha, hst⟩ := h.invariant (fun _ _ => edge_of_store hs) hp
  obtain ⟨b, hb, hload⟩ := hq
  rw [ha] at hb
  cases hb
  rw [isLoad_of_isStore (hs a (List.mem_of_getElem? ha)) hst] at hload
  cases hload

/-! ### Exactly TSO -/

/-- The access of an ordered op is there. -/
theorem exists_orderedOp_access {k : Nat} {i : OryxGinsn} {op : GuestOp}
    (hdec : ∀ i ∈ ops, DecodesTo (opWords cfg i) (insnsOf cfg i)) (hk : ops[k]? = some i)
    (hi : OrderedOp cfg op i) (hop : op = .load ∨ op = .store) :
    ∃ p, OfOp cfg ops k p ∧ AccessAt (blockInsns cfg ops) p := by
  have hmem : ∃ a ∈ insnsOf cfg i, a.isAccess = true := by
    have hins : insnsOf cfg i = opInsns cfg i op := by rw [insnsOf, hi.1]
    rw [hins]
    rcases hop with rfl | rfl
    · exact exists_access_loadInsns cfg i
    · exact exists_access_storeInsns cfg i
  obtain ⟨a, ha, hacc⟩ := hmem
  obtain ⟨j, hj⟩ := List.getElem?_of_mem ha
  have hlt := (List.getElem?_eq_some_iff.mp hj).1
  refine ⟨opStart cfg ops k + j, ⟨Nat.le_add_right _ j, ?_⟩, a, embeds_ofOp hdec hk j a hj, hacc⟩
  rw [(stream_split hdec hk).2]
  omega

/-- The stream has the edges of TSO and no others. -/
structure TsoOrder (cfg : TransCfg) (ops : List OryxGinsn) (s : List Insn) : Prop where
  /-- an ordered load is ordered before every later access -/
  load : ∀ k i, ops[k]? = some i → OrderedOp cfg .load i →
    (∃ p, OfOp cfg ops k p ∧ AccessAt s p) ∧
    ∀ p q, OfOp cfg ops k p → AccessAt s p → p < q → AccessAt s q → Ordered baseRules s p q
  /-- every earlier store is ordered before an ordered store -/
  store : ∀ k i, ops[k]? = some i → OrderedOp cfg .store i →
    (∃ q, OfOp cfg ops k q ∧ AccessAt s q) ∧
    ∀ p q, OfOp cfg ops k q → AccessAt s q → p < q → StoreAt s p → Ordered baseRules s p q
  /-- under RCPC and TSO no store is ordered before a later load -/
  relaxed : cfg.strength ≠ .sc →
    (∀ i ∈ ops, i.opcode ≠ some .atomicAdd ∧ i.opcode ≠ some .atomicCas ∧
      i.opcode ≠ some .fence) →
    ∀ p q, StoreAt s p → LoadAt s q → p < q → ¬ Ordered baseRules s p q
  /-- under SC every ordered store is ordered before every later ordered load -/
  sc : cfg.strength = .sc → ∀ k l i j, ops[k]? = some i → ops[l]? = some j →
    OrderedOp cfg .store i → OrderedOp cfg .load j →
    ∀ p q, OfOp cfg ops k p → AccessAt s p → OfOp cfg ops l q → AccessAt s q → p < q →
      Ordered baseRules s p q

/-- **The ordered lowerings are exactly TSO.** -/
theorem orderedLowerings_tso {profileId : U32} {tu : OryxTu} {st : OryxMmStats}
    (h : oryxTranslateEx ops cfg profileId = .ok (tu, st)) :
    ∃ s, DecodesTo (codeWords tu) s ∧ TsoOrder cfg ops s := by
  obtain ⟨hops, hdec, hwords⟩ := translated_stream h
  refine ⟨blockInsns cfg ops, hwords, ?_, ?_, ?_, ?_⟩
  · intro k i hk hi
    refine ⟨exists_orderedOp_access hdec hk hi (Or.inl rfl), ?_⟩
    intro p q hp hacc hlt hq
    obtain ⟨j, a, rfl, ha, hform, hload, -⟩ := orderedOp_access hdec hk hi (Or.inl rfl) hp hacc
    exact orderedForm_load (embeds_ofOp hdec hk) ha (hload rfl) hform hlt hq
  · intro k i hk hi
    refine ⟨exists_orderedOp_access hdec hk hi (Or.inr rfl), ?_⟩
    intro p q hq hacc hlt hp
    obtain ⟨j, b, rfl, hb, hform, -, hstore⟩ := orderedOp_access hdec hk hi (Or.inr rfl) hq hacc
    exact orderedForm_store (embeds_ofOp hdec hk) hb (hstore rfl) hform hlt hp
  · -- without LOCK ops and fences nothing holds a store before a load
    intro hs hsync p q hp hq _
    refine not_ordered_store_load ?_ hp hq
    intro a ha
    obtain ⟨i, hi, hmem⟩ := mem_blockInsns ha
    obtain ⟨op, hop⟩ := hops i hi
    obtain ⟨hadd, hcas, hfence⟩ := hsync i hi
    rw [hop, Ne, Option.some.injEq] at hadd hcas hfence
    rw [insnsOf, hop] at hmem
    exact List.all_eq_true.mp (keepsRelaxed_opInsns i hs hadd hcas hfence) a hmem
  · -- under SC a release stands before an acquire
    intro hs k l i j hk hl hi hj p q hp hpacc hq hqacc hlt
    obtain ⟨m, a, rfl, ha, haform, -, hstore⟩ := orderedOp_access hdec hk hi (Or.inr rfl) hp hpacc
    obtain ⟨n, b, rfl, hb, hbform, hload, -⟩ := orderedOp_access hdec hl hj (Or.inl rfl) hq hqacc
    exact ordered_of_pair (embeds_ofOp hdec hk m a ha) (embeds_ofOp hdec hl n b hb) hlt
      (pairs_of_sc hs haform (hstore rfl) hbform (hload rfl))

/-- A shared store, a local load, a shared load, then `ret`. -/
def storeLoadRet : List OryxGinsn :=
  [{ ginsn .store 0 3 8 with mclass := mclassShared }, ginsn .load 1 3 16,
    { ginsn .load 2 3 24 with mclass := mclassShared }, ginsn .ret 0 0 0]

/-- A weak load between an ordered store and an ordered load, under RCPC. -/
theorem orderedLowerings_tso_storeLoad :
    ∃ tu st, oryxTranslateEx storeLoadRet (blockCfg .drf .rcpc) 0 = .ok (tu, st) ∧
      ∃ s, DecodesTo (codeWords tu) s ∧ TsoOrder (blockCfg .drf .rcpc) storeLoadRet s :=
  ⟨_, _, rfl, @orderedLowerings_tso (blockCfg .drf .rcpc) storeLoadRet 0 _ _ rfl⟩

end Oryx
