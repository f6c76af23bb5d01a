/-
Oryx/Accounting.lean

The counters of a translation, and what the two policies cost.

`accounts` says what each field of `oryx_mm_stats` counts, for any policy and
strength, and `orderingWords_translated` that the ordering instructions of the
code are the ordered accesses and whatever the synchronizing ops bring along.
Two translations of one block are then compared op by op.
-/
import Oryx.Stream

namespace Oryx

open A64

variable {cfg : TransCfg} {ops : List OryxGinsn}

/-! ### The counters -/

/-- What an op adds to the counters. -/
def opStats (cfg : TransCfg) (i : OryxGinsn) : GuestOp → OryxMmStats
  | .load => if orderedAccess cfg i then .orderedLoad else .plainLoad
  | .store => if orderedAccess cfg i then .orderedStore else .plainStore
  | .atomicAdd => .atomic
  | .atomicCas => .atomic
  | .fence => .fence
  | _ => .zero

theorem lowerConst_st (s : TransState) (k : U64) (pos neg : U32 → Word) (reg : Word) :
    (lowerConst s k pos neg reg).st = s.st := by
  unfold lowerConst
  split
  · rfl
  · split <;> rfl

theorem zero_add_stats (k : OryxMmStats) : OryxMmStats.zero + k = k := by
  ext1 <;> exact BitVec.zero_add _

theorem opStats_access (cfg : TransCfg) (i : OryxGinsn) (load : Bool) :
    opStats cfg i (if load then .load else .store) =
      if orderedAccess cfg i then (if load then .orderedLoad else .orderedStore)
      else if load then .plainLoad else .plainStore := by
  cases load <;> rfl

theorem lowerLoadStore_st {d : TransState} {i : OryxGinsn} {load : Bool}
    (h : lowerLoadStore cfg .init i load = .ok d) :
    d.st = opStats cfg i (if load then .load else .store) := by
  rw [opStats_access]
  unfold lowerLoadStore at h
  cases hord : orderedAccess cfg i with
  | false =>
    rw [if_pos hord] at h
    rw [if_neg Bool.false_ne_true]
    split at h
    · cases h
    · cases load <;> cases h <;> exact zero_add_stats _
  | true =>
    rw [if_neg (by rw [hord]; exact Bool.noConfusion)] at h
    rw [if_pos rfl]
    split at h
    · split at h
      · cases h
      · cases load <;> cases h <;> exact zero_add_stats _
    · split at h
      · cases h
      -- the address computation counts nothing
      · by_cases himm : i.imm = 0
        · simp only [ne_eq, himm, not_true_eq_false, if_false] at h
          cases load <;> cases h <;> exact zero_add_stats _
        · simp only [ne_eq, himm, not_false_eq_true, if_true] at h
          cases load <;> cases h <;> exact zero_add_stats _

/-- **An op counts what `opStats` says.** -/
theorem lowerOp_st {d : TransState} {i : OryxGinsn} {op : GuestOp}
    (h : lowerOp cfg .init i op = .ok d) : d.st = opStats cfg i op := by
  cases op with
  | load => exact lowerLoadStore_st h
  | store => exact lowerLoadStore_st h
  | lea => cases h; exact lowerConst_st ..
  | addRi => cases h; exact lowerConst_st ..
  | subRi => cases h; exact lowerConst_st ..
  | cmpRi => cases h; exact lowerConst_st ..
  | atomicAdd => cases h; exact zero_add_stats _
  | atomicCas => cases h; exact zero_add_stats _
  | fence => cases h; exact zero_add_stats _
  | _ => cases h; rfl

theorem lowered_st {i : OryxGinsn} {d : TransState} (h : lowered cfg i = .ok d) :
    ∃ op, i.opcode = some op ∧ d.st = opStats cfg i op := by
  obtain ⟨-, op, hop, hlow⟩ := lowered_ok h
  exact ⟨op, hop, lowerOp_st hlow⟩

/-- A counter: a field of the statistics that adds up. -/
structure Counter (f : OryxMmStats → U32) : Prop where
  zero : f .zero = 0
  add : ∀ a b, f (a + b) = f a + f b

/-- A counter that every op of `p`, and no other, moves by one holds the number
of these ops. -/
theorem Counter.concat {f : OryxMmStats → U32} (hf : Counter f) {p : OryxGinsn → Bool}
    {ds : List TransState} (hds : LowersTo cfg ops ds)
    (hstep : ∀ i op, i.opcode = some op → f (opStats cfg i op) = if p i then 1 else 0) :
    f (TransState.concat ds).st = BitVec.ofNat 32 (ops.countP p) := by
  have key : ∀ s : TransState,
      f (ds.foldl TransState.append s).st = f s.st + BitVec.ofNat 32 (ops.countP p) := by
    induction hds with
    | nil => intro s; exact (BitVec.add_zero _).symm
    | @cons i d ops ds hi _ ih =>
      intro s
      obtain ⟨op, hop, hst⟩ := lowered_st hi
      have happ : f (s.append d).st = f s.st + f d.st := hf.add _ _
      rw [List.foldl_cons, ih, happ, hst, hstep i op hop, List.countP_cons, BitVec.add_assoc]
      congr 1
      cases p i with
      | true => exact (BitVec.add_comm _ _).trans (BitVec.ofNat_add _ _).symm
      | false => exact BitVec.zero_add _
  apply (key .init).trans
  have hinit : f TransState.init.st = 0 := hf.zero
  rw [hinit]
  exact BitVec.zero_add _

/-- A block has too few ops for a counter to wrap. -/
theorem Counter.translated {f : OryxMmStats → U32} (hf : Counter f) {p : OryxGinsn → Bool}
    {profileId : U32} {tu : OryxTu} {st : OryxMmStats}
    (h : oryxTranslateEx ops cfg profileId = .ok (tu, st))
    (hstep : ∀ i op, i.opcode = some op → f (opStats cfg i op) = if p i then 1 else 0) :
    (f st).toNat = ops.countP p := by
  obtain ⟨body, last, ds, dl, ht⟩ := oryxTranslateEx_ok h
  have hle : ops.countP p ≤ 2 ^ 20 := List.countP_le_length.trans ht.length_le
  rw [ht.st_eq, ← concat_append_singleton, hf.concat ht.lowersTo hstep, BitVec.toNat_ofNat]
  exact Nat.mod_eq_of_lt (hle.trans_lt (by decide))

/-- An access op that is lowered in ordered form. -/
def ordersOp (cfg : TransCfg) (op : GuestOp) (i : OryxGinsn) : Bool :=
  i.opcode = some op && orderedAccess cfg i

/-- An access op that is lowered weakly. -/
def weakensOp (cfg : TransCfg) (op : GuestOp) (i : OryxGinsn) : Bool :=
  i.opcode = some op && !orderedAccess cfg i

def isAtomic (i : OryxGinsn) : Bool := i.opcode = some .atomicAdd || i.opcode = some .atomicCas

def isFence (i : OryxGinsn) : Bool := i.opcode = some .fence

/-- What the counters of a translation count. -/
structure Accounts (cfg : TransCfg) (ops : List OryxGinsn) (st : OryxMmStats) : Prop where
  plainLoads : st.plainLoads.toNat = ops.countP (weakensOp cfg .load)
  plainStores : st.plainStores.toNat = ops.countP (weakensOp cfg .store)
  orderedLoads : st.orderedLoads.toNat = ops.countP (ordersOp cfg .load)
  orderedStores : st.orderedStores.toNat = ops.countP (ordersOp cfg .store)
  atomics : st.atomics.toNat = ops.countP isAtomic
  fences : st.fences.toNat = ops.countP isFence

/-- What an op moves. -/
theorem opStats_counts {i : OryxGinsn} {op : GuestOp} (hop : i.opcode = some op) :
    (opStats cfg i op).plainLoads = (if weakensOp cfg .load i then 1 else 0) ∧
    (opStats cfg i op).plainStores = (if weakensOp cfg .store i then 1 else 0) ∧
    (opStats cfg i op).orderedLoads = (if ordersOp cfg .load i then 1 else 0) ∧
    (opStats cfg i op).orderedStores = (if ordersOp cfg .store i then 1 else 0) ∧
    (opStats cfg i op).atomics = (if isAtomic i then 1 else 0) ∧
    (opStats cfg i op).fences = (if isFence i then 1 else 0) := by
  simp only [opStats, weakensOp, ordersOp, isAtomic, isFence, hop]
  cases orderedAccess cfg i <;> cases op <;> exact ⟨rfl, rfl, rfl, rfl, rfl, rfl⟩

/-- **The counters of an accepted block.** -/
theorem accounts {profileId : U32} {tu : OryxTu} {st : OryxMmStats}
    (h : oryxTranslateEx ops cfg profileId = .ok (tu, st)) : Accounts cfg ops st where
  plainLoads :=
    Counter.translated ⟨rfl, fun _ _ => rfl⟩ h fun _ _ hop => (opStats_counts hop).1
  plainStores :=
    Counter.translated ⟨rfl, fun _ _ => rfl⟩ h fun _ _ hop => (opStats_counts hop).2.1
  orderedLoads :=
    Counter.translated ⟨rfl, fun _ _ => rfl⟩ h fun _ _ hop => (opStats_counts hop).2.2.1
  orderedStores :=
    Counter.translated ⟨rfl, fun _ _ => rfl⟩ h fun _ _ hop => (opStats_counts hop).2.2.2.1
  atomics :=
    Counter.translated ⟨rfl, fun _ _ => rfl⟩ h fun _ _ hop => (opStats_counts hop).2.2.2.2.1
  fences :=
    Counter.translated ⟨rfl, fun _ _ => rfl⟩ h fun _ _ hop => (opStats_counts hop).2.2.2.2.2

/-! ### Ordering instructions -/

/-- The instructions that order a load or a store: the acquiring loads, the
releasing store and the one-sided barriers. -/
def orders : Insn → Bool
  | .ldar .. => true
  | .ldapr .. => true
  | .stlr .. => true
  | .dmb .ishld => true
  | .dmb .ishst => true
  | _ => false

/-- How many of the words are such instructions. -/
def orderingWords (ws : List Word) : Nat := ws.countP fun w => (decode w).any orders

theorem DecodesTo.orderingWords {ws : List Word} {is : List Insn} (h : DecodesTo ws is) :
    orderingWords ws = is.countP orders := by
  have e := congrArg (List.countP fun o : Option Insn => o.any orders) h
  rw [List.countP_map, List.countP_map] at e
  exact e

theorem not_orders_of_quiet {a : Insn} (h : isQuiet a = true) : orders a = false := by
  cases a <;> first | rfl | cases h

theorem countP_orders_of_quiet {is : List Insn} (h : is.all isQuiet = true) :
    is.countP orders = 0 := by
  rw [List.countP_eq_zero]
  intro a ha
  rw [not_orders_of_quiet (List.all_eq_true.mp h a ha)]
  exact Bool.false_ne_true

theorem countP_orders_addrInsns (i : OryxGinsn) : (addrInsns i).countP orders = 0 :=
  countP_orders_of_quiet (all_addrInsns fun _ => rfl)

/-- An ordered LOAD has one ordering instruction, a weak one none. -/
theorem countP_orders_loadInsns (cfg : TransCfg) (i : OryxGinsn) :
    (loadInsns cfg i).countP orders = if orderedAccess cfg i then 1 else 0 := by
  cases hord : orderedAccess cfg i with
  | false =>
    rw [loadInsns_weak hord]
    rfl
  | true =>
    cases hs : cfg.strength with
    | tso =>
      rw [loadInsns_tso hord hs]
      rfl
    | rcpc =>
      rw [loadInsns_rcpc hord hs, List.countP_append, countP_orders_addrInsns]
      rfl
    | sc =>
      rw [loadInsns_sc hord hs, List.countP_append, countP_orders_addrInsns]
      rfl

theorem countP_orders_storeInsns (cfg : TransCfg) (i : OryxGinsn) :
    (storeInsns cfg i).countP orders = if orderedAccess cfg i then 1 else 0 := by
  cases hord : orderedAccess cfg i with
  | false =>
    rw [storeInsns_weak hord]
    rfl
  | true =>
    by_cases hs : cfg.strength = .tso
    · rw [storeInsns_tso hord hs]
      rfl
    · rw [storeInsns_release hord hs, List.countP_append, countP_orders_addrInsns]
      rfl

/-- The ops that synchronize by themselves: the atomics and the fence. -/
def isSync (i : OryxGinsn) : Bool := isAtomic i || isFence i

/-- **The ordering instructions of an op** that is no atomic and no fence: one
where it is an ordered access. -/
theorem countP_orders_insnsOf {i : OryxGinsn} (h : isSync i = false) :
    (insnsOf cfg i).countP orders =
      (if ordersOp cfg .load i then 1 else 0) + if ordersOp cfg .store i then 1 else 0 := by
  cases hop : i.opcode with
  | none =>
    simp only [insnsOf, ordersOp, hop]
    rfl
  | some op =>
    simp only [isSync, isAtomic, isFence, hop] at h
    simp only [insnsOf, ordersOp, hop]
    by_cases hq : op.accesses = false ∧ op ≠ .fence
    · have hzero := countP_orders_of_quiet (quiet_opInsns cfg i hq.1 hq.2)
      rw [hzero]
      cases op <;> first | rfl | cases hq.1
    · cases op with
      | load => exact countP_orders_loadInsns cfg i
      | store => exact (countP_orders_storeInsns cfg i).trans (Nat.zero_add _).symm
      | atomicAdd => cases h
      | atomicCas => cases h
      | fence => cases h
      -- the stack ops are lowered without ordering
      | push => rfl
      | pop => rfl
      | x86ret => rfl
      | call =>
        have hmov : (movimmInsns 16 i.imm).countP orders = 0 :=
          countP_orders_of_quiet (all_movimmInsns (fun _ _ _ => rfl) i.imm)
        rw [opInsns, List.countP_append, hmov]
        rfl
      | _ => exact absurd ⟨rfl, GuestOp.noConfusion⟩ hq

theorem ordersOp_of_sync (cfg : TransCfg) {i : OryxGinsn} (h : isSync i = true) :
    ordersOp cfg .load i = false ∧ ordersOp cfg .store i = false := by
  cases hop : i.opcode with
  | none =>
    simp only [ordersOp, hop]
    exact ⟨rfl, rfl⟩
  | some op =>
    simp only [isSync, isAtomic, isFence, hop] at h
    simp only [ordersOp, hop]
    cases op <;> first | exact ⟨rfl, rfl⟩ | cases h

/-- The ordering instructions of a block: its ordered accesses, and those of
its atomics and fences. -/
theorem countP_orders_blockInsns (cfg : TransCfg) (ops : List OryxGinsn) :
    (blockInsns cfg ops).countP orders =
      ops.countP (ordersOp cfg .load) + ops.countP (ordersOp cfg .store) +
        (blockInsns cfg (ops.filter isSync)).countP orders := by
  induction ops with
  | nil => rfl
  | cons i ops ih =>
    simp only [blockInsns] at ih ⊢
    rw [List.flatMap_cons, List.countP_append, ih, List.countP_cons, List.countP_cons]
    cases hsync : isSync i with
    | false =>
      have hout : ¬ isSync i = true := by
        rw [hsync]
        exact Bool.false_ne_true
      rw [countP_orders_insnsOf hsync, List.filter_cons_of_neg hout]
      omega
    | true =>
      obtain ⟨hload, hstore⟩ := ordersOp_of_sync cfg hsync
      rw [List.filter_cons_of_pos hsync, List.flatMap_cons, List.countP_append, hload, hstore]
      simp only [Bool.false_eq_true, if_false]
      omega

theorem decodesTo_flatMap {ops : List OryxGinsn}
    (hdec : ∀ i ∈ ops, DecodesTo (opWords cfg i) (insnsOf cfg i)) :
    DecodesTo (ops.flatMap (opWords cfg)) (blockInsns cfg ops) := by
  induction ops with
  | nil => rfl
  | cons i ops ih =>
    exact (hdec i List.mem_cons_self).append (ih fun j hj => hdec j (List.mem_cons_of_mem i hj))

/-- **The ordering instructions of the emitted code.** -/
theorem orderingWords_translated {profileId : U32} {tu : OryxTu} {st : OryxMmStats}
    (h : oryxTranslateEx ops cfg profileId = .ok (tu, st)) :
    orderingWords (codeWords tu) = st.orderedLoads.toNat + st.orderedStores.toNat +
      orderingWords ((ops.filter isSync).flatMap (opWords cfg)) := by
  obtain ⟨-, hops, hdec⟩ := translated_stream h
  have hsync : DecodesTo ((ops.filter isSync).flatMap (opWords cfg))
      (blockInsns cfg (ops.filter isSync)) :=
    decodesTo_flatMap fun i hi => hops i (List.mem_of_mem_filter hi)
  have hst := accounts h
  rw [hdec.orderingWords, hsync.orderingWords, countP_orders_blockInsns, hst.orderedLoads,
    hst.orderedStores]

/-! ### The two policies -/

/-- All loads and all stores, however lowered. -/
def OryxMmStats.loads (st : OryxMmStats) : Nat := st.plainLoads.toNat + st.orderedLoads.toNat
def OryxMmStats.stores (st : OryxMmStats) : Nat := st.plainStores.toNat + st.orderedStores.toNat

/-- An access is lowered in one of the two forms. -/
theorem countP_weakensOp_add (cfg : TransCfg) (op : GuestOp) (ops : List OryxGinsn) :
    ops.countP (weakensOp cfg op) + ops.countP (ordersOp cfg op) =
      ops.countP fun i => i.opcode = some op := by
  rw [List.countP_eq_countP_filter_add ops (fun i => i.opcode = some op) (orderedAccess cfg),
    List.countP_filter, List.countP_filter, Nat.add_comm]
  rfl

theorem Accounts.loads {st : OryxMmStats} (h : Accounts cfg ops st) :
    st.loads = ops.countP fun i => i.opcode = some .load := by
  rw [OryxMmStats.loads, h.plainLoads, h.orderedLoads, countP_weakensOp_add]

theorem Accounts.stores {st : OryxMmStats} (h : Accounts cfg ops st) :
    st.stores = ops.countP fun i => i.opcode = some .store := by
  rw [OryxMmStats.stores, h.plainStores, h.orderedStores, countP_weakensOp_add]

/-- CONSERVATIVE leaves no access weak. -/
theorem countP_weakensOp_conservative (hcfg : cfg.policy = .conservative) (op : GuestOp)
    (ops : List OryxGinsn) : ops.countP (weakensOp cfg op) = 0 := by
  rw [List.countP_eq_zero]
  intro i _
  simp [weakensOp, orderedAccess_conservative hcfg]

/-- DRF leaves those weak that are not SHARED. -/
theorem countP_weakensOp_drf (hcfg : cfg.policy = .drf) (op : GuestOp) (ops : List OryxGinsn) :
    ops.countP (weakensOp cfg op) =
      ops.countP fun i => i.opcode = some op ∧ i.mclass ≠ mclassShared := by
  apply List.countP_congr
  intro i _
  simp [weakensOp, orderedAccess, hcfg]

section Policies

variable {cfgD cfgC : TransCfg}

/-- A weak LOAD is one instruction; an ordered one is lowered alike. -/
theorem length_loadInsns_policy (hstr : cfgD.strength = cfgC.strength)
    (hC : cfgC.policy = .conservative) (i : OryxGinsn) :
    (loadInsns cfgD i).length ≤ (loadInsns cfgC i).length := by
  have hordC := orderedAccess_conservative hC i
  cases hord : orderedAccess cfgD i with
  | true => simp only [loadInsns, hord, hordC, hstr, Bool.true_eq_false, if_false, Nat.le_refl]
  | false =>
    rw [loadInsns_weak hord]
    cases hs : cfgC.strength with
    | tso =>
      rw [loadInsns_tso hordC hs]
      exact (by decide : 1 ≤ 2)
    | rcpc =>
      rw [loadInsns_rcpc hordC hs, List.length_append]
      exact Nat.le_add_left 1 _
    | sc =>
      rw [loadInsns_sc hordC hs, List.length_append]
      exact Nat.le_add_left 1 _

theorem length_storeInsns_policy (hstr : cfgD.strength = cfgC.strength)
    (hC : cfgC.policy = .conservative) (i : OryxGinsn) :
    (storeInsns cfgD i).length ≤ (storeInsns cfgC i).length := by
  have hordC := orderedAccess_conservative hC i
  cases hord : orderedAccess cfgD i with
  | true => simp only [storeInsns, hord, hordC, hstr, Bool.true_eq_false, if_false, Nat.le_refl]
  | false =>
    rw [storeInsns_weak hord]
    by_cases hs : cfgC.strength = .tso
    · rw [storeInsns_tso hordC hs]
      exact (by decide : 1 ≤ 2)
    · rw [storeInsns_release hordC hs, List.length_append]
      exact Nat.le_add_left 1 _

/-- No op takes more instructions under DRF. -/
theorem length_insnsOf_policy (hstr : cfgD.strength = cfgC.strength)
    (hC : cfgC.policy = .conservative) (i : OryxGinsn) :
    (insnsOf cfgD i).length ≤ (insnsOf cfgC i).length := by
  unfold insnsOf
  cases i.opcode with
  | none => exact Nat.le_refl 0
  | some op =>
    cases op with
    | load => exact length_loadInsns_policy hstr hC i
    | store => exact length_storeInsns_policy hstr hC i
    | _ => exact Nat.le_refl _

theorem length_blockInsns_policy (hstr : cfgD.strength = cfgC.strength)
    (hC : cfgC.policy = .conservative) (ops : List OryxGinsn) :
    (blockInsns cfgD ops).length ≤ (blockInsns cfgC ops).length := by
  induction ops with
  | nil => exact Nat.le_refl 0
  | cons i ops ih =>
    simp only [blockInsns, List.flatMap_cons, List.length_append] at ih ⊢
    exact Nat.add_le_add (length_insnsOf_policy hstr hC i) ih

end Policies

/-- The code of a unit has four bytes for each instruction. -/
theorem length_code_translated {profileId : U32} {tu : OryxTu} {st : OryxMmStats}
    (h : oryxTranslateEx ops cfg profileId = .ok (tu, st)) :
    tu.code.val.length = 4 * (blockInsns cfg ops).length := by
  obtain ⟨hcode, hdec⟩ := translated_code h
  rw [hcode, length_flatMap_of_width length_putU32, hdec.length, Nat.mul_comm]

/-- **DRF against CONSERVATIVE.**  For a block accepted under both policies:
loads, stores, atomics and fences add up alike; CONSERVATIVE leaves nothing
weak, DRF exactly the accesses that are not SHARED; the DRF code is not longer;
and the ordering instructions it has besides those of the atomics and fences
are as many as its ordered accesses. -/
theorem drf_conservative {ops : List OryxGinsn} {strength : OrderStrength} {guestPc : U64}
    {guestLen profileId : U32} {tuD tuC : OryxTu} {stD stC : OryxMmStats}
    (hD : oryxTranslateEx ops ⟨.drf, strength, guestPc, guestLen⟩ profileId = .ok (tuD, stD))
    (hC : oryxTranslateEx ops ⟨.conservative, strength, guestPc, guestLen⟩ profileId =
      .ok (tuC, stC)) :
    (stD.loads = stC.loads ∧ stD.stores = stC.stores ∧ stD.atomics = stC.atomics ∧
      stD.fences = stC.fences) ∧
    (stC.plainLoads = 0 ∧ stC.plainStores = 0) ∧
    (stD.plainLoads.toNat =
        ops.countP (fun i => i.opcode = some .load ∧ i.mclass ≠ mclassShared) ∧
      stD.plainStores.toNat =
        ops.countP fun i => i.opcode = some .store ∧ i.mclass ≠ mclassShared) ∧
    tuD.code.val.length ≤ tuC.code.val.length ∧
    orderingWords (codeWords tuD) = stD.orderedLoads.toNat + stD.orderedStores.toNat +
      orderingWords ((ops.filter isSync).flatMap
        (opWords ⟨.drf, strength, guestPc, guestLen⟩)) := by
  have hstD := accounts hD
  have hstC := accounts hC
  refine ⟨⟨?_, ?_, ?_, ?_⟩, ⟨?_, ?_⟩, ⟨?_, ?_⟩, ?_, orderingWords_translated hD⟩
  · rw [hstD.loads, hstC.loads]
  · rw [hstD.stores, hstC.stores]
  · exact BitVec.eq_of_toNat_eq (hstD.atomics.trans hstC.atomics.symm)
  · exact BitVec.eq_of_toNat_eq (hstD.fences.trans hstC.fences.symm)
  · exact BitVec.eq_of_toNat_eq (hstC.plainLoads.trans (countP_weakensOp_conservative rfl _ ops))
  · exact BitVec.eq_of_toNat_eq (hstC.plainStores.trans (countP_weakensOp_conservative rfl _ ops))
  · exact hstD.plainLoads.trans (countP_weakensOp_drf rfl _ ops)
  · exact hstD.plainStores.trans (countP_weakensOp_drf rfl _ ops)
  · rw [length_code_translated hD, length_code_translated hC]
    exact Nat.mul_le_mul_left 4
      (@length_blockInsns_policy ⟨.drf, strength, guestPc, guestLen⟩
        ⟨.conservative, strength, guestPc, guestLen⟩ rfl rfl ops)

/-- Three thread-local accesses, two shared ones, an atomic, a fence, `ret`. -/
def barrierBlock : List OryxGinsn :=
  [ginsn .store 0 4 8, ginsn .load 1 4 16, ginsn .store 2 5 8,
    { ginsn .load 6 7 0 with mclass := mclassShared },
    { ginsn .store 6 8 0 with mclass := mclassShared },
    ginsn .atomicAdd 1 7 0, { ginsn .fence 0 0 0 with cc := fenceLd }, ginsn .ret 0 0 0]

/-- Of three loads and stores left weak, none is under CONSERVATIVE. -/
theorem drf_conservative_barrierBlock :
    ∃ tuD stD tuC stC,
      oryxTranslateEx barrierBlock ⟨.drf, .sc, 0x3000, 32⟩ 1 = .ok (tuD, stD) ∧
      oryxTranslateEx barrierBlock ⟨.conservative, .sc, 0x3000, 32⟩ 1 = .ok (tuC, stC) ∧
      stD.loads = stC.loads ∧ stC.plainLoads = 0 ∧ stD.plainStores.toNat = 2 ∧
      tuD.code.val.length ≤ tuC.code.val.length ∧ orderingWords (codeWords tuD) = 3 := by
  have h := @drf_conservative barrierBlock .sc 0x3000 32 1 _ _ _ _ rfl rfl
  obtain ⟨⟨hloads, -⟩, ⟨hnone, -⟩, ⟨-, hstores⟩, hlen, hord⟩ := h
  exact ⟨_, _, _, _, rfl, rfl, hloads, hnone, hstores, hlen, hord⟩

end Oryx
