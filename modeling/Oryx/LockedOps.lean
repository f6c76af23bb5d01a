/-
Oryx/LockedOps.lean

Which ops are full barriers.

`GOP_ATOMIC_CAS` and the full `GOP_FENCE` are.  `GOP_ATOMIC_ADD` discards the
old value into the zero register, so its `LDADDAL` does not acquire: it orders
nothing before a later access.

Main result `lockedOps_iff`.
-/
import Oryx.TsoOrder

namespace Oryx

open A64 StreamOrder

variable {cfg : TransCfg} {ops : List OryxGinsn}

/-! ### Locked ops -/

/-- Op `j` of the block accesses memory. -/
def MemoryOp (ops : List OryxGinsn) (j : Nat) : Prop :=
  ∃ i op, ops[j]? = some i ∧ i.opcode = some op ∧ op.accesses = true

/-- A LOCK op or a full fence. -/
def SyncOp (i : OryxGinsn) : Prop :=
  i.opcode = some .atomicAdd ∨ i.opcode = some .atomicCas ∨
    (i.opcode = some .fence ∧ i.cc = fenceFull)

/-- Op `k` orders every earlier access before every later one. -/
def FullBarrierAt (cfg : TransCfg) (ops : List OryxGinsn) (s : List Insn) (k : Nat) : Prop :=
  ∃ m, OfOp cfg ops k m ∧ ∀ p q, p < m → m < q → AccessAt s p → AccessAt s q →
    OrderedVia lseRules s m p q

theorem exists_access_opInsns (i : OryxGinsn) {op : GuestOp} (h : op.accesses = true) :
    ∃ a ∈ opInsns cfg i op, a.isAccess = true := by
  cases op with
  | load => exact exists_access_loadInsns cfg i
  | store => exact exists_access_storeInsns cfg i
  | atomicAdd => exact ⟨_, List.mem_cons_self, rfl⟩
  | atomicCas => exact ⟨_, List.mem_cons_self, rfl⟩
  | push => exact ⟨_, List.mem_cons_of_mem _ List.mem_cons_self, rfl⟩
  | pop => exact ⟨_, List.mem_cons_self, rfl⟩
  | call =>
    exact ⟨_, List.mem_append_right _ (List.mem_cons_of_mem _ List.mem_cons_self), rfl⟩
  | x86ret => exact ⟨_, List.mem_cons_self, rfl⟩
  | _ => cases h

theorem accesses_of_isAccess {i : OryxGinsn} {op : GuestOp} {a : Insn}
    (ha : a ∈ opInsns cfg i op) (hacc : a.isAccess = true) : op.accesses = true := by
  cases hop : op.accesses with
  | true => rfl
  | false =>
    by_cases hfence : op = .fence
    · subst hfence
      rw [List.mem_singleton.mp ha] at hacc
      cases hacc
    · rw [not_access_of_quiet (List.all_eq_true.mp (quiet_opInsns cfg i hop hfence) a ha)] at hacc
      cases hacc

/-- Every access of the stream belongs to a memory op. -/
theorem memoryOp_of_access (hops : ∀ i ∈ ops, ∃ op, i.opcode = some op)
    (hdec : ∀ i ∈ ops, DecodesTo (opWords cfg i) (insnsOf cfg i)) {p : Nat}
    (hp : AccessAt (blockInsns cfg ops) p) : ∃ j, OfOp cfg ops j p ∧ MemoryOp ops j := by
  obtain ⟨a, ha, hacc⟩ := hp
  have hlen : p < opStart cfg ops ops.length := by
    rw [opStart_eq hdec, List.take_length]
    exact (List.getElem?_eq_some_iff.mp ha).1
  obtain ⟨j, -, hj⟩ := exists_ofOp hlen
  obtain ⟨i, hi⟩ := hj.getElem?
  obtain ⟨op, hop⟩ := hops i (List.mem_of_getElem? hi)
  rw [getElem?_ofOp hdec hi hj, insnsOf, hop] at ha
  exact ⟨j, hj, i, op, hi, hop, accesses_of_isAccess (List.mem_of_getElem? ha) hacc⟩

/-- Every memory op has an access in the stream. -/
theorem MemoryOp.access (hdec : ∀ i ∈ ops, DecodesTo (opWords cfg i) (insnsOf cfg i)) {j : Nat}
    (h : MemoryOp ops j) : ∃ p, OfOp cfg ops j p ∧ AccessAt (blockInsns cfg ops) p := by
  obtain ⟨i, op, hj, hop, hacc⟩ := h
  obtain ⟨a, ha, haccess⟩ := @exists_access_opInsns cfg i op hacc
  have hins : insnsOf cfg i = opInsns cfg i op := by rw [insnsOf, hop]
  rw [← hins] at ha
  obtain ⟨m, hm⟩ := List.getElem?_of_mem ha
  have hlt := (List.getElem?_eq_some_iff.mp hm).1
  refine ⟨opStart cfg ops j + m, ⟨Nat.le_add_right _ m, ?_⟩, a, embeds_ofOp hdec hj m a hm,
    haccess⟩
  rw [(stream_split hdec hj).2]
  omega

/-- `CASAL` and `DMB ISH` are full barriers. -/
theorem fullBarrierAt_of_fences {k : Nat} {i : OryxGinsn} {c : Insn}
    (hdec : ∀ i ∈ ops, DecodesTo (opWords cfg i) (insnsOf cfg i)) (hk : ops[k]? = some i)
    (hins : insnsOf cfg i = [c])
    (hc : ∀ a b, a.isAccess = true → b.isAccess = true → lseRules.fences c a b = true) :
    FullBarrierAt cfg ops (blockInsns cfg ops) k := by
  obtain ⟨hget, hpos⟩ := single_ofOp hdec hk hins
  refine ⟨_, (hpos _).mpr rfl, ?_⟩
  rintro p q hpm hmq ⟨a, ha, hacca⟩ ⟨b, hb, haccb⟩
  exact orderedVia_of_fence ha hget hb hpm hmq (hc a b hacca haccb)

/-- `GOP_ATOMIC_ADD` orders nothing before a later access: its destination is
the zero register. -/
theorem fullBarrierAt_atomicAdd_iff {k : Nat} {i : OryxGinsn}
    (hops : ∀ i ∈ ops, ∃ op, i.opcode = some op)
    (hdec : ∀ i ∈ ops, DecodesTo (opWords cfg i) (insnsOf cfg i)) (hk : ops[k]? = some i)
    (hi : i.opcode = some .atomicAdd) :
    FullBarrierAt cfg ops (blockInsns cfg ops) k ↔
      ¬ ((∃ j < k, MemoryOp ops j) ∧ ∃ l > k, MemoryOp ops l) := by
  have hins : insnsOf cfg i = [.ldaddal (xreg i.rd) 31 (xreg i.rn)] := by
    rw [insnsOf, hi]
    rfl
  obtain ⟨hget, hpos⟩ := single_ofOp hdec hk hins
  constructor
  · rintro ⟨m, hm, hord⟩ ⟨⟨j, hj, hbefore⟩, l, hl, hafter⟩
    obtain ⟨p, hp, haccp⟩ := hbefore.access hdec
    obtain ⟨q, hq, haccq⟩ := hafter.access hdec
    have hpm : p < m := Nat.lt_of_lt_of_le (hp.of_lt hj) hm.1
    have hmq : m < q := Nat.lt_of_lt_of_le (hm.of_lt hl) hq.1
    have hweak := (hord p q hpm hmq haccp haccq).eq_of_weak ((hpos m).mp hm ▸ hget) rfl
      fun _ _ => rfl
    omega
  · intro hnone
    refine ⟨_, (hpos _).mpr rfl, ?_⟩
    intro p q hpm hmq haccp haccq
    refine absurd ⟨?_, ?_⟩ hnone
    · obtain ⟨j, hj, hmem⟩ := memoryOp_of_access hops hdec haccp
      exact ⟨j, hj.lt_of_lt hpm, hmem⟩
    · obtain ⟨l, hl, hmem⟩ := memoryOp_of_access hops hdec haccq
      refine ⟨l, ?_, hmem⟩
      -- an op at or before `k` ends at the atomic at the latest
      by_contra hle
      have hend := opStart_mono cfg ops (show l + 1 ≤ k + 1 by omega)
      rw [(stream_split hdec hk).2, hins, List.length_singleton] at hend
      have := hl.2
      omega

/-- **When locked ops are full barriers**: every `GOP_ATOMIC_CAS` and full
fence is; a `GOP_ATOMIC_ADD` exactly when no memory op stands before it or none
after it. -/
theorem lockedOps_iff {profileId : U32} {tu : OryxTu} {st : OryxMmStats}
    (h : oryxTranslateEx ops cfg profileId = .ok (tu, st)) :
    ∃ s, DecodesTo (codeWords tu) s ∧
      ((∀ k i, ops[k]? = some i → SyncOp i → FullBarrierAt cfg ops s k) ↔
        ∀ k i, ops[k]? = some i → i.opcode = some .atomicAdd →
          ¬ ((∃ j < k, MemoryOp ops j) ∧ ∃ l > k, MemoryOp ops l)) := by
  obtain ⟨hops, hdec, hwords⟩ := translated_stream h
  refine ⟨blockInsns cfg ops, hwords, ?_, ?_⟩
  · intro hfull k i hk hi
    exact (fullBarrierAt_atomicAdd_iff hops hdec hk hi).mp (hfull k i hk (Or.inl hi))
  · intro hadd k i hk hsync
    rcases hsync with hi | hi | ⟨hi, hcc⟩
    · exact (fullBarrierAt_atomicAdd_iff hops hdec hk hi).mpr (hadd k i hk hi)
    · refine fullBarrierAt_of_fences (c := .casal 0 (xreg i.rd) (xreg i.rn)) hdec hk ?_ ?_
      · rw [insnsOf, hi]
        rfl
      · intro a b ha hb
        show (false || ((true && a.isAccess) && b.isAccess)) = true
        rw [ha, hb]
        rfl
    · refine fullBarrierAt_of_fences (c := .dmb .ish) hdec hk ?_ ?_
      · rw [insnsOf, hi]
        show [Insn.dmb (fenceBarrier i.cc)] = _
        rw [hcc]
        rfl
      · intro a b ha hb
        show ((a.isAccess && b.isAccess) || _) = true
        rw [ha, hb]
        rfl

/-- A store, an op, a load, then `ret`. -/
def storeOpLoad (op : GuestOp) : List OryxGinsn :=
  [ginsn .store 0 3 8, ginsn op 1 4 0, ginsn .load 2 3 16, ginsn .ret 0 0 0]

/-- Around a `GOP_ATOMIC_ADD` a store and a later load stay unordered, in the
closure of all rules. -/
theorem not_fullBarrierAt_atomicAdd :
    ∃ tu st, oryxTranslateEx (storeOpLoad .atomicAdd) (blockCfg .drf .rcpc) 0 = .ok (tu, st) ∧
      ∀ s, DecodesTo (codeWords tu) s → StoreAt s 0 ∧ LoadAt s 2 ∧ ¬ Ordered lseRules s 0 2 ∧
        ¬ ∀ k i, (storeOpLoad .atomicAdd)[k]? = some i → SyncOp i →
          FullBarrierAt (blockCfg .drf .rcpc) (storeOpLoad .atomicAdd) s k := by
  refine ⟨_, _, rfl, ?_⟩
  intro s hs
  have hdec := (@translated_stream (blockCfg .drf .rcpc) (storeOpLoad .atomicAdd) 0 _ _ rfl).2.2
  have hstream : s = [.str 0 3 1, .ldaddal 1 31 4, .ldr 2 3 2, .ret 30] := hs.unique hdec
  subst hstream
  have hnot : ¬ Ordered lseRules [.str 0 3 1, .ldaddal 1 31 4, .ldr 2 3 2, .ret 30] 0 2 := by
    intro h
    -- from the store only the atomic is reached, and from the atomic nothing
    have hreach := h.invariant (P := fun p => p < 2) ?_ (by decide)
    · exact absurd hreach (by decide)
    · intro p q hp he
      cases he with
      | @via m _ _ hvia =>
        cases hvia with
        | acquire hm _ _ hc _ =>
          match p, hp with
          | 0, _ => cases hm; cases hc
          | 1, _ => cases hm; cases hc
        | release _ hm _ _ hc =>
          match q, hm with
          | 0, _ => exact Nat.zero_lt_two
          | 1, _ => exact Nat.one_lt_two
          | 2, hm => cases hm; cases hc
          | 3, hm => cases hm; cases hc
          | q + 4, hm => cases hm
        | fence _ hm _ _ _ hc =>
          match m, hm with
          | 0, hm => cases hm; cases hc
          | 1, hm => cases hm; cases hc
          | 2, hm => cases hm; cases hc
          | 3, hm => cases hm; cases hc
          | m + 4, hm => cases hm
      | pair hp' _ _ hpair =>
        match p, hp with
        | 0, _ => cases hp'; cases hpair
        | 1, _ => cases hp'; cases hpair
  refine ⟨⟨_, rfl, rfl⟩, ⟨_, rfl, rfl⟩, hnot, ?_⟩
  intro hfull
  obtain ⟨m, hm, hord⟩ := hfull 1 _ rfl (Or.inl rfl)
  have hm1 : m = 1 := by
    have hge : 1 ≤ m := hm.1
    have hlt : m < 2 := hm.2
    omega
  subst hm1
  exact hnot (hord 0 2 (by decide) (by decide) ⟨_, rfl, rfl⟩ ⟨_, rfl, rfl⟩).ordered

/-- A `GOP_ATOMIC_CAS` between the two is a full barrier. -/
theorem lockedOps_atomicCas :
    ∃ tu st, oryxTranslateEx (storeOpLoad .atomicCas) (blockCfg .drf .rcpc) 0 = .ok (tu, st) ∧
      ∃ s, DecodesTo (codeWords tu) s ∧
        ∀ k i, (storeOpLoad .atomicCas)[k]? = some i → SyncOp i →
          FullBarrierAt (blockCfg .drf .rcpc) (storeOpLoad .atomicCas) s k := by
  obtain ⟨s, hs, hiff⟩ :=
    @lockedOps_iff (blockCfg .drf .rcpc) (storeOpLoad .atomicCas) 0 _ _ rfl
  refine ⟨_, _, rfl, s, hs, hiff.mpr ?_⟩
  intro k i hk hadd
  match k with
  | 0 => cases hk; cases hadd
  | 1 => cases hk; cases hadd
  | 2 => cases hk; cases hadd
  | 3 => cases hk; cases hadd
  | k + 4 => cases hk

end Oryx
