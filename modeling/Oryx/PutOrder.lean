/-
Oryx/PutOrder.lean

Overlapping puts, one after the other.

To lookups a put happens when its index file is renamed, which is its last
system call.  `PutTrace` notes the puts in the order of these renames.  The
store that the threads leave answers every lookup as the one that the same
puts leave when they are made one after the other in that order
(`puts_linearize`), so what holds of sequential runs of the store (`storeRun`)
holds of overlapping puts as well.

The two stores differ in blobs that no index file names yet.
-/
import Oryx.CacheReads
import Oryx.StoreRuns

namespace Oryx

variable {Thread : Type}

/-! ### The order -/

/-- The put that a step finishes: its bytes and its key. -/
def putFinished (s s' : PutState Thread) : PutEvent Thread → List (List Byte × List Byte)
  | .sys t _ _ =>
      match s'.pc t with
      | .returned (.ok _) => [(s.data t, s.key t)]
      | _ => []
  | .call _ _ _ => []

/-- The store after these puts, one after the other. -/
def putsInOrder (ps : List (List Byte × List Byte)) : CacheStore :=
  storeRun (ps.map fun p => .put (.putBlob p.1 p.2))

section Trace

variable [DecidableEq Thread] (pid : Thread → Nat)

/-- A run in which no temporary file is shared, with the puts that it finishes. -/
inductive PutTrace (s₀ : PutState Thread) : List (List Byte × List Byte) → PutState Thread → Prop
  | start : PutTrace s₀ [] s₀
  | step {ps : List (List Byte × List Byte)} {s s' : PutState Thread} {e : PutEvent Thread}
      (hrest : PutTrace s₀ ps s) (hno : NoSharedTmp pid s e) (hstep : putStep pid s e = some s') :
      PutTrace s₀ (ps ++ putFinished s s' e) s'

variable {pid} {s₀ s : PutState Thread}

/-- Every run has one. -/
theorem exists_putTrace (h : Reaches (putStep pid) (NoSharedTmp pid) s₀ s) :
    ∃ ps, PutTrace pid s₀ ps s := by
  induction h with
  | refl => exact ⟨[], .start⟩
  | tail _ hlast ih =>
    obtain ⟨ps, hps⟩ := ih
    obtain ⟨e, hno, hstep⟩ := hlast
    exact ⟨_, hps.step hno hstep⟩

end Trace

/-! ### Puts one after the other -/

section Sequence

variable {ps : List (List Byte × List Byte)}

theorem putsInOrder_concat (p : List Byte × List Byte) :
    putsInOrder (ps ++ [p]) =
      afterPut (putsInOrder ps) (oryxCachePutBlob (putsInOrder ps) p.1 p.2) := by
  rw [putsInOrder, List.map_append, List.map_singleton, storeRun_concat]
  rfl

theorem index_putsInOrder_concat {p : List Byte × List Byte} (hkey : isHex64 p.2 = true) :
    (putsInOrder (ps ++ [p])).index =
      writeAtomic (putsInOrder ps).index p.2 (oryxContentAddress p.1) := by
  rw [putsInOrder_concat, afterPut_oryxCachePutBlob, if_pos hkey]
  exact putStore_index _ _ _

/-- Bytes that were put are there under their address, in the absence of collisions. -/
theorem blobs_putsInOrder
    (hapart : ∀ p ∈ ps, ∀ q ∈ ps, oryxContentAddress p.1 = oryxContentAddress q.1 → p.1 = q.1)
    {p : List Byte × List Byte} (hp : p ∈ ps) (hkey : isHex64 p.2 = true) :
    (putsInOrder ps).blobs (oryxContentAddress p.1) = some p.1 := by
  have hput : StoreWrite.put (.putBlob p.1 p.2) ∈
      ps.map fun p => StoreWrite.put (.putBlob p.1 p.2) := List.mem_map.mpr ⟨p, hp, rfl⟩
  have huntouched : ∀ content, StoreWrite.tamper (oryxContentAddress p.1) content ∉
      ps.map fun p => StoreWrite.put (.putBlob p.1 p.2) := by
    intro content hc
    obtain ⟨q, -, hq⟩ := List.mem_map.mp hc
    cases hq
  have hkept := keptBlob_of_put huntouched hput hkey rfl
  obtain ⟨q, hq, haddr, hblob⟩ := blobs_kept hkept
  obtain ⟨q, hmem, hqq⟩ := List.mem_map.mp hq
  cases hqq
  exact hblob.trans (congrArg some (hapart p hp q hmem haddr.symm).symm)

end Sequence

/-! ### Lookups -/

/-- The lookups of `s` answer as those after these puts; puts that have returned are among
them. -/
structure ServesAs (s : PutState Thread) (ps : List (List Byte × List Byte)) : Prop where
  puts : ps ⊆ s.calls
  returned : ∀ t addr, s.pc t = .returned (.ok addr) → (s.data t, s.key t) ∈ ps
  resolve : ∀ key, oryxCacheResolve (storeView s) key = oryxCacheResolve (putsInOrder ps) key
  getBlob : ∀ key addr, oryxCacheResolve (storeView s) key = .ok addr →
    oryxCacheGetBlob (storeView s) addr = oryxCacheGetBlob (putsInOrder ps) addr
  getTu : ∀ key, oryxCacheGetTu (storeView s) key = oryxCacheGetTu (putsInOrder ps) key
  getMap : ∀ want, oryxMmapCacheGet (storeView s) want = oryxMmapCacheGet (putsInOrder ps) want

section Order

variable (pid : Thread → Nat)

/-- The index is that of the puts so far, one after the other. -/
structure OrderInv (s : PutState Thread) (ps : List (List Byte × List Byte)) : Prop where
  store : StoreInv pid s
  puts : ps ⊆ s.calls
  hex : ∀ p ∈ ps, isHex64 p.2 = true
  returned : ∀ t addr, s.pc t = .returned (.ok addr) → (s.data t, s.key t) ∈ ps
  index : (storeView s).index = (putsInOrder ps).index

variable {pid} {s s' s₀ : PutState Thread} {ps : List (List Byte × List Byte)}

/-- A blob that an index file names is the same in both stores. -/
theorem OrderInv.blobs (h : OrderInv pid s ps) {key addr : List Byte}
    (hresolve : oryxCacheResolve (storeView s) key = .ok addr) :
    (storeView s).blobs addr = (putsInOrder ps).blobs addr := by
  obtain ⟨hkey, file, hfile, -, rfl, -⟩ := oryxCacheResolve_ok.mp hresolve
  -- the last put under the key
  have hlast := hfile
  rw [h.index, putsInOrder, index_storeRun, Option.map_eq_some_iff] at hlast
  obtain ⟨p, hp, rfl⟩ := hlast
  obtain ⟨p, hmem, hpp⟩ := List.mem_map.mp (lastStored_mem hp).1
  cases hpp
  have hhex := isHex64_contentAddress p.1
  have hindex : s.fs.file (.index, key) = some (oryxContentAddress p.1) :=
    (storeView_index s hkey).symm.trans hfile
  obtain ⟨c, hc⟩ := Option.isSome_iff_exists.mp (h.store.indexed key _ hkey hindex)
  obtain ⟨key', hput⟩ := h.store.fromCalls _ c hhex hc
  have hsame : c = p.1 :=
    h.store.apart _ hput _ (h.puts hmem) (h.store.blobs _ c hhex hc)
  have hapart : ∀ p ∈ ps, ∀ q ∈ ps, oryxContentAddress p.1 = oryxContentAddress q.1 → p.1 = q.1 :=
    fun p hp q hq => h.store.apart p (h.puts hp) q (h.puts hq)
  show (storeView s).blobs ((oryxContentAddress p.1).take 64) =
    (putsInOrder ps).blobs ((oryxContentAddress p.1).take 64)
  rw [(take_of_isHex64 hhex).1, storeView_blobs s hhex, hc, hsame,
    blobs_putsInOrder hapart hmem (h.hex p hmem)]

theorem OrderInv.servesAs (h : OrderInv pid s ps) : ServesAs s ps := by
  have hresolve : ∀ key,
      oryxCacheResolve (storeView s) key = oryxCacheResolve (putsInOrder ps) key := by
    intro key
    rw [oryxCacheResolve, oryxCacheResolve, h.index]
  have hget : ∀ key addr, oryxCacheResolve (storeView s) key = .ok addr →
      oryxCacheGetBlob (storeView s) addr = oryxCacheGetBlob (putsInOrder ps) addr := by
    intro key addr hres
    have hread : readFile (storeView s).blobs addr = readFile (putsInOrder ps).blobs addr := by
      rw [readFile, readFile, h.blobs hres]
    rw [oryxCacheGetBlob, oryxCacheGetBlob, hread]
  refine ⟨h.puts, h.returned, hresolve, hget, fun key => ?_, fun want => ?_⟩
  · unfold oryxCacheGetTu
    rw [← hresolve]
    cases hres : oryxCacheResolve (storeView s) key with
    | error e => rfl
    | ok addr =>
      dsimp only
      rw [hget key addr hres]
  · unfold oryxMmapCacheGet
    rw [← hresolve]
    cases hres : oryxCacheResolve (storeView s) want.key with
    | error e => rfl
    | ok addr =>
      show (oryxCacheGetBlob (storeView s) addr >>= _) =
        (oryxCacheGetBlob (putsInOrder ps) addr >>= _)
      rw [hget want.key addr hres]

variable [DecidableEq Thread]

omit [DecidableEq Thread] in
theorem putFinished_eq_nil {t : Thread} {n : Nat} {fail : Bool}
    (h : ∀ addr, s'.pc t ≠ .returned (.ok addr)) : putFinished s s' (.sys t n fail) = [] := by
  cases hret : s'.pc t with
  | returned rc =>
    cases rc with
    | ok addr => exact absurd hret (h addr)
    | error e => simp only [putFinished, hret]
  | idle | access | openTmp | write | fsync | rename | unlink => simp only [putFinished, hret]

/-- **A step keeps the order**: the put that it finishes, if any, comes last. -/
theorem OrderInv.step (h : OrderInv pid s ps) {e : PutEvent Thread} (hno : NoSharedTmp pid s e)
    (hstep : putStep pid s e = some s')
    (hapart : ∀ p ∈ s'.calls, ∀ q ∈ s'.calls,
      oryxContentAddress p.1 = oryxContentAddress q.1 → p.1 = q.1) :
    OrderInv pid s' (ps ++ putFinished s s' e) := by
  have hcalls := calls_putStep hstep
  have hstore : StoreInv pid s' := h.store.step hno (fun t data key he p hp haddr => by
    subst he
    obtain ⟨-, rfl⟩ := callStep_some hstep
    exact hapart p (hcalls hp) _ List.mem_cons_self haddr) hstep
  cases e with
  | call t data key =>
    rw [putFinished, List.append_nil]
    refine ⟨hstore, List.Subset.trans h.puts hcalls, h.hex, fun t' addr hret => ?_, ?_⟩
    · obtain ⟨-, rfl⟩ := callStep_some hstep
      by_cases ht' : t' = t
      · rw [ht', goto_self] at hret
        split at hret <;> cases hret
      · rw [goto_other _ ht'] at hret
        show (Function.update s.data t data t', Function.update s.key t key t') ∈ ps
        rw [Function.update_of_ne ht', Function.update_of_ne ht']
        exact h.returned t' addr hret
    · obtain ⟨-, rfl⟩ := callStep_some hstep
      exact h.index
  | sys t n fail =>
    obtain ⟨hdata, hkey, -⟩ := args_sysStep hstep
    have hother : ∀ t' ≠ t, ∀ addr, s'.pc t' = .returned (.ok addr) →
        (s'.data t', s'.key t') ∈ ps := by
      intro t' ht' addr hret
      rw [pc_sysStep hstep ht'] at hret
      rw [hdata, hkey]
      exact h.returned t' addr hret
    have hquiet : (∀ addr, s'.pc t ≠ .returned (.ok addr)) →
        (storeView s').index = (storeView s).index →
        OrderInv pid s' (ps ++ putFinished s s' (.sys t n fail)) := by
      intro hret hindex
      rw [putFinished_eq_nil hret, List.append_nil]
      refine ⟨hstore, List.Subset.trans h.puts hcalls, h.hex, fun t' addr hret' => ?_,
        hindex.trans h.index⟩
      by_cases ht' : t' = t
      · exact absurd (ht' ▸ hret') (hret addr)
      · exact hother t' ht' addr hret'
    rcases publish_step h.store.toPutsGoing hno hstep with
      ⟨hview, hret⟩ | ⟨-, hpc', hview⟩ | ⟨hpc, hpc', hview⟩
    · exact hquiet hret (by rw [hview])
    · refine hquiet (fun addr hret => ?_) (by rw [hview])
      cases hpc'.symm.trans hret
    · have hfinished : putFinished s s' (.sys t n fail) = [(s.data t, s.key t)] := by
        rw [putFinished, hpc']
      obtain ⟨hhex, hput⟩ := h.store.called t (by rw [hpc]; rfl)
      rw [hfinished]
      refine ⟨hstore, ?_, ?_, fun t' addr hret => ?_, ?_⟩
      · exact List.append_subset.mpr ⟨List.Subset.trans h.puts hcalls,
          List.cons_subset.mpr ⟨hcalls hput, List.nil_subset _⟩⟩
      · intro p hp
        rcases List.mem_append.mp hp with hp | hp
        · exact h.hex p hp
        · rw [List.mem_singleton.mp hp]
          exact hhex
      · by_cases ht' : t' = t
        · rw [ht', hdata, hkey]
          exact List.mem_append_right _ List.mem_cons_self
        · exact List.mem_append_left _ (hother t' ht' addr hret)
      · rw [index_putsInOrder_concat hhex, ← h.index, hview]

/-- **Overlapping puts happen one after the other**, each when it renames its index file: in the
order of these renames they leave a store that answers every lookup as the threads' store does,
and a put that has returned is one of them. -/
theorem puts_linearize (hinit : PutInit s₀) (hcalls : s₀.calls = []) (h : PutTrace pid s₀ ps s)
    (hapart : ∀ p ∈ s.calls, ∀ q ∈ s.calls,
      oryxContentAddress p.1 = oryxContentAddress q.1 → p.1 = q.1) : ServesAs s ps := by
  suffices hinv : OrderInv pid s ps from hinv.servesAs
  induction h with
  | start =>
    refine ⟨hinit.storeInv hcalls, List.nil_subset _, fun p hp => absurd hp List.not_mem_nil,
      fun t addr hret => ?_, funext fun key => ?_⟩
    · rw [hinit.pc] at hret
      cases hret
    · show (if isHex64 key = true then s₀.fs.file (.index, key) else none) = none
      split
      · next hkey => exact hinit.empty .index key hkey
      · rfl
  | step _ hno hstep ih =>
    have hsub := calls_putStep hstep
    exact (ih fun p hp q hq => hapart p (hsub hp) q (hsub hq)).step hno hstep hapart

end Order

/-- Two processes put the same bytes at once: both puts are in the order. -/
theorem puts_linearize_inTurn : ∃ (s : PutState Bool) (ps : List (List Byte × List Byte)),
    PutTrace twoPids (emptyStore Bool) ps s ∧ (∀ t, (s.data t, s.key t) ∈ ps) ∧ ServesAs s ps := by
  obtain ⟨s, hreach, hreturned, hcalls⟩ := exists_putsInTurn
  obtain ⟨ps, htrace⟩ := exists_putTrace hreach
  have hserves := puts_linearize (putInit_emptyStore Bool) rfl htrace fun p hp q hq _ =>
    (hcalls p hp).trans (hcalls q hq).symm
  refine ⟨s, ps, htrace, fun t => ?_, hserves⟩
  obtain ⟨addr, hret⟩ := hreturned t
  exact hserves.returned t addr hret

end Oryx
