/-
Oryx/CodePages.lean

The executable mappings of `oryx_run_program`.

`oryx_exec_map_linked` maps pages, copies and patches the code and turns the
pages executable; both calls of the system may fail, and the second failure
unmaps again.  A block that is mapped goes into the block cache, which unmaps
everything when it is full, and the loop unmaps what is left on its way out,
whichever way that is.

`oryxRunProgramMapped` is the dispatcher with its mappings, as handles:
unmapping one that is not mapped, or mapped by somebody else, is an error.
`mappings_bounded` says that no such error occurs, that at the end the
mappings are those of before, that at most one more than the cap of the cache
is mapped at any time, and that a failure of the system stops the run after
some of its blocks and changes nothing else.
-/
import Oryx.Dispatch
import Oryx.Lib.Handles

namespace Oryx

/-! ### Mapping a block -/

def oryxErrPerm : CInt := -101

/-- `struct oryx_exec`: the code, and the mapping it is in. -/
structure MappedExec where
  exec : OryxExec
  mapping : Nat

/-- What the system answers to the `mmap` and the `mprotect` of a block; `perm` is for the
errors `EACCES` and `EPERM`. -/
inductive MapAnswer
  | maps
  | mmapFails
  | mprotectFails (perm : Bool)
  deriving DecidableEq

/-- `oryx_exec_map_linked` behind its checks: `mmap`, the code, `mprotect`. -/
def mapCode (a : MapAnswer) (e : OryxExec) (h : Handles) :
    Option (Except CInt MappedExec × Handles) :=
  match a with
  | .mmapFails => some (.error OryxErr.nomem.code, h)
  | .maps => some (.ok ⟨e, h.next⟩, h.acquire)
  | .mprotectFails perm =>
      (h.acquire.release h.next).map fun h' =>
        (.error (if perm then oryxErrPerm else OryxErr.nomem.code), h')

/-- The block cache with its mappings. -/
abbrev MappedCache := ProbeTable.Cache U64 MappedExec oryxCacheSlots

/-- The mappings of the blocks in the cache, slot by slot. -/
def MappedCache.mappings (c : MappedCache) : List Nat :=
  (ProbeTable.entries c.slots).map fun e => e.2.mapping

/-- `oryx_cache_flush`: `oryx_exec_free` for every block. -/
def oryxCacheFlush (c : MappedCache) (h : Handles) : Option Handles := h.releaseAll c.mappings

/-! ### The loop -/

section Loop

variable {γ : Type} (fetch : U64 → FetchAnswer) (policy : MmPolicy) (strength : OrderStrength)
  (tramp : OryxExec → γ → U64 × γ) (os : U64 → MapAnswer)

/-- On the way out the cache is flushed. -/
def leaveLoop (rc : CInt) (cache : MappedCache) (steps : U64) (g : γ) (h : Handles) :
    Option (RunResult γ × Handles) :=
  (oryxCacheFlush cache h).map fun h' => (⟨rc, steps, g⟩, h')

/-- A full cache is flushed before a block is added. -/
def flushFull (cache : MappedCache) (h : Handles) : Option (MappedCache × Handles) :=
  if oryxCacheCap ≤ cache.live then
    (oryxCacheFlush cache h).map fun h' => (ProbeTable.Cache.flushed, h')
  else some (cache, h)

/-- The block of a PC that is not in the cache: it is built, mapped and added.  An error is what
the loop is left with. -/
def addBlock (a : MapAnswer) (cache : MappedCache) (pc : U64) (h : Handles) :
    Option ((Except CInt MappedExec × MappedCache) × Handles) :=
  match oryxBuildBlock fetch policy strength pc with
  | .error rc => some ((.error rc, cache), h)
  | .ok e =>
      match mapCode a e h with
      | none => none
      | some (.error rc, h) => some ((.error rc, cache), h)
      | some (.ok m, h) =>
          match flushFull cache h with
          | none => none
          | some (cache, h) =>
              match ProbeTable.insert oryxPcSlot cache.slots pc m with
              | none => (h.release m.mapping).map fun h =>
                  ((.error OryxErr.nomem.code, cache), h)
              | some slots => some ((.ok m, ⟨slots, cache.live + 1⟩), h)

/-- The loop of `oryx_run_program`; `os` answers for the block that is mapped after that many
steps. -/
def mappedLoop (maxSteps : U64) (cache : MappedCache) (pc steps : U64) (g : γ) (h : Handles) :
    Option (RunResult γ × Handles) :=
  if pc = oryxHaltPc then leaveLoop oryxOk cache steps g h
  else if maxSteps ≤ steps then leaveLoop oryxErrSteps cache steps g h
  else
    match ProbeTable.find oryxPcSlot cache.slots pc with
    | some m =>
        mappedLoop maxSteps cache (tramp m.exec g).1 (steps + 1) (tramp m.exec g).2 h
    | none =>
        match addBlock fetch policy strength (os steps) cache pc h with
        | none => none
        | some ((.error rc, cache), h) => leaveLoop rc cache steps g h
        | some ((.ok m, cache), h) =>
            mappedLoop maxSteps cache (tramp m.exec g).1 (steps + 1) (tramp m.exec g).2 h
termination_by maxSteps.toNat - steps.toNat
decreasing_by
  all_goals exact steps_left ‹¬ maxSteps ≤ steps›

/-- `oryx_run_program` with its mappings. -/
def oryxRunProgramMapped (entryPc : U64) (g : γ) (maxSteps : U64) (h : Handles) :
    Option (RunResult γ × Handles) :=
  mappedLoop fetch policy strength tramp os (effectiveMaxSteps maxSteps) .flushed entryPc 0 g h

end Loop

/-! ### What the loop holds -/

/-- The cache is a well placed table of blocks built for their PCs; it holds their mappings, and
no more than one beyond the cap was ever mapped. -/
structure CacheHolds (fetch : U64 → FetchAnswer) (policy : MmPolicy) (strength : OrderStrength)
    (base : Handles) (cache : MappedCache) (h : Handles) : Prop where
  represents : ∃ log, ProbeTable.Cache.Represents oryxPcSlot oryxCacheCap cache log ∧
    ∀ pc m, (pc, m) ∈ log → oryxBuildBlock fetch policy strength pc = .ok m.exec
  held : Handles.Held base.live cache.mappings h
  count : cache.mappings.length = cache.live
  peak : h.peak ≤ max base.peak (base.live.card + oryxCacheCap + 1)

section Hold

variable {fetch : U64 → FetchAnswer} {policy : MmPolicy} {strength : OrderStrength}
  {base h : Handles} {cache : MappedCache}

theorem mappings_flushed : MappedCache.mappings .flushed = [] := by
  rw [MappedCache.mappings, ProbeTable.Cache.flushed, ProbeTable.entries_empty, List.map_nil]

theorem cacheHolds_flushed (h : Handles) :
    CacheHolds fetch policy strength h .flushed h where
  represents := ⟨[], ProbeTable.Cache.represents_flushed, fun _ _ hm => absurd hm List.not_mem_nil⟩
  held := by
    rw [mappings_flushed]
    exact Handles.held_nil h
  count := by
    rw [mappings_flushed]
    rfl
  peak := Nat.le_max_left _ _

theorem CacheHolds.find (hc : CacheHolds fetch policy strength base cache h) {pc : U64}
    {m : MappedExec} (hfind : ProbeTable.find oryxPcSlot cache.slots pc = some m) :
    oryxBuildBlock fetch policy strength pc = .ok m.exec := by
  obtain ⟨log, hrep, hlog⟩ := hc.represents
  exact hlog pc m (hrep.find_eq_some_iff.mp hfind)

/-- Flushing releases what the cache holds. -/
theorem CacheHolds.flush (hc : CacheHolds fetch policy strength base cache h) :
    ∃ h', oryxCacheFlush cache h = some h' ∧ h'.live = base.live ∧ h'.peak = h.peak := by
  obtain ⟨h', heq, hheld, hpeak⟩ := Handles.Held.releaseAll
    (by rw [List.append_nil]; exact hc.held)
  exact ⟨h', heq, hheld.live_nil, hpeak⟩

/-- What a failure of the system is reported as. -/
def MapAnswer.failure : MapAnswer → Option CInt
  | .maps => none
  | .mprotectFails true => some oryxErrPerm
  | .mmapFails | .mprotectFails false => some OryxErr.nomem.code

/-- Mapping a block adds its mapping, or none. -/
theorem mapCode_spec {owned : List Nat} (a : MapAnswer) (e : OryxExec)
    (hheld : Handles.Held base.live owned h) :
    (∃ m h', mapCode a e h = some (.ok m, h') ∧ m.exec = e ∧
        Handles.Held base.live (m.mapping :: owned) h' ∧
        h'.peak = max h.peak (h.live.card + 1)) ∨
      ∃ rc h', mapCode a e h = some (.error rc, h') ∧ a.failure = some rc ∧
        Handles.Held base.live owned h' ∧ h'.peak ≤ max h.peak (h.live.card + 1) := by
  cases a with
  | maps => exact Or.inl ⟨_, _, rfl, rfl, hheld.acquire, rfl⟩
  | mmapFails =>
    exact Or.inr ⟨_, h, rfl, rfl, hheld, Nat.le_max_left _ _⟩
  | mprotectFails perm =>
    obtain ⟨h', hrel, hheld', hpeak⟩ := hheld.acquire.release
    refine Or.inr ⟨if perm then oryxErrPerm else OryxErr.nomem.code, h', ?_, ?_, hheld', hpeak.le⟩
    · rw [mapCode, hrel, Option.map_some]
    · cases perm <;> rfl

/-- A flush of a full cache keeps what is not in the cache. -/
theorem flushFull_spec {extra : List Nat}
    (hheld : Handles.Held base.live (cache.mappings ++ extra) h)
    (hcount : cache.mappings.length = cache.live) :
    ∃ cache' h', flushFull cache h = some (cache', h') ∧
      cache' = (if oryxCacheCap ≤ cache.live then .flushed else cache) ∧
      Handles.Held base.live (cache'.mappings ++ extra) h' ∧
      cache'.mappings.length = cache'.live ∧ h'.peak = h.peak := by
  unfold flushFull
  split
  · obtain ⟨h', hrel, hheld', hpeak⟩ := hheld.releaseAll
    refine ⟨_, h', by rw [oryxCacheFlush, hrel, Option.map_some], rfl, ?_, ?_, hpeak⟩
    · rw [mappings_flushed]
      exact hheld'
    · rw [mappings_flushed]
      rfl
  · exact ⟨cache, h, rfl, rfl, hheld, hcount, rfl⟩

/-- Adding a block to the table adds its mapping. -/
theorem mappings_insert {slots : ProbeTable.Slots U64 MappedExec oryxCacheSlots} {pc : U64}
    {m : MappedExec} {live : Nat}
    (hins : ProbeTable.insert oryxPcSlot cache.slots pc m = some slots) :
    (MappedCache.mappings ⟨slots, live⟩).Perm (m.mapping :: cache.mappings) := by
  obtain ⟨i, hfree, rfl⟩ := ProbeTable.insert_eq_some hins
  exact (ProbeTable.entries_update hfree (pc, m)).map _

/-- **Adding a block** keeps what the loop holds, whatever the system answers. -/
theorem CacheHolds.addBlock (hc : CacheHolds fetch policy strength base cache h) (a : MapAnswer)
    {pc : U64} (hmiss : ProbeTable.find oryxPcSlot cache.slots pc = none) :
    ∃ r cache' h', Oryx.addBlock fetch policy strength a cache pc h = some ((r, cache'), h') ∧
      CacheHolds fetch policy strength base cache' h' ∧
      ((∃ rc, r = .error rc ∧ (oryxBuildBlock fetch policy strength pc = .error rc ∨
          a.failure = some rc)) ∨
        ∃ m, r = .ok m ∧ oryxBuildBlock fetch policy strength pc = .ok m.exec) := by
  obtain ⟨log, hrep, hlog⟩ := hc.represents
  unfold Oryx.addBlock
  cases hbuild : oryxBuildBlock fetch policy strength pc with
  | error rc => exact ⟨_, _, _, rfl, hc, Or.inl ⟨rc, rfl, Or.inl rfl⟩⟩
  | ok e =>
    -- at most one beyond the cap
    have hbound : max h.peak (h.live.card + 1) ≤
        max base.peak (base.live.card + oryxCacheCap + 1) := by
      refine Nat.max_le.mpr ⟨hc.peak, le_max_of_le_right ?_⟩
      have hroom := hrep.room
      have hlive := hrep.live_eq
      rw [hc.held.card, hc.count]
      omega
    rcases mapCode_spec a e hc.held with
      ⟨m, h₁, hmap, rfl, hheld₁, hpeak₁⟩ | ⟨rc, h₁, hmap, hfail, hheld₁, hpeak₁⟩
    · obtain ⟨cache₂, h₂, hflush, hcache₂, hheld₂, hcount₂, hpeak₂⟩ :=
        @flushFull_spec base h₁ cache [m.mapping]
          (hheld₁.perm (List.perm_append_singleton _ _)) hc.count
      obtain ⟨cache₃, hadd, hrep₃⟩ :=
        @ProbeTable.Cache.add_spec _ _ _ _ _ oryxPcSlot oryxCacheCap cache log (by decide)
          (by decide) hrep pc m hmiss
      rw [ProbeTable.Cache.add, ← hcache₂] at hadd
      obtain ⟨slots, hins, rfl⟩ := Option.map_eq_some_iff.mp hadd
      have hperm := @mappings_insert cache₂ slots pc m (cache₂.live + 1) hins
      refine ⟨.ok m, ⟨slots, cache₂.live + 1⟩, h₂, ?_, ⟨⟨_, hrep₃, ?_⟩, ?_, ?_, ?_⟩,
        Or.inr ⟨m, rfl, rfl⟩⟩
      · simp only [hmap, hflush, hins]
      · intro pc' m' hmem
        split at hmem
        · cases List.mem_singleton.mp hmem
          exact hbuild
        · rcases List.mem_cons.mp hmem with heq | hold
          · cases heq
            exact hbuild
          · exact hlog pc' m' hold
      · exact hheld₂.perm (hperm.trans (List.perm_append_singleton _ _).symm)
      · rw [hperm.length_eq, List.length_cons, hcount₂]
      · rw [hpeak₂, hpeak₁]
        exact hbound
    · refine ⟨.error rc, cache, h₁, by simp only [hmap], ?_, Or.inl ⟨rc, rfl, Or.inr hfail⟩⟩
      exact ⟨hc.represents, hheld₁, hc.count, hpeak₁.trans hbound⟩

/-! ### Runs -/

variable {γ : Type} {tramp : OryxExec → γ → U64 × γ} {os : U64 → MapAnswer}

/-- How a run from `pc` can end: as the loop without a cache does, or at a block that the system
did not map, after the blocks before it. -/
def EndsMapped (fetch : U64 → FetchAnswer) (policy : MmPolicy) (strength : OrderStrength)
    (tramp : OryxExec → γ → U64 × γ) (os : U64 → MapAnswer) (maxSteps pc steps : U64) (g : γ)
    (r : RunResult γ) : Prop :=
  r = freshLoop fetch policy strength tramp maxSteps pc steps g ∨
    ((os r.steps).failure = some r.rc ∧ ∃ n pc', r.steps.toNat = steps.toNat + n ∧
      BlockChain fetch policy strength tramp n pc g pc' r.guest)

/-- One more block in front. -/
theorem EndsMapped.turn {maxSteps pc steps : U64} {g : γ} {r : RunResult γ} {e : OryxExec}
    (hpc : pc ≠ oryxHaltPc) (hmax : ¬ maxSteps ≤ steps)
    (hbuild : oryxBuildBlock fetch policy strength pc = .ok e)
    (h : EndsMapped fetch policy strength tramp os maxSteps (tramp e g).1 (steps + 1)
      (tramp e g).2 r) : EndsMapped fetch policy strength tramp os maxSteps pc steps g r := by
  rcases h with hr | ⟨hfail, n, pc', hsteps, hchain⟩
  · refine Or.inl ?_
    rw [freshLoop, if_neg hpc, if_neg hmax, hbuild]
    exact hr
  · rw [toNat_succ_steps hmax] at hsteps
    exact Or.inr ⟨hfail, n + 1, pc', by omega, .cons hpc hbuild hchain⟩

/-- What a run leaves of the mappings. -/
structure Released (base h : Handles) : Prop where
  live : h.live = base.live
  peak : h.peak ≤ max base.peak (base.live.card + oryxCacheCap + 1)

theorem CacheHolds.leave (hc : CacheHolds fetch policy strength base cache h) (rc : CInt)
    (steps : U64) (g : γ) :
    ∃ h', leaveLoop rc cache steps g h = some (⟨rc, steps, g⟩, h') ∧ Released base h' := by
  obtain ⟨h', hflush, hlive, hpeak⟩ := hc.flush
  exact ⟨h', by rw [leaveLoop, hflush, Option.map_some], hlive, hpeak ▸ hc.peak⟩

/-- **The loop releases what it maps**, by whatever way it leaves. -/
theorem mappedLoop_spec {maxSteps pc steps : U64} {g : γ}
    (hc : CacheHolds fetch policy strength base cache h) :
    ∃ r h', mappedLoop fetch policy strength tramp os maxSteps cache pc steps g h = some (r, h') ∧
      Released base h' ∧ EndsMapped fetch policy strength tramp os maxSteps pc steps g r := by
  fun_induction mappedLoop fetch policy strength tramp os maxSteps cache pc steps g h with
  | case1 cache steps g h =>
    obtain ⟨h', heq, hrel⟩ := hc.leave oryxOk steps g
    exact ⟨_, h', heq, hrel, Or.inl (by rw [freshLoop, if_pos rfl])⟩
  | case2 cache pc steps g h hpc hmax =>
    obtain ⟨h', heq, hrel⟩ := hc.leave oryxErrSteps steps g
    exact ⟨_, h', heq, hrel, Or.inl (by rw [freshLoop, if_neg hpc, if_pos hmax])⟩
  | case3 cache pc steps g h hpc hmax m hfind ih =>
    obtain ⟨r, h', heq, hrel, hend⟩ := ih hc
    exact ⟨r, h', heq, hrel, hend.turn hpc hmax (hc.find hfind)⟩
  | case4 cache pc steps g h hpc hmax hmiss hadd =>
    -- no block is ever unmapped twice
    obtain ⟨r, cache', h', hadd', -, -⟩ := hc.addBlock (os steps) hmiss
    rw [hadd] at hadd'
    cases hadd'
  | case5 cache pc steps g h hpc hmax hmiss rc cache' h' hadd =>
    obtain ⟨r, cache'', h'', hadd', hc', hr⟩ := hc.addBlock (os steps) hmiss
    cases hadd.symm.trans hadd'
    obtain ⟨h₂, heq, hrel⟩ := hc'.leave rc steps g
    refine ⟨_, h₂, heq, hrel, ?_⟩
    rcases hr with ⟨rc', hrc, hbuild | hfail⟩ | ⟨m, hm, -⟩
    · cases hrc
      exact Or.inl (by rw [freshLoop, if_neg hpc, if_neg hmax, hbuild])
    · cases hrc
      exact Or.inr ⟨hfail, 0, pc, rfl, .nil pc g⟩
    · cases hm
  | case6 cache pc steps g h hpc hmax hmiss m cache' h' hadd ih =>
    obtain ⟨r, cache'', h'', hadd', hc', hr⟩ := hc.addBlock (os steps) hmiss
    cases hadd.symm.trans hadd'
    obtain ⟨r, h₂, heq, hrel, hend⟩ := ih hc'
    rcases hr with ⟨rc', hrc, -⟩ | ⟨m', hm, hbuild⟩
    · cases hrc
    · cases hm
      exact ⟨r, h₂, heq, hrel, hend.turn hpc hmax hbuild⟩

/-- **The dispatcher's mappings**: whatever the system answers, no mapping is unmapped twice and
none of others is touched, at the end those of before are left, and no more than one beyond the
cap of the cache was mapped at once.  The run ends as with every mapping made, or with the
failure of the system at some block, the guest as the blocks before have left it. -/
theorem mappings_bounded (fetch : U64 → FetchAnswer) (policy : MmPolicy)
    (strength : OrderStrength) (tramp : OryxExec → γ → U64 × γ) (os : U64 → MapAnswer)
    (entryPc : U64) (g : γ) (maxSteps : U64) (h : Handles) :
    ∃ r h', oryxRunProgramMapped fetch policy strength tramp os entryPc g maxSteps h =
        some (r, h') ∧
      h'.live = h.live ∧ h'.peak ≤ max h.peak (h.live.card + 12289) ∧
      (r = oryxRunProgram fetch policy strength tramp entryPc g maxSteps ∨
        ((os r.steps).failure = some r.rc ∧
          ∃ pc', BlockChain fetch policy strength tramp r.steps.toNat entryPc g pc' r.guest)) := by
  obtain ⟨r, h', heq, hrel, hend⟩ := @mappedLoop_spec fetch policy strength h h .flushed γ tramp
    os (effectiveMaxSteps maxSteps) entryPc 0 g (cacheHolds_flushed h)
  refine ⟨r, h', heq, hrel.live, hrel.peak, ?_⟩
  rcases hend with hr | ⟨hfail, n, pc', hsteps, hchain⟩
  · refine Or.inl (hr.trans ?_)
    rw [oryxRunProgram, dispatchLoop_eq cacheOk_flushed]
  · have hn : r.steps.toNat = n := hsteps.trans (Nat.zero_add n)
    exact Or.inr ⟨hfail, pc', hn ▸ hchain⟩

end Hold

end Oryx
