/-
Oryx/Dispatch.lean

The dispatcher: `oryx_run_program` of `oryxrun.c` with its block cache.

The loop looks the block of the current guest PC up in the cache, builds and
adds it if it is missing (emptying the cache first if it is full), runs it,
and goes on at the PC the block hands back.  What running a block does is a
parameter, a function of the block's code and the guest state.

The cache is the bounded cache of `Lib/ProbeTable`, at the hash function, the
16384 slots and the cap of 12288 entries of the source.  Beside the loop
stands the loop without a cache, `freshLoop`, which builds the block anew at
every step; `dispatchLoop_eq` says that the two agree.  `blockCache_invisible`
adds what the return codes mean in terms of the chain of blocks.
-/
import Oryx.Linking
import Oryx.GuestSemantics
import Oryx.Lib.ProbeTable

namespace Oryx

/-! ### Return codes -/

def oryxOk : CInt := 0
def oryxErrSteps : CInt := -102

/-- The values of the `ORYX_ERR_*` codes. -/
def OryxErr.code : OryxErr → CInt
  | .io => -1
  | .format => -2
  | .integrity => -3
  | .notfound => -4
  | .inval => -5
  | .nomem => -6

theorem OryxErr.code_ne_ok (e : OryxErr) : e.code ≠ oryxOk := by
  cases e <;> decide

theorem OryxErr.code_ne_steps (e : OryxErr) : e.code ≠ oryxErrSteps := by
  cases e <;> decide

/-! ### The block cache -/

/-- `ORYX_CACHE_SLOTS` and `ORYX_CACHE_CAP`. -/
def oryxCacheSlots : Nat := 16384
def oryxCacheCap : Nat := 12288

instance : NeZero oryxCacheSlots := ⟨by decide⟩

/-- `oryx_pc_hash`. -/
def oryxPcHash (pc : U64) : U64 :=
  let pc := pc * 0x9E3779B97F4A7C15
  pc ^^^ (pc >>> 29)

/-- The slot a PC is looked for first. -/
def oryxPcSlot (pc : U64) : Fin oryxCacheSlots :=
  Fin.ofNat oryxCacheSlots (oryxPcHash pc &&& 16383).toNat

/-- The entries of the table and their number, `live`. -/
abbrev BlockCache := ProbeTable.Cache U64 OryxExec oryxCacheSlots

/-- `oryx_cache_find`. -/
def oryxCacheFind (c : BlockCache) (pc : U64) : Option OryxExec :=
  ProbeTable.find oryxPcSlot c.slots pc

/-- `oryx_cache_insert` and the code around it: flush a full cache, insert, count. -/
def oryxCacheInsert (c : BlockCache) (pc : U64) (e : OryxExec) : Option BlockCache :=
  c.add oryxPcSlot oryxCacheCap pc e

/-! ### The loop -/

/-- `ORYX_MAX_BLOCK_OPS`. -/
def oryxMaxBlockOps : Nat := 64

/-- What the fetch callback returns: its code, the `n` ops and the length. -/
structure FetchAnswer where
  rc : CInt
  ops : List OryxGinsn
  len : U32

/-- `rc`, `*steps_out` and the guest state after a run. -/
structure RunResult (γ : Type) where
  rc : CInt
  steps : U64
  guest : γ

section Loop

variable {γ : Type} (fetch : U64 → FetchAnswer) (policy : MmPolicy) (strength : OrderStrength)
  (tramp : OryxExec → γ → U64 × γ)

/-- The block at a PC: fetch, translate, link. -/
def oryxBuildBlock (pc : U64) : Except CInt OryxExec :=
  if (fetch pc).rc ≠ oryxOk then .error (fetch pc).rc
  else if (fetch pc).ops.length = 0 ∨ oryxMaxBlockOps < (fetch pc).ops.length then
    .error OryxErr.format.code
  else
    match oryxTranslateEx (fetch pc).ops ⟨policy, strength, pc, (fetch pc).len⟩ 0 with
    | .error e => .error e.code
    | .ok (tu, _) =>
        match oryxExecMapLinked tu with
        | .error e => .error e.code
        | .ok e => .ok e

theorem toNat_succ_steps {steps maxSteps : U64} (h : ¬ maxSteps ≤ steps) :
    (steps + 1).toNat = steps.toNat + 1 := by
  have hlt := maxSteps.isLt
  have hone : (1 : U64).toNat = 1 := rfl
  rw [BitVec.le_def] at h
  rw [BitVec.toNat_add, hone, Nat.mod_eq_of_lt (by omega)]

theorem steps_left {steps maxSteps : U64} (h : ¬ maxSteps ≤ steps) :
    maxSteps.toNat - (steps + 1).toNat < maxSteps.toNat - steps.toNat := by
  rw [toNat_succ_steps h]
  rw [BitVec.le_def] at h
  omega

/-- The loop of `oryx_run_program`. -/
def dispatchLoop (maxSteps : U64) (cache : BlockCache) (pc steps : U64) (g : γ) : RunResult γ :=
  if pc = oryxHaltPc then ⟨oryxOk, steps, g⟩
  else if maxSteps ≤ steps then ⟨oryxErrSteps, steps, g⟩
  else
    match oryxCacheFind cache pc with
    | some e => dispatchLoop maxSteps cache (tramp e g).1 (steps + 1) (tramp e g).2
    | none =>
        match oryxBuildBlock fetch policy strength pc with
        | .error rc => ⟨rc, steps, g⟩
        | .ok e =>
            match oryxCacheInsert cache pc e with
            | none => ⟨OryxErr.nomem.code, steps, g⟩
            | some cache' => dispatchLoop maxSteps cache' (tramp e g).1 (steps + 1) (tramp e g).2
termination_by maxSteps.toNat - steps.toNat
decreasing_by
  all_goals exact steps_left ‹¬ maxSteps ≤ steps›

/-- The runaway guard: 0 stands for the built-in default. -/
def effectiveMaxSteps (maxSteps : U64) : U64 := if maxSteps = 0 then 10000000 else maxSteps

/-- `oryx_run_program`, with every allocation and mapping succeeding. -/
def oryxRunProgram (entryPc : U64) (g : γ) (maxSteps : U64) : RunResult γ :=
  dispatchLoop fetch policy strength tramp (effectiveMaxSteps maxSteps) .flushed entryPc 0 g

/-! ### The loop without a cache -/

/-- The same loop, building the block anew at every step. -/
def freshLoop (maxSteps pc steps : U64) (g : γ) : RunResult γ :=
  if pc = oryxHaltPc then ⟨oryxOk, steps, g⟩
  else if maxSteps ≤ steps then ⟨oryxErrSteps, steps, g⟩
  else
    match oryxBuildBlock fetch policy strength pc with
    | .error rc => ⟨rc, steps, g⟩
    | .ok e => freshLoop maxSteps (tramp e g).1 (steps + 1) (tramp e g).2
termination_by maxSteps.toNat - steps.toNat
decreasing_by
  exact steps_left ‹¬ maxSteps ≤ steps›

def freshRunProgram (entryPc : U64) (g : γ) (maxSteps : U64) : RunResult γ :=
  freshLoop fetch policy strength tramp (effectiveMaxSteps maxSteps) entryPc 0 g

/-! ### The simulation -/

/-- The cache holds only blocks that building their PC gives. -/
structure CacheOk (cache : BlockCache) : Prop where
  represents : ∃ log, ProbeTable.Cache.Represents oryxPcSlot oryxCacheCap cache log ∧
    ∀ pc e, (pc, e) ∈ log → oryxBuildBlock fetch policy strength pc = .ok e

variable {fetch policy strength tramp}

theorem cacheOk_flushed : CacheOk fetch policy strength .flushed :=
  ⟨[], ProbeTable.Cache.represents_flushed, fun _ _ h => nomatch h⟩

/-- What is found is the block of the PC. -/
theorem CacheOk.find {cache : BlockCache} (h : CacheOk fetch policy strength cache) {pc : U64}
    {e : OryxExec} (hfind : oryxCacheFind cache pc = some e) :
    oryxBuildBlock fetch policy strength pc = .ok e := by
  obtain ⟨log, hrep, hlog⟩ := h.represents
  exact hlog pc e (hrep.find_eq_some_iff.mp hfind)

/-- Inserting a missing block always succeeds. -/
theorem CacheOk.insert {cache : BlockCache} (h : CacheOk fetch policy strength cache) {pc : U64}
    {e : OryxExec} (hmiss : oryxCacheFind cache pc = none)
    (hbuild : oryxBuildBlock fetch policy strength pc = .ok e) :
    ∃ cache', oryxCacheInsert cache pc e = some cache' ∧ CacheOk fetch policy strength cache' := by
  obtain ⟨log, hrep, hlog⟩ := h.represents
  obtain ⟨cache', hadd, hrep'⟩ :=
    @ProbeTable.Cache.add_spec _ _ _ _ _ oryxPcSlot oryxCacheCap cache log (by decide) (by decide)
      hrep pc e hmiss
  refine ⟨cache', hadd, _, hrep', fun pc' e' hmem => ?_⟩
  split at hmem
  · cases List.mem_singleton.mp hmem
    exact hbuild
  · rcases List.mem_cons.mp hmem with heq | hold
    · cases heq
      exact hbuild
    · exact hlog pc' e' hold

/-- **The two loops agree** from every cache that holds only blocks of their PC. -/
theorem dispatchLoop_eq {maxSteps : U64} {cache : BlockCache} {pc steps : U64} {g : γ}
    (h : CacheOk fetch policy strength cache) :
    dispatchLoop fetch policy strength tramp maxSteps cache pc steps g =
      freshLoop fetch policy strength tramp maxSteps pc steps g := by
  fun_induction dispatchLoop fetch policy strength tramp maxSteps cache pc steps g with
  | case1 => rw [freshLoop, if_pos rfl]
  | case2 cache pc steps g hpc hmax => rw [freshLoop, if_neg hpc, if_pos hmax]
  | case3 cache pc steps g hpc hmax e hfind ih =>
    -- a hit: the block found is the one building it gives
    rw [ih h]
    conv => rhs; rw [freshLoop, if_neg hpc, if_neg hmax]
    rw [h.find hfind]
  | case4 cache pc steps g hpc hmax hmiss rc hbuild =>
    rw [freshLoop, if_neg hpc, if_neg hmax, hbuild]
  | case5 cache pc steps g hpc hmax hmiss e hbuild hfull =>
    obtain ⟨cache', hinsert, -⟩ := h.insert hmiss hbuild
    rw [hinsert] at hfull
    cases hfull
  | case6 cache pc steps g hpc hmax hmiss e hbuild cache' hinsert ih =>
    obtain ⟨cache'', hinsert', hok⟩ := h.insert hmiss hbuild
    rw [hinsert, Option.some.injEq] at hinsert'
    subst hinsert'
    rw [ih hok]
    conv => rhs; rw [freshLoop, if_neg hpc, if_neg hmax]
    rw [hbuild]

/-! ### The chain of blocks -/

variable (fetch policy strength tramp) in
/-- `n` blocks run one after the other, each built and run at the PC the one before handed
back. -/
inductive BlockChain : Nat → U64 → γ → U64 → γ → Prop
  | nil (pc : U64) (g : γ) : BlockChain 0 pc g pc g
  | cons {n : Nat} {pc : U64} {g : γ} {e : OryxExec} {pc' : U64} {g' : γ}
      (hpc : pc ≠ oryxHaltPc) (hbuild : oryxBuildBlock fetch policy strength pc = .ok e)
      (hrest : BlockChain n (tramp e g).1 (tramp e g).2 pc' g') : BlockChain (n + 1) pc g pc' g'

/-- The chain that ends at the halt, at a failing block or after `n` blocks is the only one. -/
theorem BlockChain.unique {n m : Nat} {pc : U64} {g : γ} {pc₁ pc₂ : U64} {g₁ g₂ : γ}
    (h₁ : BlockChain fetch policy strength tramp n pc g pc₁ g₁)
    (h₂ : BlockChain fetch policy strength tramp m pc g pc₂ g₂) (hnm : n ≤ m)
    (hstop : n = m ∨ pc₁ = oryxHaltPc ∨
      ∃ rc, oryxBuildBlock fetch policy strength pc₁ = .error rc) :
    n = m ∧ pc₁ = pc₂ ∧ g₁ = g₂ := by
  induction h₁ generalizing m with
  | nil pc g =>
    cases h₂ with
    | nil => exact ⟨rfl, rfl, rfl⟩
    | cons hpc hbuild hrest =>
      -- a chain that stops cannot go on
      rcases hstop with h | h | ⟨rc, h⟩
      · cases h
      · exact absurd h hpc
      · rw [hbuild] at h
        cases h
  | cons hpc hbuild hrest ih =>
    cases h₂ with
    | nil => omega
    | cons hpc' hbuild' hrest' =>
      rw [hbuild] at hbuild'
      cases hbuild'
      obtain ⟨hn, hpcs, hgs⟩ := ih hrest' (by omega) (hstop.imp_left (by omega))
      exact ⟨congrArg (· + 1) hn, hpcs, hgs⟩

/-- How the loop can end after `n` of at most `k` blocks, at the PC reached. -/
def EndsWith (fetch : U64 → FetchAnswer) (policy : MmPolicy) (strength : OrderStrength)
    (k n : Nat) (pc : U64) (rc : CInt) : Prop :=
  (pc = oryxHaltPc ∧ rc = oryxOk) ∨
  (pc ≠ oryxHaltPc ∧ n = k ∧ rc = oryxErrSteps) ∨
  (pc ≠ oryxHaltPc ∧ n < k ∧ oryxBuildBlock fetch policy strength pc = .error rc)

/-- The loop runs a chain of blocks, counts them, and ends in one of these ways. -/
theorem freshLoop_chain (maxSteps pc steps : U64) (g : γ) (hle : steps ≤ maxSteps) :
    ∃ n pc', BlockChain fetch policy strength tramp n pc g pc'
        (freshLoop fetch policy strength tramp maxSteps pc steps g).guest ∧
      n ≤ maxSteps.toNat - steps.toNat ∧
      (freshLoop fetch policy strength tramp maxSteps pc steps g).steps.toNat =
        steps.toNat + n ∧
      EndsWith fetch policy strength (maxSteps.toNat - steps.toNat) n pc'
        (freshLoop fetch policy strength tramp maxSteps pc steps g).rc := by
  fun_induction freshLoop fetch policy strength tramp maxSteps pc steps g with
  -- halted, out of steps, no block, and one more block
  | case1 steps g => exact ⟨0, _, .nil _ _, Nat.zero_le _, rfl, .inl ⟨rfl, rfl⟩⟩
  | case2 pc steps g hpc hmax =>
    rw [BitVec.le_def] at hmax
    exact ⟨0, pc, .nil _ _, Nat.zero_le _, rfl, .inr (.inl ⟨hpc, by omega, rfl⟩)⟩
  | case3 pc steps g hpc hmax rc hbuild =>
    rw [BitVec.le_def] at hmax
    exact ⟨0, pc, .nil _ _, Nat.zero_le _, rfl, .inr (.inr ⟨hpc, by omega, hbuild⟩)⟩
  | case4 pc steps g hpc hmax e hbuild ih =>
    have hsucc := toNat_succ_steps hmax
    rw [BitVec.le_def] at hmax
    obtain ⟨n, pc', hchain, hn, hsteps, hend⟩ := ih (by rw [BitVec.le_def, hsucc]; omega)
    rw [hsucc] at hn hsteps hend
    refine ⟨n + 1, pc', .cons hpc hbuild hchain, by omega, by omega, ?_⟩
    rcases hend with h | ⟨hne, hk, hrc⟩ | ⟨hne, hk, hrc⟩
    · exact .inl h
    · exact .inr (.inl ⟨hne, by omega, hrc⟩)
    · exact .inr (.inr ⟨hne, by omega, hrc⟩)

/-- A block that is not built fails with a code of its own. -/
theorem oryxBuildBlock_error {pc : U64} {rc : CInt}
    (h : oryxBuildBlock fetch policy strength pc = .error rc) :
    rc ≠ oryxOk ∧ (rc = oryxErrSteps → (fetch pc).rc = oryxErrSteps) := by
  rw [oryxBuildBlock] at h
  split at h
  · next hrc =>
    cases h
    exact ⟨hrc, id⟩
  split at h
  · cases h
    exact ⟨OryxErr.code_ne_ok _, fun h => absurd h (OryxErr.code_ne_steps _)⟩
  split at h
  · cases h
    exact ⟨OryxErr.code_ne_ok _, fun h => absurd h (OryxErr.code_ne_steps _)⟩
  split at h
  · cases h
    exact ⟨OryxErr.code_ne_ok _, fun h => absurd h (OryxErr.code_ne_steps _)⟩
  · cases h

theorem oryxBuildBlock_of_fetch {pc : U64} (h : (fetch pc).rc ≠ oryxOk) :
    oryxBuildBlock fetch policy strength pc = .error (fetch pc).rc :=
  if_pos h

/-- The run is OK exactly when the chain reaches the halt within the limit. -/
theorem freshRunProgram_ok_iff (entryPc : U64) (g : γ) (maxSteps : U64) :
    (freshRunProgram fetch policy strength tramp entryPc g maxSteps).rc = oryxOk ↔
      ∃ n ≤ (effectiveMaxSteps maxSteps).toNat, ∃ g',
        BlockChain fetch policy strength tramp n entryPc g oryxHaltPc g' := by
  obtain ⟨n, pc', hchain, hn, -, hend⟩ :=
    @freshLoop_chain γ fetch policy strength tramp (effectiveMaxSteps maxSteps) entryPc 0 g
      (by rw [BitVec.le_def]; exact Nat.zero_le _)
  rw [← freshRunProgram] at hchain hend
  constructor
  · intro hok
    rcases hend with ⟨rfl, -⟩ | ⟨-, -, hrc⟩ | ⟨-, -, hbuild⟩
    · exact ⟨n, hn, _, hchain⟩
    · rw [hrc] at hok
      exact absurd hok (by decide)
    · exact absurd hok (oryxBuildBlock_error hbuild).1
  · rintro ⟨m, hm, g', hchain'⟩
    rcases hend with ⟨-, hrc⟩ | ⟨hpc, hk, -⟩ | ⟨hpc, -, hbuild⟩
    · exact hrc
    · -- all the blocks ran, so the halt was reached at the last of them
      have hmn : m ≤ n := by rw [hk]; exact hm
      obtain ⟨-, hpcs, -⟩ := hchain'.unique hchain hmn (.inr (.inl rfl))
      exact absurd hpcs.symm hpc
    · rcases Nat.le_total n m with hle | hle
      · obtain ⟨-, hpcs, -⟩ := hchain.unique hchain' hle (.inr (.inr ⟨_, hbuild⟩))
        exact absurd hpcs hpc
      · obtain ⟨-, hpcs, -⟩ := hchain'.unique hchain hle (.inr (.inl rfl))
        exact absurd hpcs.symm hpc

/-- The run stops at the limit exactly when that many blocks ran without halting, or the fetch
callback itself answers with that code. -/
theorem freshRunProgram_steps_iff (entryPc : U64) (g : γ) (maxSteps : U64) :
    (freshRunProgram fetch policy strength tramp entryPc g maxSteps).rc = oryxErrSteps ↔
      (∃ pc' g', BlockChain fetch policy strength tramp (effectiveMaxSteps maxSteps).toNat
        entryPc g pc' g' ∧ pc' ≠ oryxHaltPc) ∨
      ∃ n < (effectiveMaxSteps maxSteps).toNat, ∃ pc' g',
        BlockChain fetch policy strength tramp n entryPc g pc' g' ∧ pc' ≠ oryxHaltPc ∧
          (fetch pc').rc = oryxErrSteps := by
  obtain ⟨n, pc', hchain, hn, -, hend⟩ :=
    @freshLoop_chain γ fetch policy strength tramp (effectiveMaxSteps maxSteps) entryPc 0 g
      (by rw [BitVec.le_def]; exact Nat.zero_le _)
  rw [← freshRunProgram] at hchain hend
  have hzero : (effectiveMaxSteps maxSteps).toNat - (0 : U64).toNat =
      (effectiveMaxSteps maxSteps).toNat := Nat.sub_zero _
  rw [hzero] at hn hend
  constructor
  · intro hsteps
    rcases hend with ⟨-, hrc⟩ | ⟨hpc, hk, -⟩ | ⟨hpc, hk, hbuild⟩
    · rw [hrc] at hsteps
      exact absurd hsteps (by decide)
    · exact .inl ⟨pc', _, hk ▸ hchain, hpc⟩
    · exact .inr ⟨n, hk, pc', _, hchain, hpc, (oryxBuildBlock_error hbuild).2 hsteps⟩
  · -- the limit is reached, or the fetch itself answers so
    rintro (⟨pc₂, g₂, hchain₂, hpc₂⟩ | ⟨m, hm, pc₂, g₂, hchain₂, hpc₂, hrc₂⟩)
    · rcases hend with ⟨rfl, -⟩ | ⟨-, -, hrc⟩ | ⟨-, hk, hbuild⟩
      · obtain ⟨-, hpcs, -⟩ := hchain.unique hchain₂ hn (.inr (.inl rfl))
        exact absurd hpcs.symm hpc₂
      · exact hrc
      · obtain ⟨hnm, -, -⟩ := hchain.unique hchain₂ hn (.inr (.inr ⟨_, hbuild⟩))
        omega
    · have hbuild₂ : oryxBuildBlock fetch policy strength pc₂ = .error oryxErrSteps := by
        rw [oryxBuildBlock_of_fetch (by rw [hrc₂]; decide), hrc₂]
      -- the two chains agree as far as the shorter one goes
      rcases Nat.le_total m n with hle | hle
      · obtain ⟨hmn, hpcs, -⟩ := hchain₂.unique hchain hle (.inr (.inr ⟨_, hbuild₂⟩))
        subst hpcs
        rcases hend with ⟨hpc, -⟩ | ⟨-, hk, -⟩ | ⟨-, -, hbuild⟩
        · exact absurd hpc hpc₂
        · omega
        · rw [hbuild₂] at hbuild
          exact (Except.error.inj hbuild).symm
      · rcases hend with ⟨rfl, -⟩ | ⟨-, -, hrc⟩ | ⟨-, -, hbuild⟩
        · obtain ⟨-, hpcs, -⟩ := hchain.unique hchain₂ hle (.inr (.inl rfl))
          exact absurd hpcs.symm hpc₂
        · exact hrc
        · obtain ⟨-, hpcs, -⟩ := hchain.unique hchain₂ hle (.inr (.inr ⟨_, hbuild⟩))
          subst hpcs
          rw [hbuild₂] at hbuild
          exact (Except.error.inj hbuild).symm

end Loop

/-! ### The main result -/

/-- A run of the cache alone: every PC asked for is looked up and added if it is missing. -/
def cacheRequests (rs : List (U64 × OryxExec)) : Option BlockCache :=
  rs.foldlM (ProbeTable.Cache.request oryxPcSlot oryxCacheCap) .flushed

/-- The blocks added since the cache was last emptied. -/
def addedSinceFlush (rs : List (U64 × OryxExec)) : List (U64 × OryxExec) :=
  rs.foldl (ProbeTable.Cache.logStep oryxCacheCap) []

/-- **The block cache is invisible**: the dispatcher does what the loop without a cache does;
it is OK exactly when the chain of blocks reaches the halt within the limit; it reports the
limit exactly when that many blocks ran without halting, or the fetch callback itself answered
with that code; and in every run of the cache no insertion fails and a lookup finds exactly the
blocks added since the last flush. -/
theorem blockCache_invisible {γ : Type} (fetch : U64 → FetchAnswer) (policy : MmPolicy)
    (strength : OrderStrength) (tramp : OryxExec → γ → U64 × γ) (entryPc : U64) (g : γ)
    (maxSteps : U64) :
    oryxRunProgram fetch policy strength tramp entryPc g maxSteps =
        freshRunProgram fetch policy strength tramp entryPc g maxSteps ∧
      ((oryxRunProgram fetch policy strength tramp entryPc g maxSteps).rc = oryxOk ↔
        ∃ n ≤ (effectiveMaxSteps maxSteps).toNat, ∃ g',
          BlockChain fetch policy strength tramp n entryPc g oryxHaltPc g') ∧
      ((oryxRunProgram fetch policy strength tramp entryPc g maxSteps).rc = oryxErrSteps ↔
        (∃ pc' g', BlockChain fetch policy strength tramp (effectiveMaxSteps maxSteps).toNat
          entryPc g pc' g' ∧ pc' ≠ oryxHaltPc) ∨
        ∃ n < (effectiveMaxSteps maxSteps).toNat, ∃ pc' g',
          BlockChain fetch policy strength tramp n entryPc g pc' g' ∧ pc' ≠ oryxHaltPc ∧
            (fetch pc').rc = oryxErrSteps) ∧
      ∀ rs : List (U64 × OryxExec), ∃ cache, cacheRequests rs = some cache ∧
        ∀ pc e, oryxCacheFind cache pc = some e ↔ (pc, e) ∈ addedSinceFlush rs := by
  have heq : oryxRunProgram fetch policy strength tramp entryPc g maxSteps =
      freshRunProgram fetch policy strength tramp entryPc g maxSteps :=
    dispatchLoop_eq cacheOk_flushed
  refine ⟨heq, ?_, ?_, fun rs => ?_⟩
  · rw [heq]
    exact freshRunProgram_ok_iff entryPc g maxSteps
  · rw [heq]
    exact freshRunProgram_steps_iff entryPc g maxSteps
  · obtain ⟨cache, hrun, hrep⟩ :=
      @ProbeTable.Cache.request_run U64 OryxExec oryxCacheSlots _ _ oryxPcSlot oryxCacheCap
        (by decide) (by decide) rs
    exact ⟨cache, hrun, fun _ _ => hrep.find_eq_some_iff⟩

/-- A fetch callback that answers with the code of the limit. -/
def stepsFetch : U64 → FetchAnswer := fun _ => ⟨oryxErrSteps, [], 0⟩

/-- Its run reports the limit of one block although no block ran. -/
theorem oryxRunProgram_stepsFetch :
    (oryxRunProgram stepsFetch .drf .sc (fun _ (g : Unit) => (oryxHaltPc, g)) 0 () 1).rc =
        oryxErrSteps ∧
      (oryxRunProgram stepsFetch .drf .sc (fun _ (g : Unit) => (oryxHaltPc, g)) 0 () 1).steps =
        0 := by
  have heq : oryxRunProgram stepsFetch .drf .sc (fun _ (g : Unit) => (oryxHaltPc, g)) 0 () 1 =
      freshRunProgram stepsFetch .drf .sc (fun _ (g : Unit) => (oryxHaltPc, g)) 0 () 1 :=
    dispatchLoop_eq cacheOk_flushed
  have hrun : freshRunProgram stepsFetch .drf .sc (fun _ (g : Unit) => (oryxHaltPc, g)) 0 () 1 =
      ⟨oryxErrSteps, 0, ()⟩ := by
    rw [freshRunProgram, freshLoop, if_neg (by decide), if_neg (by decide),
      oryxBuildBlock_of_fetch (by decide)]
    rfl
  rw [heq, hrun]
  exact ⟨rfl, rfl⟩

end Oryx
