/-
Oryx/Ranking.lean

Which profile `oryx_profile_resolve` chooses, with scores as exact rationals.

The loop of the function is the running maximum of `Lib.RunningMax` with the
floor `-1` (`resolveStep_eq`): it finds the best of the profiles for this game
and this device that score above the floor.  `resolve_optimal` says
what that means for its result, and that the order of the set, which is the
order in which `readdir` gives the files, changes neither the return code nor
the rank of the result.

The second half is about the score as a function of the number of samples.
Every sample takes the discount for few samples back, and it also moves the
crash rate from the prior of one in ten towards the one measured.  When many
sessions crash the two pull apart; `score_le_score_iff` says where the second
wins.
-/
import Oryx.Profile
import Oryx.Lib.RunningMax
import Mathlib.Tactic.FieldSimp
import Mathlib.Tactic.Ring
import Mathlib.Algebra.Order.Field.Rat

namespace Oryx

/-! ### The choice -/

section Choice

/-- The profile is for this game and may run on this device. -/
def suits {R : Type*} (gameBuildHash : List Byte) (caps : Caps) (p : Profile R) : Bool :=
  decide (p.gameBuildHash.bytes = cString gameBuildHash) && oryxProfileCompatible p caps

theorem suits_iff {R : Type*} {game : List Byte} {caps : Caps} {p : Profile R} :
    suits game caps p = true ↔
      p.gameBuildHash.bytes = cString game ∧ oryxProfileCompatible p caps = true := by
  rw [suits, Bool.and_eq_true, decide_eq_true_eq]

/-- The second measure: how many sessions are behind the numbers. -/
def Profile.samples {R : Type*} (p : Profile R) : Nat := p.sampleCount.toNat

/-- The best profile of the set for this game and this device that scores above the floor. -/
def bestProfile (items : List (Profile ℚ)) (gameBuildHash : List Byte) (caps : Caps) :
    Option (Profile ℚ) :=
  runningMax (suits gameBuildHash caps) oryxProfileScore Profile.samples (-1.0) items

variable {game : List Byte} {caps : Caps}

/-- The body of the loop is a turn of the running maximum. -/
theorem resolveStep_eq :
    resolveStep (R := ℚ) game caps =
      runningMaxStep (suits game caps) oryxProfileScore Profile.samples := by
  funext best p
  rw [resolveStep]
  cases hkeep : suits game caps p with
  | false =>
    rw [runningMaxStep_of_not_keep hkeep]
    rw [suits, Bool.and_eq_false_iff, decide_eq_false_iff_not] at hkeep
    split
    · rfl
    · next hgame => rw [if_pos (hkeep.resolve_left hgame)]
  | true =>
    obtain ⟨hgame, hcompat⟩ := suits_iff.mp hkeep
    rw [runningMaxStep_of_keep hkeep, if_neg (not_not.mpr hgame),
      if_neg (by rw [hcompat]; exact Bool.noConfusion)]
    simp only [beq_iff_eq]
    rfl

theorem oryxProfileResolve_eq (items : List (Profile ℚ)) :
    oryxProfileResolve items game caps =
      match bestProfile items game caps with
      | none => .error .notfound
      | some best => .ok best := by
  rw [oryxProfileResolve, resolveStep_eq, foldl_runningMaxStep, bestProfile]
  cases runningMax (suits game caps) oryxProfileScore Profile.samples (-1.0) items with
  | none => rfl
  | some best => rfl

theorem resolve_ok_iff {items : List (Profile ℚ)} {best : Profile ℚ} :
    oryxProfileResolve items game caps = .ok best ↔ bestProfile items game caps = some best := by
  rw [oryxProfileResolve_eq]
  cases bestProfile items game caps with
  | none => exact iff_of_false (fun h => nomatch h) fun h => nomatch h
  | some p => rw [Except.ok.injEq, Option.some.injEq]

/-- **When nothing is found**: no profile that suits scores above the floor. -/
theorem resolve_notfound_iff {items : List (Profile ℚ)} :
    oryxProfileResolve items game caps = .error .notfound ↔
      ∀ p ∈ items, suits game caps p = true → oryxProfileScore p ≤ -1 := by
  have hfloor : (-1.0 : ℚ) = -1 := by norm_num
  have hnone : bestProfile items game caps = none ↔
      ∀ p ∈ items, suits game caps p = true → oryxProfileScore p ≤ -1.0 := runningMax_eq_none
  rw [← hfloor, ← hnone, oryxProfileResolve_eq]
  cases bestProfile items game caps with
  | none => exact iff_of_true rfl rfl
  | some p => exact iff_of_false (fun h => nomatch h) fun h => nomatch h

/-- What does not depend on the order: the return code, the score and the samples. -/
def resolvedRank (r : Except ProfileErr (Profile ℚ)) : Except ProfileErr (ℚ × BitVec 32) :=
  r.map fun p => (oryxProfileScore p, p.sampleCount)

/-- **Resolution is optimal and has no order**: a result suits the game and the device, and no
other that does has a higher score, or the same score and more samples; and a set given in
another order resolves to a result of the same rank. -/
theorem resolve_optimal (items : List (Profile ℚ)) (game : List Byte) (caps : Caps) :
    (∀ best, oryxProfileResolve items game caps = .ok best →
      best ∈ items ∧ best.gameBuildHash.bytes = cString game ∧
        oryxProfileCompatible best caps = true ∧
        ∀ p ∈ items, p.gameBuildHash.bytes = cString game → oryxProfileCompatible p caps = true →
          ¬ (oryxProfileScore best < oryxProfileScore p ∨
            (oryxProfileScore best = oryxProfileScore p ∧ best.sampleCount < p.sampleCount))) ∧
    ∀ items', items.Perm items' →
      resolvedRank (oryxProfileResolve items game caps) =
        resolvedRank (oryxProfileResolve items' game caps) := by
  constructor
  · intro best h
    have hbest := resolve_ok_iff.mp h
    obtain ⟨hmem, hsuits, -⟩ := of_runningMax hbest
    obtain ⟨hgame, hcompat⟩ := suits_iff.mp hsuits
    exact ⟨hmem, hgame, hcompat, fun p hp hgame' hcompat' =>
      runningMax_optimal hbest hp (suits_iff.mpr ⟨hgame', hcompat'⟩)⟩
  · intro items' hperm
    have hrank : (bestProfile items game caps).map (lexRank oryxProfileScore Profile.samples) =
        (bestProfile items' game caps).map (lexRank oryxProfileScore Profile.samples) :=
      map_runningMax_of_perm hperm
    rw [oryxProfileResolve_eq, oryxProfileResolve_eq]
    revert hrank
    cases bestProfile items game caps with
    | none =>
      cases bestProfile items' game caps with
      | none => exact fun _ => rfl
      | some b => exact fun h => nomatch h
    | some a =>
      cases bestProfile items' game caps with
      | none => exact fun h => nomatch h
      | some b =>
        intro h
        -- the rank is the score and the sample count
        obtain ⟨hscore, hsamples⟩ := Prod.mk.injEq .. ▸ toLex.injective (Option.some.inj h)
        show Except.ok (_, _) = Except.ok (_, _)
        rw [hscore, BitVec.eq_of_toNat_eq hsamples]

end Choice

/-! ### The score and the number of samples -/

section Samples

/-- The frame rates, weighted. -/
def fpsBase (p : Profile ℚ) : ℚ := 0.5 * p.p1LowFps + 0.3 * p.medianFps + 0.2 * p.sustainedFps

/-- What `n` samples at the crash rate `c` leave of the frame rates: the chance not to crash, and
the discount for few samples. -/
def sampledFactor (c n : ℚ) : ℚ := ((1 - c) * n + 9) * (n + 5) / (n + 10) ^ 2

/-- The same numbers with another number of samples behind them. -/
def Profile.withSamples (p : Profile ℚ) (n : BitVec 32) : Profile ℚ := { p with sampleCount := n }

theorem oryxProfileScore_eq (p : Profile ℚ) :
    oryxProfileScore p = fpsBase p * sampledFactor p.crashRate p.sampleCount.toNat := by
  have hpos : (0 : ℚ) < (p.sampleCount.toNat : ℚ) + 10 := by positivity
  have hlit : (10.0 : ℚ) = 10 ∧ (0.10 : ℚ) = 1 / 10 ∧ (1.0 : ℚ) = 1 ∧ (0.5 : ℚ) = 1 / 2 := by
    norm_num
  obtain ⟨h10, htenth, hone, hhalf⟩ := hlit
  have hfactor : (1.0 - (p.crashRate * (p.sampleCount.toNat : ℚ) + 0.10 * 10.0) /
        ((p.sampleCount.toNat : ℚ) + 10.0)) *
      (0.5 + 0.5 * ((p.sampleCount.toNat : ℚ) / ((p.sampleCount.toNat : ℚ) + 10.0))) =
      sampledFactor p.crashRate p.sampleCount.toNat := by
    rw [h10, htenth, hone, hhalf, sampledFactor]
    field_simp
    ring
  rw [← hfactor, ← mul_assoc]
  rfl

/-- The difference that more samples make. -/
theorem sampledFactor_sub (c : ℚ) {n m : ℚ} (hn : 0 ≤ n) (hm : 0 ≤ m) :
    sampledFactor c m - sampledFactor c n =
      (m - n) * (5 * (10 * c - 1) * (n + m + 20) - (15 * c - 6) * (n + 10) * (m + 10)) /
        ((n + 10) ^ 2 * (m + 10) ^ 2) := by
  have hn' : n + 10 ≠ 0 := by positivity
  have hm' : m + 10 ≠ 0 := by positivity
  rw [sampledFactor, sampledFactor]
  field_simp
  ring

/-- More samples are not worse when the crash rate is at most two in five. -/
theorem sampled_gain_of_le {c n m : ℚ} (hn : 0 ≤ n) (hm : 0 ≤ m) (hc : c ≤ 2 / 5) :
    (15 * c - 6) * (n + 10) * (m + 10) ≤ 5 * (10 * c - 1) * (n + m + 20) := by
  have hnm : 0 ≤ n * m := mul_nonneg hn hm
  -- the difference of the two sides, sorted by `n * m` and `n + m`
  have hsplit : 5 * (10 * c - 1) * (n + m + 20) - (15 * c - 6) * (n + 10) * (m + 10) =
      (6 - 15 * c) * (n * m) + (55 - 100 * c) * (n + m) + (500 - 500 * c) := by ring
  have hprod : 0 ≤ (6 - 15 * c) * (n * m) := mul_nonneg (by linarith) hnm
  have hsum : 0 ≤ (55 - 100 * c) * (n + m) := mul_nonneg (by linarith) (add_nonneg hn hm)
  linarith

/-- **When more samples rank higher**: with the same numbers, `n` samples score at most what
`m ≥ n` do exactly when the crash rate has not grown too far above the prior for that; and
always when it is at most two in five. -/
theorem score_le_score_iff {p : Profile ℚ} {n m : BitVec 32} (hlow : 0 ≤ p.p1LowFps)
    (hmedian : 0 ≤ p.medianFps) (hsustained : 0 ≤ p.sustainedFps) (hnm : n ≤ m) :
    (oryxProfileScore (p.withSamples n) ≤ oryxProfileScore (p.withSamples m) ↔
      n = m ∨ fpsBase p = 0 ∨
        (15 * p.crashRate - 6) * ((n.toNat : ℚ) + 10) * ((m.toNat : ℚ) + 10) ≤
          5 * (10 * p.crashRate - 1) * ((n.toNat : ℚ) + (m.toNat : ℚ) + 20)) ∧
    (p.crashRate ≤ 2 / 5 →
      oryxProfileScore (p.withSamples n) ≤ oryxProfileScore (p.withSamples m)) := by
  have hscore (k : BitVec 32) : oryxProfileScore (p.withSamples k) =
      fpsBase p * sampledFactor p.crashRate k.toNat := oryxProfileScore_eq (p.withSamples k)
  have hbase : 0 ≤ fpsBase p := by
    rw [fpsBase]
    positivity
  have hn : (0 : ℚ) ≤ n.toNat := Nat.cast_nonneg _
  have hm : (0 : ℚ) ≤ m.toNat := Nat.cast_nonneg _
  have hpos : (0 : ℚ) < ((n.toNat : ℚ) + 10) ^ 2 * ((m.toNat : ℚ) + 10) ^ 2 := by positivity
  have hstep := sampledFactor_sub p.crashRate hn hm
  rw [eq_div_iff hpos.ne'] at hstep
  have hle : (n.toNat : ℚ) ≤ m.toNat := Nat.cast_le.mpr (BitVec.le_def.mp hnm)
  -- the sign of the difference of the scores is the sign of three factors
  have hiff : oryxProfileScore (p.withSamples n) ≤ oryxProfileScore (p.withSamples m) ↔
      n = m ∨ fpsBase p = 0 ∨
        (15 * p.crashRate - 6) * ((n.toNat : ℚ) + 10) * ((m.toNat : ℚ) + 10) ≤
          5 * (10 * p.crashRate - 1) * ((n.toNat : ℚ) + (m.toNat : ℚ) + 20) := by
    rw [hscore, hscore]
    rcases hle.eq_or_lt with heq | hlt
    · have hsame : n = m := BitVec.eq_of_toNat_eq (Nat.cast_injective heq)
      exact iff_of_true (by rw [hsame]) (.inl hsame)
    have hne : n ≠ m := fun h => hlt.ne (by rw [h])
    rcases hbase.eq_or_lt with hzero | hbasePos
    · exact iff_of_true (by rw [← hzero, zero_mul, zero_mul]) (.inr (.inl hzero.symm))
    have hgain : 0 < (m.toNat : ℚ) - n.toNat := sub_pos.mpr hlt
    rw [mul_le_mul_iff_right₀ hbasePos, ← sub_nonneg, ← mul_nonneg_iff_of_pos_right hpos, hstep,
      mul_nonneg_iff_of_pos_left hgain, sub_nonneg]
    exact ⟨fun h => .inr (.inr h), fun h => (h.resolve_left hne).resolve_left hbasePos.ne'⟩
  exact ⟨hiff, fun hc => hiff.mpr (.inr (.inr (sampled_gain_of_le hn hm hc)))⟩

/-- A profile whose every session has crashed. -/
def crashingProfile : Profile ℚ :=
  { oryxProfileInit with p1LowFps := 52, medianFps := 60, sustainedFps := 55, crashRate := 1 }

/-- One crashed session ranks above 250 of them: the prior still counts for it. -/
theorem undersampled_outranks :
    0 ≤ crashingProfile.p1LowFps ∧ 0 ≤ crashingProfile.medianFps ∧
      0 ≤ crashingProfile.sustainedFps ∧ 0 ≤ crashingProfile.crashRate ∧
      crashingProfile.crashRate ≤ 1 ∧ (1 : BitVec 32) ≤ 250 ∧
      ¬ oryxProfileScore (crashingProfile.withSamples 1) ≤
        oryxProfileScore (crashingProfile.withSamples 250) := by
  have hone : (1 : BitVec 32).toNat = 1 := rfl
  have hmany : (250 : BitVec 32).toNat = 250 := rfl
  refine ⟨by norm_num [crashingProfile], by norm_num [crashingProfile],
    by norm_num [crashingProfile], by norm_num [crashingProfile], by norm_num [crashingProfile],
    by decide, ?_⟩
  rw [oryxProfileScore_eq, oryxProfileScore_eq]
  simp only [Profile.withSamples, crashingProfile, fpsBase, sampledFactor, hone, hmany]
  norm_num

/-- A steady profile. -/
def steadyProfile : Profile ℚ := { crashingProfile with crashRate := 1 / 100 }

/-- One session of a steady profile scores at most what 250 do. -/
theorem score_le_score_steady :
    oryxProfileScore (steadyProfile.withSamples 1) ≤
      oryxProfileScore (steadyProfile.withSamples 250) :=
  (score_le_score_iff (by norm_num [steadyProfile, crashingProfile])
    (by norm_num [steadyProfile, crashingProfile]) (by norm_num [steadyProfile, crashingProfile])
    (by decide)).2 (by norm_num [steadyProfile])

end Samples

end Oryx
