/-
Oryx/Lib/RunningMax.lean

The maximum of a list as a loop finds it: it remembers the best element so far
with its score, starts from a floor with no element, skips what it is not to
look at, and breaks ties between equal scores by a second measure.

`foldl_runningMaxStep` says what is found: the first of the largest among the
elements that are looked at and score above the floor.  An element at the floor
or below is never found, also when there is no other.  What the rank of the
result is does not depend on the order of the list (`map_runningMax_of_perm`).
-/
import Mathlib.Data.List.MinMax
import Mathlib.Data.Prod.Lex
import Mathlib.Data.List.Perm.Basic

namespace Oryx

variable {α β κ : Type*} [LinearOrder β] [LinearOrder κ]
variable (keep : α → Bool) (score : α → β) (tie : α → κ)

/-- One turn of the loop, on the best element so far and the score to beat. -/
def runningMaxStep (best : Option α × β) (x : α) : Option α × β :=
  if keep x = false then best
  else if best.2 < score x ∨ (score x = best.2 ∧ ∃ b ∈ best.1, tie b < tie x) then
    (some x, score x)
  else best

/-- Score first, then the second measure. -/
def lexRank (x : α) : β ×ₗ κ := toLex (score x, tie x)

/-- What the loop can find. -/
def eligible (floor : β) (x : α) : Bool := keep x && decide (floor < score x)

/-- The first of the largest of the elements that can be found. -/
def runningMax (floor : β) (xs : List α) : Option α :=
  (xs.filter (eligible keep score floor)).argmax (lexRank score tie)

theorem lexRank_lt_iff {x y : α} :
    lexRank score tie x < lexRank score tie y ↔
      score x < score y ∨ (score x = score y ∧ tie x < tie y) :=
  Prod.Lex.toLex_lt_toLex

variable {keep score tie} {floor : β}

theorem runningMaxStep_of_not_keep {best : Option α × β} {x : α} (h : keep x = false) :
    runningMaxStep keep score tie best x = best := if_pos h

theorem runningMaxStep_of_keep {best : Option α × β} {x : α} (h : keep x = true) :
    runningMaxStep keep score tie best x =
      if best.2 < score x ∨ (score x = best.2 ∧ ∃ b ∈ best.1, tie b < tie x) then
        (some x, score x)
      else best :=
  if_neg (by rw [h]; exact Bool.noConfusion)

theorem runningMaxStep_none {x : α} (h : keep x = true) :
    runningMaxStep keep score tie (none, floor) x =
      if floor < score x then (some x, score x) else (none, floor) := by
  rw [runningMaxStep_of_keep h]
  simp only [Option.not_mem_none, false_and, exists_false, and_false, or_false]

theorem runningMaxStep_some {b x : α} (h : keep x = true) :
    runningMaxStep keep score tie (some b, score b) x =
      if lexRank score tie b < lexRank score tie x then (some x, score x)
      else (some b, score b) := by
  have hrank : (score b < score x ∨ (score x = score b ∧ ∃ c ∈ some b, tie c < tie x)) ↔
      lexRank score tie b < lexRank score tie x := by
    rw [lexRank_lt_iff, eq_comm (a := score x)]
    simp only [Option.mem_some_iff, exists_eq_left']
  rw [runningMaxStep_of_keep h]
  exact if_congr hrank rfl rfl

/-- **The running maximum** is what the loop ends with, and the score remembered is its score. -/
theorem foldl_runningMaxStep (xs : List α) :
    xs.foldl (runningMaxStep keep score tie) (none, floor) =
      (runningMax keep score tie floor xs,
        (runningMax keep score tie floor xs).elim floor score) := by
  -- element by element, from the front of the list to its end
  induction xs using List.reverseRecOn with
  | nil => rfl
  | append_singleton xs x ih =>
    rw [List.foldl_append, List.foldl_cons, List.foldl_nil, ih]
    simp only [runningMax, List.filter_append]
    by_cases hkeep : keep x = true
    swap
    · rw [Bool.not_eq_true] at hkeep
      have hout : eligible keep score floor x = false := by rw [eligible, hkeep, Bool.false_and]
      rw [runningMaxStep_of_not_keep hkeep, List.filter_singleton, hout, cond_false,
        List.append_nil]
    have helig : eligible keep score floor x = decide (floor < score x) := by
      rw [eligible, hkeep, Bool.true_and]
    rw [List.filter_singleton, helig]
    cases hbest : (xs.filter (eligible keep score floor)).argmax (lexRank score tie) with
    | none =>
      rw [Option.elim_none, runningMaxStep_none hkeep, List.argmax_eq_none.mp hbest,
        List.nil_append]
      by_cases hlt : floor < score x
      · rw [if_pos hlt, decide_eq_true hlt, cond_true, List.argmax_singleton]
        rfl
      · rw [if_neg hlt, decide_eq_false hlt, cond_false, List.argmax_nil]
        rfl
    | some b =>
      rw [Option.elim_some, runningMaxStep_some hkeep]
      -- what is remembered lies above the floor
      have hb : floor < score b := by
        have hmem := (List.mem_filter.mp (List.argmax_mem hbest)).2
        rw [eligible, Bool.and_eq_true] at hmem
        exact of_decide_eq_true hmem.2
      by_cases hlt : floor < score x
      · rw [decide_eq_true hlt, cond_true, List.argmax_concat, hbest]
        by_cases hrank : lexRank score tie b < lexRank score tie x
        · simp only [if_pos hrank, Option.elim_some]
        · simp only [if_neg hrank, Option.elim_some]
      · have hrank : ¬ lexRank score tie b < lexRank score tie x := by
          rw [lexRank_lt_iff]
          rintro (h | ⟨h, -⟩)
          · exact hlt (hb.trans h)
          · exact hlt (h ▸ hb)
        rw [decide_eq_false hlt, cond_false, List.append_nil, if_neg hrank, hbest, Option.elim_some]

theorem mem_eligible {xs : List α} {x : α} :
    x ∈ xs.filter (eligible keep score floor) ↔ x ∈ xs ∧ keep x = true ∧ floor < score x := by
  rw [List.mem_filter, eligible, Bool.and_eq_true, decide_eq_true_eq]

theorem of_runningMax {xs : List α} {m : α} (h : runningMax keep score tie floor xs = some m) :
    m ∈ xs ∧ keep m = true ∧ floor < score m :=
  mem_eligible.mp (List.argmax_mem h)

/-- Nothing is found when no element that is looked at scores above the floor. -/
theorem runningMax_eq_none {xs : List α} :
    runningMax keep score tie floor xs = none ↔
      ∀ x ∈ xs, keep x = true → score x ≤ floor := by
  rw [runningMax, List.argmax_eq_none, List.filter_eq_nil_iff]
  apply forall₂_congr
  intro x _
  rw [eligible, Bool.and_eq_true, decide_eq_true_eq, not_and, not_lt]

/-- **No element beats what is found**, those at the floor or below included. -/
theorem runningMax_optimal {xs : List α} {m x : α}
    (h : runningMax keep score tie floor xs = some m) (hx : x ∈ xs) (hkeep : keep x = true) :
    ¬ (score m < score x ∨ (score m = score x ∧ tie m < tie x)) := by
  intro hbeats
  have hfloor := (of_runningMax h).2.2
  have habove : floor < score x := by
    rcases hbeats with hlt | ⟨heq, -⟩
    · exact hfloor.trans hlt
    · exact heq ▸ hfloor
  have hle := List.le_of_mem_argmax (mem_eligible.mpr ⟨hx, hkeep, habove⟩) h
  exact not_lt_of_ge hle ((lexRank_lt_iff score tie).mpr hbeats)

/-- **The order of the list does not matter** for the rank of what is found. -/
theorem map_runningMax_of_perm {xs ys : List α} (h : xs.Perm ys) :
    (runningMax keep score tie floor xs).map (lexRank score tie) =
      (runningMax keep score tie floor ys).map (lexRank score tie) := by
  have hperm := h.filter (eligible keep score floor)
  unfold runningMax
  cases hx : (xs.filter (eligible keep score floor)).argmax (lexRank score tie) with
  | none =>
    rw [List.argmax_eq_none] at hx
    rw [hx] at hperm
    rw [hperm.nil_eq.symm, List.argmax_nil]
  | some a =>
    cases hy : (ys.filter (eligible keep score floor)).argmax (lexRank score tie) with
    | none =>
      rw [List.argmax_eq_none] at hy
      rw [hy] at hperm
      rw [hperm.eq_nil, List.argmax_nil] at hx
      cases hx
    | some b =>
      -- each is one of the elements the other is largest among
      have hab := List.le_of_mem_argmax (hperm.mem_iff.mp (List.argmax_mem hx)) hy
      have hba := List.le_of_mem_argmax (hperm.mem_iff.mpr (List.argmax_mem hy)) hx
      exact congrArg some (le_antisymm hab hba)

end Oryx
