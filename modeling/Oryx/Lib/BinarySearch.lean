/-
Oryx/Lib/BinarySearch.lean

Binary search in a list ordered by a key, over the half-open window
`[lo, hi)`.

Whatever the list, a hit is an element of the list with the key searched for
(`binarySearch_sound`); on a list with strictly ascending keys the search
also misses no element (`binarySearch_eq_some_iff`).  The invariant of the
second half is that every index whose key is the one searched for lies in the
window.
-/
import Mathlib.Data.List.Basic
import Mathlib.Order.Lattice

namespace Oryx

variable {α κ : Type*} [LinearOrder κ] (key : α → κ)

/-- Search the window `[lo, hi)` of `xs` for the key `k`. -/
def binarySearch (xs : List α) (k : κ) (lo hi : Nat) : Option α :=
  if lo < hi then
    let mid := lo + (hi - lo) / 2
    match xs[mid]? with
    | none => none
    | some x =>
        if key x = k then some x
        else if key x < k then binarySearch xs k (mid + 1) hi
        else binarySearch xs k lo mid
  else none
termination_by hi - lo

variable {key} {xs : List α} {k : κ}

/-- A hit is an element with the key. -/
theorem binarySearch_sound {lo hi : Nat} {x : α} (h : binarySearch key xs k lo hi = some x) :
    x ∈ xs ∧ key x = k := by
  fun_induction binarySearch key xs k lo hi with
  | case1 lo hi hlt mid hmid => cases h
  | case2 lo hi hlt mid y hmid hkey =>
    cases h
    exact ⟨List.mem_of_getElem? hmid, hkey⟩
  | case3 lo hi hlt mid y hmid hkey hless ih => exact ih h
  | case4 lo hi hlt mid y hmid hkey hless ih => exact ih h
  | case5 lo hi hlt => cases h

/-- In a list with ascending keys the key of a later element is larger. -/
theorem key_lt_of_ascending (hasc : (xs.map key).Pairwise (· < ·)) {i j : Nat} {x y : α}
    (hx : xs[i]? = some x) (hy : xs[j]? = some y) (hij : i < j) : key x < key y := by
  obtain ⟨hi, rfl⟩ := List.getElem?_eq_some_iff.mp hx
  obtain ⟨hj, rfl⟩ := List.getElem?_eq_some_iff.mp hy
  have h := List.pairwise_iff_getElem.mp hasc i j (by simpa using hi) (by simpa using hj) hij
  simpa using h

/-- An element of the window is found. -/
theorem binarySearch_complete (hasc : (xs.map key).Pairwise (· < ·)) {lo hi i : Nat} {x : α}
    (hx : xs[i]? = some x) (hlo : lo ≤ i) (hhi : i < hi) (hlen : hi ≤ xs.length) :
    binarySearch key xs (key x) lo hi = some x := by
  induction hn : hi - lo using Nat.strongRecOn generalizing lo hi with
  | ind n ih =>
    have hlt : lo < hi := by omega
    have hbound : lo + (hi - lo) / 2 < xs.length := by omega
    have hmid : xs[lo + (hi - lo) / 2]? = some xs[lo + (hi - lo) / 2] :=
      List.getElem?_eq_getElem hbound
    rw [binarySearch, if_pos hlt]
    simp only [hmid]
    -- the middle element is `x`, or `x` lies strictly to one side of it
    rcases Nat.lt_trichotomy (lo + (hi - lo) / 2) i with hside | hside | hside
    · have hkey := key_lt_of_ascending hasc hmid hx hside
      rw [if_neg (ne_of_lt hkey), if_pos hkey]
      exact ih _ (by omega) (by omega) hhi hlen rfl
    · have hsame : xs[lo + (hi - lo) / 2] = x :=
        Option.some.inj (by rw [← hmid, hside, hx])
      rw [if_pos (congrArg key hsame), hsame]
    · have hkey := key_lt_of_ascending hasc hx hmid hside
      rw [if_neg (ne_of_gt hkey), if_neg (not_lt_of_gt hkey)]
      exact ih _ (by omega) hlo hside (by omega) rfl

/-- **Binary search** of a whole list with ascending keys finds exactly the element with the
key. -/
theorem binarySearch_eq_some_iff (hasc : (xs.map key).Pairwise (· < ·)) {x : α} :
    binarySearch key xs k 0 xs.length = some x ↔ x ∈ xs ∧ key x = k := by
  constructor
  · exact binarySearch_sound
  · rintro ⟨hmem, rfl⟩
    obtain ⟨i, hi, rfl⟩ := List.getElem_of_mem hmem
    exact binarySearch_complete hasc (List.getElem?_eq_getElem hi) (Nat.zero_le i) hi
      (Nat.le_refl _)

end Oryx
