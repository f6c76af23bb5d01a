/-
Oryx/Lib/Handles.lean

Handles that are acquired and released: memory mappings, open files, locks.

Every handle given out is a new one, so releasing one twice, or one of
somebody else, is an error (`release` is partial).  `Held base owned h` says
that one party has the handles `owned` beside those of the others, `base`:
what it acquires is added, what it releases is gone (`Held.releaseAll`), and
when it has none any more the others' handles are what is left.
-/
import Mathlib.Data.Finset.Basic
import Mathlib.Data.Finset.Card
import Mathlib.Logic.Function.Basic

namespace Oryx

/-- The handles in use, the first that was never given out, and the most that were in use at
once. -/
structure Handles where
  next : Nat
  live : Finset Nat
  peak : Nat
  below : ∀ i ∈ live, i < next

namespace Handles

variable (h : Handles)

theorem below_acquire : ∀ i ∈ insert h.next h.live, i < h.next + 1 := by
  intro i hi
  rcases Finset.mem_insert.mp hi with rfl | hi
  · exact Nat.lt_succ_self _
  · exact Nat.lt_succ_of_lt (h.below i hi)

theorem below_erase (i : Nat) : ∀ j ∈ h.live.erase i, j < h.next :=
  fun j hj => h.below j (Finset.mem_of_mem_erase hj)

/-- Give out a new handle, `h.next`. -/
def acquire : Handles where
  next := h.next + 1
  live := insert h.next h.live
  peak := max h.peak (h.live.card + 1)
  below := below_acquire h

/-- Release a handle in use. -/
def release (i : Nat) : Option Handles :=
  if i ∈ h.live then
    some { next := h.next, live := h.live.erase i, peak := h.peak, below := below_erase h i }
  else none

def releaseAll (is : List Nat) : Option Handles := is.foldlM release h

/-- Beside the handles `base` of others, the handles `owned` are in use. -/
structure Held (base : Finset Nat) (owned : List Nat) (h : Handles) : Prop where
  live : h.live = base ∪ owned.toFinset
  apart : ∀ i ∈ owned, i ∉ base
  nodup : owned.Nodup

variable {h} {base : Finset Nat} {owned : List Nat}

theorem held_nil (h : Handles) : Held h.live [] h where
  live := (Finset.union_empty _).symm
  apart := fun _ hi => absurd hi List.not_mem_nil
  nodup := List.nodup_nil

theorem Held.perm (hheld : Held base owned h) {owned' : List Nat} (hp : owned'.Perm owned) :
    Held base owned' h where
  live := by rw [List.toFinset_eq_of_perm _ _ hp, hheld.live]
  apart := fun i hi => hheld.apart i (hp.mem_iff.mp hi)
  nodup := hp.nodup_iff.mpr hheld.nodup

/-- How many are in use. -/
theorem Held.card (hheld : Held base owned h) : h.live.card = base.card + owned.length := by
  have hdisj : Disjoint base owned.toFinset := by
    rw [Finset.disjoint_right]
    exact fun i hi => hheld.apart i (List.mem_toFinset.mp hi)
  rw [hheld.live, Finset.card_union_of_disjoint hdisj,
    List.toFinset_card_of_nodup hheld.nodup]

/-- **Acquiring** adds one. -/
theorem Held.acquire (hheld : Held base owned h) : Held base (h.next :: owned) h.acquire := by
  have hnew : h.next ∉ h.live := fun hmem => absurd (h.below _ hmem) (Nat.lt_irrefl _)
  rw [hheld.live, Finset.mem_union, List.mem_toFinset] at hnew
  refine ⟨?_, fun i hi => ?_, List.nodup_cons.mpr ⟨fun hmem => hnew (Or.inr hmem), hheld.nodup⟩⟩
  · show insert h.next h.live = _
    rw [hheld.live, List.toFinset_cons, Finset.union_insert]
  · rcases List.mem_cons.mp hi with rfl | hi
    · exact fun hmem => hnew (Or.inl hmem)
    · exact hheld.apart i hi

/-- **Releasing** one that is held succeeds. -/
theorem Held.release {i : Nat} (hheld : Held base (i :: owned) h) :
    ∃ h', h.release i = some h' ∧ Held base owned h' ∧ h'.peak = h.peak := by
  have hi : i ∈ h.live := by
    rw [hheld.live, List.toFinset_cons]
    exact Finset.mem_union_right _ (Finset.mem_insert_self _ _)
  obtain ⟨hnot, hnodup⟩ := List.nodup_cons.mp hheld.nodup
  refine ⟨_, if_pos hi, ⟨?_, fun j hj => hheld.apart j (List.mem_cons_of_mem _ hj), hnodup⟩, rfl⟩
  show h.live.erase i = _
  rw [hheld.live, List.toFinset_cons, Finset.union_insert, Finset.erase_insert]
  rw [Finset.mem_union, List.mem_toFinset, not_or]
  exact ⟨hheld.apart i List.mem_cons_self, hnot⟩

/-- **Releasing some** of those held, each once, leaves the rest. -/
theorem Held.releaseAll {is : List Nat} (hheld : Held base (is ++ owned) h) :
    ∃ h', h.releaseAll is = some h' ∧ Held base owned h' ∧ h'.peak = h.peak := by
  induction is generalizing h with
  | nil => exact ⟨h, rfl, hheld, rfl⟩
  | cons i is ih =>
    obtain ⟨h₁, h₁eq, hheld₁, hpeak₁⟩ := hheld.release
    obtain ⟨h', heq, hheld', hpeak'⟩ := ih hheld₁
    refine ⟨h', ?_, hheld', hpeak'.trans hpeak₁⟩
    show (h.release i).bind (fun h₁ => h₁.releaseAll is) = some h'
    rw [h₁eq]
    exact heq

theorem Held.live_nil (hheld : Held base [] h) : h.live = base := by
  rw [hheld.live, List.toFinset_nil, Finset.union_empty]

end Handles

end Oryx
