/-
Oryx/Lib/Records.lean

Sections of fixed-width records: every record is written to the same number
of cells and the records stand back to back.  Such a section has a known
length (`length_flatMap_of_width`), is read back record by record
(`getRecords_flatMap`), and determines the encoding of each of its records
(`map_eq_of_flatMap_eq`).
-/
import Mathlib.Data.List.Basic

namespace Oryx

variable {α β : Type*}

/-- Read `n` records of `len` cells each by `get`. -/
def getRecords (get : List β → α) (len : Nat) : Nat → List β → List α
  | 0, _ => []
  | n + 1, p => get p :: getRecords get len n (p.drop len)

@[simp] theorem length_getRecords (get : List β → α) (len n : Nat) (p : List β) :
    (getRecords get len n p).length = n := by
  induction n generalizing p with
  | zero => rfl
  | succ n ih => simp [getRecords, ih]

/-- Record `i` is read `i` widths into the section. -/
theorem getElem?_getRecords {get : List β → α} {len n i : Nat} (p : List β) (hi : i < n) :
    (getRecords get len n p)[i]? = some (get (p.drop (len * i))) := by
  induction n generalizing p i with
  | zero => omega
  | succ n ih =>
    cases i with
    | zero => rfl
    | succ i =>
      rw [getRecords, List.getElem?_cons_succ, ih _ (by omega), List.drop_drop, Nat.mul_succ,
        Nat.add_comm len]

/-- Reading records and writing them back gives the section itself. -/
theorem flatMap_getRecords {put : α → List β} {get : List β → α} {len : Nat}
    (hput : ∀ p, len ≤ p.length → put (get p) = p.take len) {n : Nat} {p : List β}
    (h : n * len ≤ p.length) : (getRecords get len n p).flatMap put = p.take (n * len) := by
  induction n generalizing p with
  | zero => simp [getRecords]
  | succ n ih =>
    rw [Nat.succ_mul] at h
    have htail := @ih (p.drop len) (by rw [List.length_drop]; omega)
    rw [getRecords, List.flatMap_cons, hput p (by omega), htail, Nat.succ_mul,
      Nat.add_comm (n * len), List.take_add]

section Width

variable {put : α → List β} {len : Nat} (hlen : ∀ x, (put x).length = len)

include hlen

theorem length_flatMap_of_width (xs : List α) : (xs.flatMap put).length = xs.length * len := by
  induction xs with
  | nil => simp
  | cons x xs ih =>
    rw [List.flatMap_cons, List.length_append, hlen, ih, List.length_cons, Nat.succ_mul,
      Nat.add_comm]

/-- Records written back to back are read back one by one. -/
theorem getRecords_flatMap {get : List β → α} (hget : ∀ x rest, get (put x ++ rest) = x)
    (xs : List α) (rest : List β) :
    getRecords get len xs.length (xs.flatMap put ++ rest) = xs := by
  induction xs with
  | nil => rfl
  | cons x xs ih =>
    have hdrop : (put x ++ (xs.flatMap put ++ rest)).drop len = xs.flatMap put ++ rest := by
      rw [← hlen x]
      exact List.drop_left
    rw [List.length_cons, List.flatMap_cons, List.append_assoc, getRecords, hget, hdrop, ih]

/-- Cutting a section between two records cuts the record list. -/
theorem take_flatMap_of_width (xs : List α) (k : Nat) :
    (xs.flatMap put).take (len * k) = (xs.take k).flatMap put := by
  induction xs generalizing k with
  | nil => simp
  | cons x xs ih =>
    cases k with
    | zero => simp
    | succ k =>
      rw [List.flatMap_cons, Nat.mul_succ, Nat.add_comm, ← hlen x, List.take_length_add_append,
        hlen, ih, List.take_succ_cons, List.flatMap_cons]

theorem drop_flatMap_of_width (xs : List α) (k : Nat) :
    (xs.flatMap put).drop (len * k) = (xs.drop k).flatMap put := by
  induction xs generalizing k with
  | nil => simp
  | cons x xs ih =>
    cases k with
    | zero => simp
    | succ k =>
      rw [List.flatMap_cons, Nat.mul_succ, Nat.add_comm, ← hlen x, List.drop_length_add_append,
        hlen, ih, List.drop_succ_cons]

/-- Equal sections hold equal records. -/
theorem map_eq_of_flatMap_eq (hpos : 0 < len) {xs ys : List α}
    (h : xs.flatMap put = ys.flatMap put) : xs.map put = ys.map put := by
  induction xs generalizing ys with
  | nil =>
    cases ys with
    | nil => rfl
    | cons y ys =>
      have hy := congrArg List.length h
      rw [length_flatMap_of_width hlen, length_flatMap_of_width hlen, List.length_cons,
        Nat.succ_mul] at hy
      simp at hy
      omega
  | cons x xs ih =>
    cases ys with
    | nil =>
      have hx := congrArg List.length h
      rw [length_flatMap_of_width hlen, length_flatMap_of_width hlen, List.length_cons,
        Nat.succ_mul] at hx
      simp at hx
      omega
    | cons y ys =>
      rw [List.flatMap_cons, List.flatMap_cons] at h
      obtain ⟨hhead, htail⟩ := List.append_inj h ((hlen x).trans (hlen y).symm)
      rw [List.map_cons, List.map_cons, hhead, ih htail]

end Width

end Oryx
