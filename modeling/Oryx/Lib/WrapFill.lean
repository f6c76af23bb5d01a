/-
Oryx/Lib/WrapFill.lean

An array filled from the front through a counter of `w` bits.

As long as fewer than `2 ^ w` elements are written the array holds them all.
After that the counter starts again at zero and the array forgets, one whole
round at a time: below the counter stand the elements written since it last
was zero (`WrapFill.kept`).
-/
import Mathlib.Data.List.Basic
import Mathlib.Tactic.Linarith

namespace Oryx

variable {α : Type*} {w : Nat}

/-- `slots` holds what is left of `written`, and `k` counts it. -/
structure WrapFill (slots : List α) (k : BitVec w) (written : List α) : Prop where
  count : k.toNat = written.length % 2 ^ w
  kept : slots.take k.toNat = written.drop (2 ^ w * (written.length / 2 ^ w))

theorem wrapFill_nil (slots : List α) : WrapFill slots (0 : BitVec w) [] where
  count := by simp
  kept := by simp

theorem WrapFill.le {slots written : List α} {k : BitVec w} (h : WrapFill slots k written) :
    k.toNat ≤ written.length := by
  rw [h.count]
  exact Nat.mod_le _ _

/-- Writing one more element at the counter. -/
theorem WrapFill.push {slots written : List α} {k : BitVec w} (h : WrapFill slots k written)
    (hroom : k.toNat < slots.length) (x : α) :
    WrapFill (slots.set k.toNat x) (k + 1) (written ++ [x]) := by
  have hround := Nat.div_add_mod written.length (2 ^ w)
  have hk : (k + 1).toNat = (k.toNat + 1) % 2 ^ w := by
    rw [BitVec.toNat_add]
    exact Nat.add_mod_mod k.toNat 1 (2 ^ w)
  have hlen : (written ++ [x]).length = 2 ^ w * (written.length / 2 ^ w) + (k.toNat + 1) := by
    rw [List.length_append, List.length_singleton, h.count]
    omega
  have hcount : (k + 1).toNat = (written ++ [x]).length % 2 ^ w := by
    rw [hk, hlen, Nat.mul_add_mod]
  refine ⟨hcount, ?_⟩
  rw [hlen, Nat.mul_add_div (Nat.two_pow_pos w)]
  rcases Nat.lt_or_ge (k.toNat + 1) (2 ^ w) with hlt | hge
  · -- the counter goes up, and the new element stands last
    rw [hk, Nat.mod_eq_of_lt hlt, Nat.div_eq_of_lt hlt,
      Nat.add_zero (_ / _), List.drop_append_of_le_length (by omega), ← h.kept, List.take_add_one,
      List.take_set_of_le (Nat.le_refl _), List.getElem?_set_self hroom]
    rfl
  · -- the counter wraps: a whole round is forgotten
    have hfull : k.toNat + 1 = 2 ^ w := Nat.le_antisymm k.isLt hge
    rw [hk, hfull, Nat.mod_self, List.take_zero, Nat.div_self (Nat.two_pow_pos w), Nat.mul_add,
      Nat.mul_one]
    refine (List.drop_eq_nil_of_le ?_).symm
    exact Nat.le_of_eq (by rw [hlen, hfull])

end Oryx
