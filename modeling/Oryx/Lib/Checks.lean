/-
Oryx/Lib/Checks.lean

Computations that stop at the first check that fails.  When such a computation
has a result, every check before it has passed: one lemma for a step followed
by the rest, one for a check.
-/
import Mathlib.Logic.Basic

namespace Oryx

variable {ε α : Type*}

/-- A step of a computation that succeeds has succeeded, and so has the rest. -/
theorem bind_eq_ok_iff.{u, v} {ε : Type u} {α β : Type v} {x : Except ε α}
    {f : α → Except ε β} {b : β} :
    (x >>= f) = .ok b ↔ ∃ a, x = .ok a ∧ f a = .ok b := by
  cases x with
  | error e => exact iff_of_false (fun h => nomatch h) fun ⟨_, h, _⟩ => nomatch h
  | ok a => exact ⟨fun h => ⟨a, rfl, h⟩, fun ⟨_, h, hb⟩ => by cases h; exact hb⟩

/-- A computation with a result has passed its check. -/
theorem check_eq_ok_iff {c : Prop} [Decidable c] {e : ε} {x : Except ε α} {a : α} :
    (if c then .error e else x) = .ok a ↔ ¬c ∧ x = .ok a := by
  split
  · next hc => exact iff_of_false (fun h => nomatch h) fun h => h.1 hc
  · next hc => exact (and_iff_right hc).symm

end Oryx
