/-
Oryx/Lib/Runs.lean

Runs of a deterministic machine: a state, a list of events, and a step that
takes one event.

`Always P s es` says that `P` holds in every state of the run of `es` from
`s`, and `AllSteps ok s es` that every event of the run meets the condition
`ok` in the state it meets.  The two are tied together by what one step does:
if, from a good state, a step keeps `P` exactly when its event meets `ok`,
then `P` holds throughout exactly the runs all of whose steps meet `ok`
(`always_iff_allSteps`).  An invariant that every step keeps may be used on
the way.

Where a step may be refused (`Option`), `Reaches ok s s'` says that a run all
of whose events meet `ok` leads from `s` to `s'`, and `Reaches.invariant` is
its induction.
-/
import Mathlib.Logic.Relation

namespace Oryx

variable {σ ε : Type*} (step : σ → ε → σ)

/-- The property holds in every state of the run. -/
def Always (P : σ → Prop) : σ → List ε → Prop
  | s, [] => P s
  | s, e :: es => P s ∧ Always P (step s e) es

/-- Every event of the run meets the condition. -/
def AllSteps (ok : σ → ε → Prop) : σ → List ε → Prop
  | _, [] => True
  | s, e :: es => ok s e ∧ AllSteps ok (step s e) es

variable {step} {P I : σ → Prop} {ok : σ → ε → Prop}

theorem Always.head {s : σ} {es : List ε} (h : Always step P s es) : P s := by
  cases es with
  | nil => exact h
  | cons e es => exact h.1

/-- **Runs that keep a property** are the runs whose steps all meet the condition for it. -/
theorem always_iff_allSteps (hinv : ∀ s e, I s → I (step s e))
    (hstep : ∀ s e, I s → P s → (P (step s e) ↔ ok s e)) {s : σ} (hI : I s) (hP : P s)
    (es : List ε) : Always step P s es ↔ AllSteps step ok s es := by
  induction es generalizing s with
  | nil => exact iff_of_true hP trivial
  | cons e es ih =>
    constructor
    · rintro ⟨-, hrest⟩
      exact ⟨(hstep s e hI hP).mp hrest.head, (ih (hinv s e hI) hrest.head).mp hrest⟩
    · rintro ⟨hok, hrest⟩
      have hnext := (hstep s e hI hP).mpr hok
      exact ⟨hP, (ih (hinv s e hI) hnext).mpr hrest⟩

/-! ### Steps that may be refused -/

/-- A run whose events all meet the condition leads from one state to the other. -/
def Reaches (next : σ → ε → Option σ) (ok : σ → ε → Prop) : σ → σ → Prop :=
  Relation.ReflTransGen fun s s' => ∃ e, ok s e ∧ next s e = some s'

variable {next : σ → ε → Option σ}

/-- What each step that meets the condition keeps holds in every state reached. -/
theorem Reaches.invariant (hstep : ∀ s e s', I s → ok s e → next s e = some s' → I s') {s s' : σ}
    (h : Reaches next ok s s') (hs : I s) : I s' := by
  induction h with
  | refl => exact hs
  | tail _ hlast ih =>
    obtain ⟨e, hok, hnext⟩ := hlast
    exact hstep _ e _ ih hok hnext

/-- The state after a list of events, where each of them meets the condition and is not
refused. -/
def runEvents (next : σ → ε → Option σ) (ok : σ → ε → Prop) [∀ s e, Decidable (ok s e)] :
    σ → List ε → Option σ
  | s, [] => some s
  | s, e :: es => if ok s e then (next s e).bind fun s' => runEvents next ok s' es else none

theorem Reaches.of_events [∀ s e, Decidable (ok s e)] {es : List ε} {s s' : σ}
    (h : runEvents next ok s es = some s') : Reaches next ok s s' := by
  induction es generalizing s with
  | nil =>
    cases h
    exact .refl
  | cons e es ih =>
    rw [runEvents] at h
    split at h
    · next hok =>
      obtain ⟨s₁, hs₁, hrest⟩ := Option.bind_eq_some_iff.mp h
      exact .head ⟨e, hok, hs₁⟩ (ih hrest)
    · cases h

/-- A list of events leads to a state with a property, by computation. -/
theorem exists_of_events [∀ s e, Decidable (ok s e)] {P : σ → Prop} [DecidablePred P]
    {es : List ε} {s : σ} (h : (runEvents next ok s es).any (fun s' => decide (P s')) = true) :
    ∃ s', runEvents next ok s es = some s' ∧ P s' := by
  obtain ⟨s', hs', hP⟩ := (Option.any_eq_true _ _).mp h
  exact ⟨s', hs', of_decide_eq_true hP⟩

end Oryx
