/-
Oryx/Lib/StreamOrder.lean

Ordering rules on an instruction stream, and their transitive closure.

A stream is a list of instructions of any kind; `Rules` says which of them
touch memory and how each orders others: an acquire orders itself before
every later access, a release itself after every earlier one, a fence orders
an earlier access before a later one, and some pairs are ordered by being
what they are.  `Via R s m` are the edges that the instruction at position
`m` is responsible for, `Edge R s` all edges, and `Ordered R s` and
`OrderedVia R s m` their transitive closures.

Positive results use the rules one by one (`ordered_of_acquire` and its
siblings); negative ones go through `Ordered.invariant`: what is reachable
stays inside any set that no edge leaves.
-/
import Mathlib.Logic.Relation

namespace Oryx.StreamOrder

variable {I : Type*}

/-- How the instructions of a stream order memory accesses. -/
structure Rules (I : Type*) where
  /-- touches memory -/
  access : I → Bool
  /-- is ordered before every later access -/
  acquires : I → Bool
  /-- is ordered after every earlier access -/
  releases : I → Bool
  /-- `fences c a b`: standing between `a` and `b`, `c` orders them -/
  fences : I → I → I → Bool
  /-- `pairs a b`: `a` is ordered before a later `b` -/
  pairs : I → I → Bool

/-- The edges that the instruction at `m` is responsible for. -/
inductive Via (R : Rules I) (s : List I) (m : Nat) : Nat → Nat → Prop
  | acquire {q : Nat} {c b : I} (hm : s[m]? = some c) (hq : s[q]? = some b) (hlt : m < q)
      (hc : R.acquires c = true) (hb : R.access b = true) : Via R s m m q
  | release {p : Nat} {a c : I} (hp : s[p]? = some a) (hm : s[m]? = some c) (hlt : p < m)
      (ha : R.access a = true) (hc : R.releases c = true) : Via R s m p m
  | fence {p q : Nat} {a b c : I} (hp : s[p]? = some a) (hm : s[m]? = some c)
      (hq : s[q]? = some b) (hpm : p < m) (hmq : m < q) (hc : R.fences c a b = true) :
      Via R s m p q

/-- One ordering edge. -/
inductive Edge (R : Rules I) (s : List I) : Nat → Nat → Prop
  | via {m p q : Nat} (h : Via R s m p q) : Edge R s p q
  | pair {p q : Nat} {a b : I} (hp : s[p]? = some a) (hq : s[q]? = some b) (hlt : p < q)
      (h : R.pairs a b = true) : Edge R s p q

/-- `p` is ordered before `q`. -/
def Ordered (R : Rules I) (s : List I) : Nat → Nat → Prop := Relation.TransGen (Edge R s)

/-- `p` is ordered before `q` by the instruction at `m` alone. -/
def OrderedVia (R : Rules I) (s : List I) (m : Nat) : Nat → Nat → Prop :=
  Relation.TransGen (Via R s m)

variable {R : Rules I} {s : List I} {m p q : Nat} {a b c : I}

/-! ### Rules -/

theorem OrderedVia.ordered (h : OrderedVia R s m p q) : Ordered R s p q :=
  Relation.TransGen.mono (fun _ _ hv => Edge.via hv) p q h

theorem ordered_of_acquire (hp : s[p]? = some a) (hq : s[q]? = some b) (hlt : p < q)
    (ha : R.acquires a = true) (hb : R.access b = true) : Ordered R s p q :=
  .single (.via (.acquire hp hq hlt ha hb))

theorem ordered_of_release (hp : s[p]? = some a) (hq : s[q]? = some b) (hlt : p < q)
    (ha : R.access a = true) (hb : R.releases b = true) : Ordered R s p q :=
  .single (.via (.release hp hq hlt ha hb))

theorem ordered_of_fence (hp : s[p]? = some a) (hm : s[m]? = some c) (hq : s[q]? = some b)
    (hpm : p < m) (hmq : m < q) (hc : R.fences c a b = true) : Ordered R s p q :=
  .single (.via (.fence hp hm hq hpm hmq hc))

theorem ordered_of_pair (hp : s[p]? = some a) (hq : s[q]? = some b) (hlt : p < q)
    (h : R.pairs a b = true) : Ordered R s p q :=
  .single (.pair hp hq hlt h)

/-! ### What an instruction orders around itself -/

/-- A fence of all accesses orders what is before it before what is after. -/
theorem orderedVia_of_fence (hp : s[p]? = some a) (hm : s[m]? = some c) (hq : s[q]? = some b)
    (hpm : p < m) (hmq : m < q) (hc : R.fences c a b = true) : OrderedVia R s m p q :=
  .single (.fence hp hm hq hpm hmq hc)

/-- An instruction that neither acquires nor fences orders nothing before
anything but itself. -/
theorem OrderedVia.eq_of_weak (hm : s[m]? = some c) (hacq : R.acquires c = false)
    (hfence : ∀ a b, R.fences c a b = false) (h : OrderedVia R s m p q) : q = m := by
  have hvia : ∀ p q, Via R s m p q → q = m := by
    intro p q hv
    cases hv with
    | acquire hm' _ _ hc _ =>
      rw [hm] at hm'
      cases hm'
      rw [hacq] at hc
      cases hc
    | release => rfl
    | fence _ hm' _ _ _ hc =>
      rw [hm] at hm'
      cases hm'
      rw [hfence] at hc
      cases hc
  cases h with
  | single hv => exact hvia _ _ hv
  | tail _ hv => exact hvia _ _ hv

/-! ### Invariants of the closure -/

/-- Every edge leads forward in the stream. -/
theorem Edge.lt (h : Edge R s p q) : p < q := by
  cases h with
  | via hvia =>
    cases hvia with
    | acquire _ _ hlt => exact hlt
    | release _ _ hlt => exact hlt
    | fence _ _ _ hpm hmq => exact Nat.lt_trans hpm hmq
  | pair _ _ hlt => exact hlt

theorem Ordered.lt (h : Ordered R s p q) : p < q := by
  induction h with
  | single he => exact he.lt
  | tail _ he ih => exact Nat.lt_trans ih he.lt

/-- What is reachable from inside a set that no edge leaves is inside it. -/
theorem Ordered.invariant {P : Nat → Prop} (hstep : ∀ p q, P p → Edge R s p q → P q)
    (h : Ordered R s p q) (hp : P p) : P q := by
  induction h with
  | single he => exact hstep _ _ hp he
  | tail _ he ih => exact hstep _ _ ih he

end Oryx.StreamOrder
