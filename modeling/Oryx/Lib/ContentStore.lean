/-
Oryx/Lib/ContentStore.lean

Content-addressed stores: blobs filed under a name computed from their own
bytes, and an index from keys to names, with an adversary who may change any
blob between two operations.

What such a store is for is a map from keys to values (`Spec`): a `put` sets
one key, the adversary changes nothing.  The store keeps two tables instead
and skips writing a blob whose name is taken.  As long as the name function
is injective on the byte strings that occur in a run, a lookup answers with
the value the map holds or refuses (`lookup_run_sound`), finds nothing exactly
at the keys the map does not hold (`lookup_run_missing`), and does answer when
nobody has touched the blob since it was written (`lookup_run_untouched`).
-/
import Mathlib.Data.List.Induction
import Mathlib.Data.Set.Function
import Mathlib.Logic.Function.Basic

namespace Oryx.ContentStore

variable {K A B V : Type*} [DecidableEq K] [DecidableEq A]

/-- How values are keyed, encoded and named. -/
structure Scheme (K A B V : Type*) where
  keyOf : V → K
  encode : V → B
  decode : B → Option V
  addrOf : B → A
  decode_encode : ∀ v, decode (encode v) = some v

/-- One step of a run: a value is put, or the adversary sets the content of a
blob (`none` deletes it). -/
inductive Event (A B V : Type*) where
  | put (v : V)
  | tamper (a : A) (content : Option B)

/-! ### The map a store stands for -/

/-- What an event does to the map. -/
def Spec.step (S : Scheme K A B V) (m : K → Option V) : Event A B V → K → Option V
  | .put v => Function.update m (S.keyOf v) (some v)
  | .tamper _ _ => m

/-- The map after a run: each key holds the value last put under it. -/
def Spec.run (S : Scheme K A B V) (es : List (Event A B V)) : K → Option V :=
  es.foldl (Spec.step S) fun _ => none

/-! ### The store -/

structure Store (K A B : Type*) where
  blobs : A → Option B
  index : K → Option A

def Store.empty : Store K A B where
  blobs := fun _ => none
  index := fun _ => none

/-- File the encoding under its name unless the name is taken, and point the
key at the name. -/
def Store.put (S : Scheme K A B V) (s : Store K A B) (v : V) : Store K A B where
  blobs :=
    match s.blobs (S.addrOf (S.encode v)) with
    | some _ => s.blobs
    | none => Function.update s.blobs (S.addrOf (S.encode v)) (some (S.encode v))
  index := Function.update s.index (S.keyOf v) (some (S.addrOf (S.encode v)))

def Store.step (S : Scheme K A B V) (s : Store K A B) : Event A B V → Store K A B
  | .put v => s.put S v
  | .tamper a content => { s with blobs := Function.update s.blobs a content }

def Store.run (S : Scheme K A B V) (es : List (Event A B V)) : Store K A B :=
  es.foldl (Store.step S) Store.empty

/-- What a lookup answers: the key is not in the index, the blob is refused
(missing, or not the one its name says, or not an encoding), or a value. -/
inductive Answer (V : Type*) where
  | missing
  | refused
  | found (v : V)

/-- Follow the index, then check the blob against its name. -/
def Store.lookup (S : Scheme K A B V) (s : Store K A B) (k : K) : Answer V :=
  match s.index k with
  | none => .missing
  | some a =>
      match s.blobs a with
      | none => .refused
      | some b =>
          if S.addrOf b = a then
            match S.decode b with
            | none => .refused
            | some v => .found v
          else .refused

/-! ### The byte strings of a run -/

/-- The byte strings a run involves: the encodings put and the contents the
adversary wrote. -/
def Involved (S : Scheme K A B V) (es : List (Event A B V)) : Set B :=
  {b | (∃ v, Event.put v ∈ es ∧ b = S.encode v) ∨ ∃ a, Event.tamper a (some b) ∈ es}

/-- The blob at `a` was written by a put of the run, and the adversary has not
touched it since. -/
def Untouched (S : Scheme K A B V) (es : List (Event A B V)) (a : A) : Prop :=
  ∃ pre v post, es = pre ++ Event.put v :: post ∧ S.addrOf (S.encode v) = a ∧
    (Store.run S pre).blobs a = none ∧ ∀ content, Event.tamper a content ∉ post

/-! ### Step lemmas -/

omit [DecidableEq A] in
theorem spec_run_append (S : Scheme K A B V) (es : List (Event A B V)) (e : Event A B V) :
    Spec.run S (es ++ [e]) = Spec.step S (Spec.run S es) e := by
  simp [Spec.run]

theorem run_append (S : Scheme K A B V) (es : List (Event A B V)) (e : Event A B V) :
    Store.run S (es ++ [e]) = Store.step S (Store.run S es) e := by
  simp [Store.run]

theorem put_blobs_of_some (S : Scheme K A B V) {s : Store K A B} {v : V} {b : B}
    (h : s.blobs (S.addrOf (S.encode v)) = some b) : (s.put S v).blobs = s.blobs := by
  simp only [Store.put, h]

theorem put_blobs_of_none (S : Scheme K A B V) {s : Store K A B} {v : V}
    (h : s.blobs (S.addrOf (S.encode v)) = none) :
    (s.put S v).blobs =
      Function.update s.blobs (S.addrOf (S.encode v)) (some (S.encode v)) := by
  simp only [Store.put, h]

/-- A put leaves every blob that is there as it is. -/
theorem put_blobs_some (S : Scheme K A B V) (s : Store K A B) (v : V) {a : A} {b : B}
    (h : s.blobs a = some b) : (s.put S v).blobs a = some b := by
  cases hv : s.blobs (S.addrOf (S.encode v)) with
  | some c => rwa [put_blobs_of_some S hv]
  | none =>
    have hne : a ≠ S.addrOf (S.encode v) := by
      rintro rfl
      simp only [hv, reduceCtorEq] at h
    rwa [put_blobs_of_none S hv, Function.update_of_ne hne]

/-- A blob present after a put was there before or is the one put. -/
theorem put_blobs_cases (S : Scheme K A B V) (s : Store K A B) (v : V) {a : A} {b : B}
    (h : (s.put S v).blobs a = some b) : s.blobs a = some b ∨ b = S.encode v := by
  cases hv : s.blobs (S.addrOf (S.encode v)) with
  | some c =>
    rw [put_blobs_of_some S hv] at h
    exact Or.inl h
  | none =>
    rw [put_blobs_of_none S hv] at h
    by_cases ha : a = S.addrOf (S.encode v)
    · rw [ha, Function.update_self] at h
      exact Or.inr (Option.some.inj h).symm
    · rw [Function.update_of_ne ha] at h
      exact Or.inl h

theorem put_blobs_fresh (S : Scheme K A B V) (s : Store K A B) (v : V)
    (h : s.blobs (S.addrOf (S.encode v)) = none) :
    (s.put S v).blobs (S.addrOf (S.encode v)) = some (S.encode v) := by
  rw [put_blobs_of_none S h, Function.update_self]

omit [DecidableEq K] [DecidableEq A] in
theorem involved_append (S : Scheme K A B V) (es : List (Event A B V)) (e : Event A B V) :
    Involved S es ⊆ Involved S (es ++ [e]) := by
  rintro b (⟨v, hv, rfl⟩ | ⟨a, ha⟩)
  · exact Or.inl ⟨v, List.mem_append_left _ hv, rfl⟩
  · exact Or.inr ⟨a, List.mem_append_left _ ha⟩

/-! ### Run lemmas -/

/-- The index points each key at the name of the value the map holds. -/
theorem index_run (S : Scheme K A B V) (es : List (Event A B V)) (k : K) :
    (Store.run S es).index k = (Spec.run S es k).map fun v => S.addrOf (S.encode v) := by
  induction es using List.reverseRecOn with
  | nil => rfl
  | append_singleton es e ih =>
    rw [run_append, spec_run_append]
    cases e with
    | tamper a content => exact ih
    | put v =>
      simp only [Store.step, Store.put, Spec.step]
      by_cases hk : k = S.keyOf v
      · subst hk
        simp only [Function.update_self, Option.map_some]
      · simp only [Function.update_of_ne hk, ih]

omit [DecidableEq A] in
/-- The map only holds values that were put, each under its own key. -/
theorem spec_run_put (S : Scheme K A B V) {es : List (Event A B V)} {k : K} {v : V}
    (h : Spec.run S es k = some v) : Event.put v ∈ es ∧ S.keyOf v = k := by
  induction es using List.reverseRecOn with
  | nil => simp [Spec.run] at h
  | append_singleton es e ih =>
    rw [spec_run_append] at h
    cases e with
    | tamper a content => exact (ih h).imp_left (List.mem_append_left _)
    | put w =>
      simp only [Spec.step] at h
      by_cases hk : k = S.keyOf w
      · subst hk
        rw [Function.update_self] at h
        cases h
        exact ⟨by simp, rfl⟩
      · rw [Function.update_of_ne hk] at h
        exact (ih h).imp_left (List.mem_append_left _)

/-- Every blob in the store is a byte string of the run. -/
theorem blobs_involved (S : Scheme K A B V) {es : List (Event A B V)} {a : A} {b : B}
    (h : (Store.run S es).blobs a = some b) : b ∈ Involved S es := by
  induction es using List.reverseRecOn generalizing a b with
  | nil => simp [Store.run, Store.empty] at h
  | append_singleton es e ih =>
    rw [run_append] at h
    cases e with
    | put v =>
      rcases put_blobs_cases S _ v h with hold | rfl
      · exact involved_append S es _ (ih hold)
      · exact Or.inl ⟨v, by simp, rfl⟩
    | tamper c content =>
      simp only [Store.step] at h
      by_cases ha : a = c
      · subst ha
        rw [Function.update_self] at h
        subst h
        exact Or.inr ⟨a, by simp⟩
      · rw [Function.update_of_ne ha] at h
        exact involved_append S es _ (ih h)

/-- A blob stays as it is through events none of which tampers with it. -/
theorem blobs_foldl_untouched (S : Scheme K A B V) {a : A} {b : B} {post : List (Event A B V)}
    (hpost : ∀ content, Event.tamper a content ∉ post) (s : Store K A B)
    (h : s.blobs a = some b) : (post.foldl (Store.step S) s).blobs a = some b := by
  induction post generalizing s with
  | nil => exact h
  | cons e post ih =>
    have htail : ∀ content, Event.tamper a content ∉ post :=
      fun content hmem => hpost content (List.mem_cons_of_mem _ hmem)
    apply ih htail
    cases e with
    | put v => exact put_blobs_some S s v h
    | tamper c content =>
      have hne : a ≠ c := by
        rintro rfl
        exact hpost content List.mem_cons_self
      simpa only [Store.step, Function.update_of_ne hne] using h

/-- An untouched blob is the encoding of a value that was put. -/
theorem blobs_untouched (S : Scheme K A B V) {es : List (Event A B V)} {a : A}
    (h : Untouched S es a) :
    ∃ v, Event.put v ∈ es ∧ S.addrOf (S.encode v) = a ∧
      (Store.run S es).blobs a = some (S.encode v) := by
  obtain ⟨pre, v, post, rfl, rfl, hfree, hpost⟩ := h
  refine ⟨v, by simp, rfl, ?_⟩
  rw [Store.run, List.foldl_append, List.foldl_cons]
  exact blobs_foldl_untouched S hpost _ (put_blobs_fresh S _ v hfree)

/-! ### Lookups after a run -/

variable {S : Scheme K A B V} {es : List (Event A B V)} {k : K} {v : V}

/-- **Soundness**: a lookup that answers gives the value last put. -/
theorem lookup_run_sound (hinj : Set.InjOn S.addrOf (Involved S es))
    (h : (Store.run S es).lookup S k = .found v) : Spec.run S es k = some v := by
  rw [Store.lookup, index_run] at h
  cases hspec : Spec.run S es k with
  | none =>
    rw [hspec] at h
    cases h
  | some w =>
    rw [hspec, Option.map_some] at h
    dsimp only at h
    cases hb : (Store.run S es).blobs (S.addrOf (S.encode w)) with
    | none =>
      rw [hb] at h
      cases h
    | some b =>
      rw [hb] at h
      dsimp only at h
      split at h
      · rename_i haddr
        have hput : S.encode w ∈ Involved S es := Or.inl ⟨w, (spec_run_put S hspec).1, rfl⟩
        have hbw : b = S.encode w := hinj (blobs_involved S hb) hput haddr
        rw [hbw, S.decode_encode] at h
        cases h
        rfl
      · cases h

/-- A lookup misses exactly the keys nothing was put under. -/
theorem lookup_run_missing :
    (Store.run S es).lookup S k = .missing ↔ Spec.run S es k = none := by
  rw [Store.lookup, index_run]
  cases Spec.run S es k with
  | none => simp only [Option.map_none]
  | some w =>
    simp only [Option.map_some, reduceCtorEq, iff_false]
    repeat' split
    all_goals simp only [reduceCtorEq, not_false_eq_true]

/-- **Availability**: an untouched blob is served. -/
theorem lookup_run_untouched (hinj : Set.InjOn S.addrOf (Involved S es))
    (hk : Spec.run S es k = some v) (hclean : Untouched S es (S.addrOf (S.encode v))) :
    (Store.run S es).lookup S k = .found v := by
  obtain ⟨w, hw, haddr, hblob⟩ := blobs_untouched S hclean
  have hwv : S.encode w = S.encode v :=
    hinj (Or.inl ⟨w, hw, rfl⟩) (Or.inl ⟨v, (spec_run_put S hk).1, rfl⟩) haddr
  rw [hwv] at hblob
  simp only [Store.lookup, index_run, hk, Option.map_some, hblob, if_true, S.decode_encode]

end Oryx.ContentStore
