/-
Oryx/Lib/ProbeTable.lean

An open-addressing hash table with linear probing, and the bounded cache
built on it that is emptied when it is full.

A key is looked for from the slot of its hash on, slot after slot with wrap
around, until it is met or an empty slot is; it is put into the first empty
slot of that walk.  Slots are only ever filled one by one or all cleared at
once, so the invariant `WellPlaced` is enough: on the way from its hash to its
slot no entry meets an empty slot, and no key is in two slots.

* `find_eq_some_iff`: in a well placed table a lookup finds exactly what the
  table holds, whatever the hash function does;
* `insert_spec`: a key not in the table is added, as long as a slot is empty;
* `Cache.add_spec`: the bounded cache always has room, and holds what was
  added since it was last emptied.
-/
import Mathlib.Data.Fintype.Card
import Mathlib.Data.Fin.Basic
import Mathlib.Data.Finset.Card
import Mathlib.Data.List.FinRange
import Mathlib.Data.Nat.ModEq

namespace Oryx

namespace ProbeTable

variable {κ ν : Type*} {n : Nat}

/-- The slots: an entry is a key and its value. -/
abbrev Slots (κ ν : Type*) (n : Nat) := Fin n → Option (κ × ν)

/-- The table with every slot empty. -/
def empty : Slots κ ν n := fun _ => none

/-- The table holds the entry. -/
def Holds (t : Slots κ ν n) (k : κ) (v : ν) : Prop := ∃ i, t i = some (k, v)

/-- The number of slots in use. -/
def used (t : Slots κ ν n) : Nat := (Finset.univ.filter fun i => (t i).isSome = true).card

section Content

variable {t : Slots κ ν n} {k : κ} {v : ν}

theorem not_holds_empty : ¬ Holds (empty : Slots κ ν n) k v := fun ⟨_, h⟩ => nomatch h

theorem used_empty : used (empty : Slots κ ν n) = 0 := by
  rw [used, Finset.card_eq_zero, Finset.filter_eq_empty_iff]
  intro i _ h
  cases h

theorem exists_free (h : used t < n) : ∃ i, t i = none := by
  by_contra hfull
  have hall : (Finset.univ.filter fun i => (t i).isSome = true) = Finset.univ := by
    rw [Finset.filter_eq_self]
    intro i _
    cases hi : t i with
    | none => exact absurd ⟨i, hi⟩ hfull
    | some e => rfl
  rw [used, hall, Finset.card_univ, Fintype.card_fin] at h
  exact absurd h (Nat.lt_irrefl n)

theorem used_update {i : Fin n} (hfree : t i = none) (e : κ × ν) :
    used (Function.update t i (some e)) = used t + 1 := by
  have hset : (Finset.univ.filter fun j => (Function.update t i (some e) j).isSome = true) =
      Insert.insert i (Finset.univ.filter fun j => (t j).isSome = true) := by
    ext j
    by_cases hj : j = i
    · simp [hj]
    · simp [hj]
  rw [used, hset, Finset.card_insert_of_notMem (by simp [hfree]), used]

theorem holds_update {i : Fin n} (hfree : t i = none) {k' : κ} {v' : ν} :
    Holds (Function.update t i (some (k, v))) k' v' ↔ Holds t k' v' ∨ (k' = k ∧ v' = v) := by
  constructor
  · rintro ⟨j, hj⟩
    by_cases hji : j = i
    · rw [hji, Function.update_self] at hj
      cases hj
      exact .inr ⟨rfl, rfl⟩
    · rw [Function.update_of_ne hji] at hj
      exact .inl ⟨j, hj⟩
  · rintro (⟨j, hj⟩ | ⟨rfl, rfl⟩)
    · have hji : j ≠ i := by
        rintro rfl
        rw [hfree] at hj
        cases hj
      exact ⟨j, by rw [Function.update_of_ne hji]; exact hj⟩
    · exact ⟨i, Function.update_self i _ t⟩

end Content

/-- The entries, slot by slot. -/
def entries (t : Slots κ ν n) : List (κ × ν) := (List.finRange n).filterMap t

theorem entries_empty : entries (empty : Slots κ ν n) = [] := by
  rw [entries, List.filterMap_eq_nil_iff]
  exact fun _ _ => rfl

/-- Filling a free slot adds its entry. -/
theorem entries_update {t : Slots κ ν n} {i : Fin n} (hfree : t i = none) (e : κ × ν) :
    (entries (Function.update t i (some e))).Perm (e :: entries t) := by
  have hsplit : ∀ l : List (Fin n), l.Nodup → i ∈ l →
      (l.filterMap (Function.update t i (some e))).Perm (e :: l.filterMap t) := by
    intro l hnodup hi
    induction l with
    | nil => cases hi
    | cons j l ih =>
      obtain ⟨hj, hl⟩ := List.nodup_cons.mp hnodup
      rcases List.mem_cons.mp hi with rfl | hi
      · have hrest : l.filterMap (Function.update t i (some e)) = l.filterMap t :=
          List.filterMap_congr fun x hx => Function.update_of_ne (ne_of_mem_of_not_mem hx hj) _ _
        rw [List.filterMap_cons_some (Function.update_self i _ t), hrest,
          List.filterMap_cons_none hfree]
      · have hji : j ≠ i := fun h => hj (h ▸ hi)
        have hkeep : Function.update t i (some e) j = t j := Function.update_of_ne hji _ _
        cases htj : t j with
        | none =>
          rw [List.filterMap_cons_none (hkeep.trans htj), List.filterMap_cons_none htj]
          exact ih hl hi
        | some x =>
          rw [List.filterMap_cons_some (hkeep.trans htj), List.filterMap_cons_some htj]
          exact ((ih hl hi).cons x).trans (List.Perm.swap e x _)
  exact hsplit _ (List.nodup_finRange n) (List.mem_finRange i)

variable [NeZero n]

/-! ### The operations -/

/-- Put an entry into the first empty slot of at most `m` from `i` on. -/
def insertFrom (t : Slots κ ν n) (k : κ) (v : ν) : Nat → Fin n → Option (Slots κ ν n)
  | 0, _ => none
  | m + 1, i =>
      match t i with
      | none => some (Function.update t i (some (k, v)))
      | some _ => insertFrom t k v m (i + 1)

def insert (hash : κ → Fin n) (t : Slots κ ν n) (k : κ) (v : ν) : Option (Slots κ ν n) :=
  insertFrom t k v n (hash k)

section Lookup

variable [DecidableEq κ]

/-- Look for `k` in at most `m` slots from `i` on. -/
def findFrom (t : Slots κ ν n) (k : κ) : Nat → Fin n → Option ν
  | 0, _ => none
  | m + 1, i =>
      match t i with
      | none => none
      | some (k', v) => if k' = k then some v else findFrom t k m (i + 1)

def find (hash : κ → Fin n) (t : Slots κ ν n) (k : κ) : Option ν := findFrom t k n (hash k)

end Lookup

/-! ### The walk -/

/-- The slot `p` steps after `i`. -/
def probe : Fin n → Nat → Fin n
  | i, 0 => i
  | i, p + 1 => probe (i + 1) p

theorem val_probe (i : Fin n) (p : Nat) : (probe i p).val = (i.val + p) % n := by
  induction p generalizing i with
  | zero => rw [probe, Nat.add_zero, Nat.mod_eq_of_lt i.isLt]
  | succ p ih =>
    rw [probe, ih, Fin.val_add, Fin.val_one', Nat.add_mod_mod, Nat.mod_add_mod, Nat.add_assoc,
      Nat.add_comm 1]

/-- The walk meets every slot. -/
theorem exists_probe (i j : Fin n) : ∃ p < n, probe i p = j := by
  have hi := i.isLt
  have hj := j.isLt
  rcases Nat.lt_or_ge j.val i.val with hlt | hge
  · refine ⟨n + j.val - i.val, by omega, Fin.ext ?_⟩
    rw [val_probe, show i.val + (n + j.val - i.val) = j.val + n by omega, Nat.add_mod_right,
      Nat.mod_eq_of_lt hj]
  · refine ⟨j.val - i.val, by omega, Fin.ext ?_⟩
    rw [val_probe, show i.val + (j.val - i.val) = j.val by omega, Nat.mod_eq_of_lt hj]

/-- The walk meets no slot twice. -/
theorem probe_injOn {i : Fin n} {p q : Nat} (hp : p < n) (hq : q < n)
    (h : probe i p = probe i q) : p = q := by
  have hval := congrArg Fin.val h
  rw [val_probe, val_probe] at hval
  have hmod : Nat.ModEq n p q := Nat.ModEq.add_left_cancel' i.val hval
  rwa [Nat.ModEq, Nat.mod_eq_of_lt hp, Nat.mod_eq_of_lt hq] at hmod

/-- An insertion fills the first empty slot of the walk. -/
theorem insertFrom_eq_some {t t' : Slots κ ν n} {k : κ} {v : ν} {m : Nat} {i : Fin n}
    (h : insertFrom t k v m i = some t') :
    ∃ p < m, t (probe i p) = none ∧ (∀ q < p, t (probe i q) ≠ none) ∧
      t' = Function.update t (probe i p) (some (k, v)) := by
  induction m generalizing i with
  | zero => cases h
  | succ m ih =>
    rw [insertFrom] at h
    split at h
    · next hslot =>
      cases h
      exact ⟨0, Nat.succ_pos m, hslot, fun q hq => absurd hq (Nat.not_lt_zero q), rfl⟩
    · next e hslot =>
      obtain ⟨p, hp, hfree, hpath, ht⟩ := ih h
      refine ⟨p + 1, by omega, hfree, fun q hq => ?_, ht⟩
      cases q with
      | zero => rw [probe, hslot]; exact Option.some_ne_none e
      | succ q => exact hpath q (by omega)

/-- An insertion fills a free slot. -/
theorem insert_eq_some {hash : κ → Fin n} {t t' : Slots κ ν n} {k : κ} {v : ν}
    (h : insert hash t k v = some t') :
    ∃ i, t i = none ∧ t' = Function.update t i (some (k, v)) := by
  obtain ⟨p, -, hfree, -, ht⟩ := insertFrom_eq_some h
  exact ⟨_, hfree, ht⟩

/-- An insertion succeeds when an empty slot lies within its reach. -/
theorem insertFrom_isSome {t : Slots κ ν n} {k : κ} {v : ν} {m : Nat} {i : Fin n} {p : Nat}
    (hp : p < m) (hfree : t (probe i p) = none) : ∃ t', insertFrom t k v m i = some t' := by
  induction m generalizing i p with
  | zero => omega
  | succ m ih =>
    rw [insertFrom]
    split
    · exact ⟨_, rfl⟩
    · next e hslot =>
      cases p with
      | zero =>
        rw [probe, hslot] at hfree
        cases hfree
      | succ p => exact ih (Nat.lt_of_succ_lt_succ hp) hfree

/-! ### The invariant -/

/-- No empty slot lies between an entry's hash and its slot, and no key is in two slots. -/
structure WellPlaced (hash : κ → Fin n) (t : Slots κ ν n) : Prop where
  path : ∀ k v, ∀ p < n, t (probe (hash k) p) = some (k, v) → ∀ q < p,
    t (probe (hash k) q) ≠ none
  unique : ∀ i j e e', t i = some e → t j = some e' → e.1 = e'.1 → i = j

variable {hash : κ → Fin n} {t : Slots κ ν n} {k : κ} {v : ν}

theorem wellPlaced_empty : WellPlaced hash (empty : Slots κ ν n) where
  path := fun _ _ _ _ h => nomatch h
  unique := fun _ _ _ _ h => nomatch h

variable [DecidableEq κ]

/-- A lookup stops at the first slot that holds the key, if no empty slot comes before. -/
theorem findFrom_eq_some {t : Slots κ ν n} {k : κ} {v : ν} {m : Nat} {i : Fin n} :
    findFrom t k m i = some v ↔ ∃ p < m, t (probe i p) = some (k, v) ∧
      ∀ q < p, ∃ e, t (probe i q) = some e ∧ e.1 ≠ k := by
  induction m generalizing i with
  | zero => simp [findFrom]
  | succ m ih =>
    constructor
    · intro h
      rw [findFrom] at h
      split at h
      · cases h
      · next k' v' hslot =>
        split at h
        · next hk =>
          cases h
          subst hk
          exact ⟨0, Nat.succ_pos m, hslot, fun q hq => absurd hq (Nat.not_lt_zero q)⟩
        · -- another key: the search goes on one slot further
          next hk =>
          obtain ⟨p, hp, hhit, hpath⟩ := ih.mp h
          refine ⟨p + 1, by omega, hhit, fun q hq => ?_⟩
          cases q with
          | zero => exact ⟨_, hslot, hk⟩
          | succ q => exact hpath q (by omega)
    · rintro ⟨p, hp, hhit, hpath⟩
      cases p with
      | zero =>
        rw [probe] at hhit
        rw [findFrom, hhit]
        exact if_pos rfl
      | succ p =>
        obtain ⟨e, hslot, hk⟩ := hpath 0 (Nat.succ_pos p)
        rw [probe] at hslot
        rw [findFrom, hslot]
        show (if e.1 = k then some e.2 else findFrom t k m (i + 1)) = some v
        rw [if_neg hk]
        exact ih.mpr ⟨p, by omega, hhit, fun q hq => hpath (q + 1) (by omega)⟩

/-- **A lookup** finds exactly what the table holds. -/
theorem find_eq_some_iff (h : WellPlaced hash t) : find hash t k = some v ↔ Holds t k v := by
  constructor
  · intro hfind
    obtain ⟨p, -, hhit, -⟩ := findFrom_eq_some.mp hfind
    exact ⟨_, hhit⟩
  · rintro ⟨j, hj⟩
    obtain ⟨p, hp, rfl⟩ := exists_probe (hash k) j
    refine findFrom_eq_some.mpr ⟨p, hp, hj, fun q hq => ?_⟩
    obtain ⟨e, he⟩ := Option.ne_none_iff_exists'.mp (h.path k v p hp hj q hq)
    refine ⟨e, he, fun hk => ?_⟩
    -- the key would be in two slots
    have hslot := h.unique _ _ _ _ he hj hk
    exact absurd (probe_injOn (by omega) hp hslot) (by omega)

theorem find_eq_none_iff (h : WellPlaced hash t) : find hash t k = none ↔ ∀ v, ¬ Holds t k v := by
  rw [Option.eq_none_iff_forall_ne_some]
  exact forall_congr' fun v => not_congr (find_eq_some_iff h)

/-- **An insertion** of a key the table does not hold succeeds while a slot is empty, and adds
just that entry. -/
theorem insert_spec (h : WellPlaced hash t) (hmiss : find hash t k = none) (hroom : used t < n)
    (v : ν) :
    ∃ t', insert hash t k v = some t' ∧ WellPlaced hash t' ∧ used t' = used t + 1 ∧
      ∀ k' v', Holds t' k' v' ↔ Holds t k' v' ∨ (k' = k ∧ v' = v) := by
  obtain ⟨j, hj⟩ := exists_free hroom
  obtain ⟨p₀, hp₀, rfl⟩ := exists_probe (hash k) j
  obtain ⟨t', ht'⟩ := @insertFrom_isSome κ ν n _ t k v n (hash k) p₀ hp₀ hj
  obtain ⟨p, hp, hfree, hpath, rfl⟩ := insertFrom_eq_some ht'
  refine ⟨_, ht', ⟨?_, ?_⟩, used_update hfree _, fun _ _ => holds_update hfree⟩
  · intro k' v' p' hp' hslot q hq hnone
    by_cases hsame : probe (hash k') p' = probe (hash k) p
    · -- the new entry: the walk that placed it met no empty slot
      rw [hsame, Function.update_self] at hslot
      cases hslot
      have hpp := probe_injOn hp' hp hsame
      subst hpp
      by_cases hqp : probe (hash k) q = probe (hash k) p'
      · exact absurd (probe_injOn (by omega) hp hqp) (by omega)
      · rw [Function.update_of_ne hqp] at hnone
        exact hpath q hq hnone
    · -- an old entry: no slot of its path was emptied
      rw [Function.update_of_ne hsame] at hslot
      by_cases hqp : probe (hash k') q = probe (hash k) p
      · rw [hqp, Function.update_self] at hnone
        cases hnone
      · rw [Function.update_of_ne hqp] at hnone
        exact h.path k' v' p' hp' hslot q hq hnone
  · intro i i' e e' hi hi' hkey
    have hnew (x : Fin n) (e : κ × ν) (hx : t x = some e) : e.1 ≠ k := fun hk =>
      (find_eq_none_iff h).mp hmiss e.2 ⟨x, by rw [hx, ← hk]⟩
    by_cases hip : i = probe (hash k) p
    · by_cases hip' : i' = probe (hash k) p
      · rw [hip, hip']
      · rw [hip, Function.update_self] at hi
        rw [Function.update_of_ne hip'] at hi'
        cases hi
        exact absurd hkey.symm (hnew i' e' hi')
    · by_cases hip' : i' = probe (hash k) p
      · rw [Function.update_of_ne hip] at hi
        rw [hip', Function.update_self] at hi'
        cases hi'
        exact absurd hkey (hnew i e hi)
      · rw [Function.update_of_ne hip] at hi
        rw [Function.update_of_ne hip'] at hi'
        exact h.unique i i' e e' hi hi' hkey

/-! ### A bounded cache -/

/-- A table and the number of its entries. -/
structure Cache (κ ν : Type*) (n : Nat) where
  slots : Slots κ ν n
  live : Nat

namespace Cache

/-- The cache after it is emptied. -/
def flushed : Cache κ ν n := ⟨empty, 0⟩

variable (hash : κ → Fin n) (cap : Nat)

/-- Add an entry, emptying the cache first if it is full. -/
def add (c : Cache κ ν n) (k : κ) (v : ν) : Option (Cache κ ν n) :=
  let c := if cap ≤ c.live then flushed else c
  (ProbeTable.insert hash c.slots k v).map fun t => ⟨t, c.live + 1⟩

/-- Ask for a key: an entry that is missing is added. -/
def request (c : Cache κ ν n) (r : κ × ν) : Option (Cache κ ν n) :=
  match find hash c.slots r.1 with
  | some _ => some c
  | none => c.add hash cap r.1 r.2

/-- What the cache is for: the entries added since it was last emptied. -/
def logStep (log : List (κ × ν)) (r : κ × ν) : List (κ × ν) :=
  if r.1 ∈ log.map Prod.fst then log
  else if cap ≤ log.length then [r]
  else r :: log

/-- The cache is a well placed table and holds the entries of the log. -/
structure Represents (c : Cache κ ν n) (log : List (κ × ν)) : Prop where
  placed : WellPlaced hash c.slots
  live_eq : c.live = log.length
  used_eq : used c.slots = log.length
  room : log.length ≤ cap
  holds : ∀ k v, Holds c.slots k v ↔ (k, v) ∈ log

variable {hash cap} {c : Cache κ ν n} {log : List (κ × ν)}

omit [DecidableEq κ] in
theorem represents_flushed : Represents hash cap (flushed : Cache κ ν n) [] where
  placed := wellPlaced_empty
  live_eq := rfl
  used_eq := used_empty
  room := Nat.zero_le cap
  holds := fun _ _ => iff_of_false not_holds_empty List.not_mem_nil

/-- A lookup finds the entries of the log. -/
theorem Represents.find_eq_some_iff (h : Represents hash cap c log) {k : κ} {v : ν} :
    find hash c.slots k = some v ↔ (k, v) ∈ log := by
  rw [ProbeTable.find_eq_some_iff h.placed, h.holds]

/-- **Adding** a missing entry always finds room. -/
theorem add_spec (hcap : 0 < cap) (hn : cap < n) (h : Represents hash cap c log) {k : κ} {v : ν}
    (hmiss : find hash c.slots k = none) :
    ∃ c', c.add hash cap k v = some c' ∧
      Represents hash cap c' (if cap ≤ log.length then [(k, v)] else (k, v) :: log) := by
  -- with room, flushed or not, the entry goes in
  have hadd (c₀ : Cache κ ν n) (log₀ : List (κ × ν)) (h₀ : Represents hash cap c₀ log₀)
      (hmiss₀ : find hash c₀.slots k = none) (hroom : log₀.length < cap) :
      ∃ t', ProbeTable.insert hash c₀.slots k v = some t' ∧
        Represents hash cap ⟨t', c₀.live + 1⟩ ((k, v) :: log₀) := by
    obtain ⟨t', ht', hplaced, hused, hholds⟩ :=
      insert_spec h₀.placed hmiss₀ (by rw [h₀.used_eq]; omega) v
    refine ⟨t', ht', hplaced, congrArg (· + 1) h₀.live_eq, ?_, hroom, fun k' v' => ?_⟩
    · rw [hused, h₀.used_eq]
      rfl
    · rw [hholds, h₀.holds, List.mem_cons, Prod.mk.injEq, or_comm]
  rw [add, h.live_eq]
  by_cases hfull : cap ≤ log.length
  · rw [if_pos hfull, if_pos hfull]
    have hnone : find hash (flushed : Cache κ ν n).slots k = none :=
      (find_eq_none_iff wellPlaced_empty).mpr fun _ => not_holds_empty
    obtain ⟨t', ht', hrep⟩ := hadd flushed [] represents_flushed hnone hcap
    exact ⟨_, by rw [ht', Option.map_some], hrep⟩
  · rw [if_neg hfull, if_neg hfull]
    obtain ⟨t', ht', hrep⟩ := hadd c log h hmiss (Nat.not_le.mp hfull)
    exact ⟨_, by rw [ht', Option.map_some], hrep⟩

/-- **Every run of requests** succeeds and leaves the entries of its log. -/
theorem request_run (hcap : 0 < cap) (hn : cap < n) (rs : List (κ × ν)) :
    ∃ c : Cache κ ν n, rs.foldlM (request hash cap) flushed = some c ∧
      Represents hash cap c (rs.foldl (logStep cap) []) := by
  induction rs using List.reverseRecOn with
  | nil => exact ⟨flushed, rfl, represents_flushed⟩
  | append_singleton rs r ih =>
    obtain ⟨c, hrun, hrep⟩ := ih
    rw [List.foldlM_append, hrun, List.foldl_append]
    show ∃ c', request hash cap c r >>= pure = some c' ∧
      Represents hash cap c' (logStep cap (rs.foldl (logStep cap) []) r)
    rw [bind_pure, request, logStep]
    cases hfind : find hash c.slots r.1 with
    -- a hit adds nothing
    | some v =>
      have hmem : r.1 ∈ (rs.foldl (logStep cap) []).map Prod.fst :=
        List.mem_map.mpr ⟨(r.1, v), hrep.find_eq_some_iff.mp hfind, rfl⟩
      rw [if_pos hmem]
      exact ⟨c, rfl, hrep⟩
    -- a miss adds the entry, after a flush if the log is full
    | none =>
      have hnot : r.1 ∉ (rs.foldl (logStep cap) []).map Prod.fst := by
        rintro hmem
        obtain ⟨⟨k, v⟩, hin, rfl⟩ := List.mem_map.mp hmem
        rw [hrep.find_eq_some_iff.mpr hin] at hfind
        cases hfind
      rw [if_neg hnot]
      exact add_spec hcap hn hrep hfind

end Cache

end ProbeTable

end Oryx
