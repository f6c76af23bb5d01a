/-
Oryx/StoreRuns.lean

Units, maps and plain blobs in one store.

All three go through `oryx_cache_put_blob` and share its two directories, so a
unit and a map may be put under one key and may even share a blob.  An
adversary rewrites, truncates or deletes blob files between the calls.

Without hash collisions a key leads to the bytes last put under it or to an
error (`fetched_run`), whatever was put before and whatever is tampered with.
`storeRun_serves` says what that makes of the lookups: `oryx_cache_get_tu`
serves the unit last put under the key and never a map, `oryx_mmap_cache_get`
serves the map last put under the identity and never a unit, and
`oryx_cache_get_blob` serves the bytes themselves at the address that
`oryx_cache_resolve` gives.
-/
import Mathlib.Data.List.Nodup
import Oryx.CacheBinding
import Oryx.MapCodec

namespace Oryx

/-! ### Runs -/

/-- A put of a unit, of a map, or of bytes under a key. -/
inductive StorePut
  | putTu (tu : OryxTu)
  | putMap (m : OryxMmap)
  | putBlob (data logicalKeyHex : List Byte)

namespace StorePut

def call (c : CacheStore) : StorePut → Except OryxErr (List Byte × CacheStore)
  | .putTu tu => oryxCachePutTu c tu
  | .putMap m => oryxMmapCachePut c m
  | .putBlob data key => oryxCachePutBlob c data key

def data : StorePut → List Byte
  | .putTu tu => oryxTuSerialize tu
  | .putMap m => oryxMmapSerialize m
  | .putBlob data _ => data

def key : StorePut → List Byte
  | .putTu tu => oryxTuLogicalKey tu
  | .putMap m => oryxMmapLogicalKey m.moduleHash m.analyzerId m.analyzerVersion m.isaId
  | .putBlob _ key => key

theorem call_eq (p : StorePut) (c : CacheStore) : p.call c = oryxCachePutBlob c p.data p.key := by
  cases p with
  | putTu | putMap | putBlob => rfl

/-- The keys of units and maps are hashes. -/
theorem isHex64_putTu (tu : OryxTu) : isHex64 (StorePut.putTu tu).key = true :=
  isHex64_logicalKey tu

theorem isHex64_putMap (m : OryxMmap) : isHex64 (StorePut.putMap m).key = true :=
  isHex64_key ⟨m.moduleHash, m.analyzerId, m.analyzerVersion, m.isaId⟩

end StorePut

/-- A put, or a blob file set to any content (`none` deletes it). -/
inductive StoreWrite
  | put (p : StorePut)
  | tamper (addr : List Byte) (content : Option (List Byte))

def storeWrite (c : CacheStore) : StoreWrite → CacheStore
  | .put p => afterPut c (p.call c)
  | .tamper addr content => { c with blobs := Function.update c.blobs addr content }

/-- The store after a run from an empty store. -/
def storeRun (es : List StoreWrite) : CacheStore := es.foldl storeWrite CacheStore.empty

/-- What a write makes of the puts last made under each key. -/
def storedStep (m : List Byte → Option StorePut) : StoreWrite → List Byte → Option StorePut
  | .put p => if isHex64 p.key = true then Function.update m p.key (some p) else m
  | .tamper _ _ => m

/-- The put last made under a key. -/
def lastStored (es : List StoreWrite) : List Byte → Option StorePut :=
  es.foldl storedStep fun _ => none

/-- The byte strings of a run: those put, and those the adversary wrote. -/
def involvedBytes (es : List StoreWrite) : Set (List Byte) :=
  {b | (∃ p, StoreWrite.put p ∈ es ∧ b = p.data) ∨ ∃ a, StoreWrite.tamper a (some b) ∈ es}

/-- The blob file `addr` was written by a put of the run, which found no such file, and the
adversary has not touched it since. -/
def KeptBlob (es : List StoreWrite) (addr : List Byte) : Prop :=
  ∃ pre p post, es = pre ++ StoreWrite.put p :: post ∧ isHex64 p.key = true ∧
    oryxContentAddress p.data = addr ∧ (storeRun pre).blobs addr = none ∧
    ∀ content, StoreWrite.tamper addr content ∉ post

/-! ### One write -/

theorem storeWrite_put (c : CacheStore) (p : StorePut) :
    storeWrite c (.put p) = if isHex64 p.key = true then putStore c p.data p.key else c := by
  rw [storeWrite, p.call_eq, afterPut_oryxCachePutBlob]

theorem storeRun_concat (es : List StoreWrite) (e : StoreWrite) :
    storeRun (es ++ [e]) = storeWrite (storeRun es) e := by
  rw [storeRun, List.foldl_append]
  rfl

theorem lastStored_concat (es : List StoreWrite) (e : StoreWrite) :
    lastStored (es ++ [e]) = storedStep (lastStored es) e := by
  rw [lastStored, List.foldl_append]
  rfl

theorem involvedBytes_concat (es : List StoreWrite) (e : StoreWrite) :
    involvedBytes es ⊆ involvedBytes (es ++ [e]) := by
  rintro b (⟨p, hp, rfl⟩ | ⟨a, ha⟩)
  · exact Or.inl ⟨p, List.mem_append_left _ hp, rfl⟩
  · exact Or.inr ⟨a, List.mem_append_left _ ha⟩

/-- A blob is one of before or was just written. -/
theorem blobs_storeWrite {c : CacheStore} {e : StoreWrite} {a b : List Byte}
    (h : (storeWrite c e).blobs a = some b) :
    c.blobs a = some b ∨ (∃ p, e = .put p ∧ b = p.data) ∨ ∃ a', e = .tamper a' (some b) := by
  cases e with
  | put p =>
    rw [storeWrite_put] at h
    split at h
    · rw [putStore_blobs] at h
      by_cases ha : a = oryxContentAddress p.data
      · rw [ha, Function.update_self, Option.some.injEq, bytesAfterPut] at h
        cases hold : c.blobs (oryxContentAddress p.data) with
        | none =>
          rw [hold, Option.getD_none] at h
          exact Or.inr (Or.inl ⟨p, rfl, h.symm⟩)
        | some old =>
          rw [hold, Option.getD_some] at h
          rw [ha, hold, h]
          exact Or.inl rfl
      · rw [Function.update_of_ne ha] at h
        exact Or.inl h
    · exact Or.inl h
  | tamper a' content =>
    change Function.update c.blobs a' content a = some b at h
    by_cases ha : a = a'
    · rw [ha, Function.update_self] at h
      exact Or.inr (Or.inr ⟨a', by rw [h]⟩)
    · rw [Function.update_of_ne ha] at h
      exact Or.inl h

/-- A blob that is there stays as it is, unless it is tampered with. -/
theorem blobs_storeWrite_kept {c : CacheStore} {e : StoreWrite} {a b : List Byte}
    (h : c.blobs a = some b) (hkept : ∀ content, e ≠ .tamper a content) :
    (storeWrite c e).blobs a = some b := by
  cases e with
  | put p =>
    rw [storeWrite_put]
    split
    · rw [putStore_blobs]
      by_cases ha : a = oryxContentAddress p.data
      · rw [ha, Function.update_self, bytesAfterPut, ← ha, h]
        rfl
      · rw [Function.update_of_ne ha]
        exact h
    · exact h
  | tamper a' content =>
    have hne : a ≠ a' := by
      rintro rfl
      exact hkept content rfl
    exact (Function.update_of_ne hne _ _).trans h

/-! ### Runs of writes -/

/-- Every blob is a byte string of the run. -/
theorem blobs_storeRun {es : List StoreWrite} {a b : List Byte}
    (h : (storeRun es).blobs a = some b) : b ∈ involvedBytes es := by
  induction es using List.reverseRecOn with
  | nil => cases h
  | append_singleton es e ih =>
    rw [storeRun_concat] at h
    rcases blobs_storeWrite h with hold | ⟨p, rfl, rfl⟩ | ⟨a', rfl⟩
    · exact involvedBytes_concat es e (ih hold)
    · exact Or.inl ⟨p, List.mem_append_right _ List.mem_cons_self, rfl⟩
    · exact Or.inr ⟨a', List.mem_append_right _ List.mem_cons_self⟩

/-- The index names the address of what was last put under the key. -/
theorem index_storeRun (es : List StoreWrite) (key : List Byte) :
    (storeRun es).index key = (lastStored es key).map fun p => oryxContentAddress p.data := by
  induction es using List.reverseRecOn with
  | nil => rfl
  | append_singleton es e ih =>
    rw [storeRun_concat, lastStored_concat]
    cases e with
    | tamper => exact ih
    | put p =>
      rw [storeWrite_put, storedStep]
      split
      · rw [putStore_index]
        by_cases hk : key = p.key
        · rw [hk, Function.update_self, Function.update_self, Option.map_some]
        · rw [Function.update_of_ne hk, Function.update_of_ne hk]
          exact ih
      · exact ih

/-- What was last put under a key is a put of the run, under that key. -/
theorem lastStored_mem {es : List StoreWrite} {key : List Byte} {p : StorePut}
    (h : lastStored es key = some p) :
    StoreWrite.put p ∈ es ∧ p.key = key ∧ isHex64 key = true := by
  induction es using List.reverseRecOn with
  | nil => cases h
  | append_singleton es e ih =>
    rw [lastStored_concat] at h
    have hold : lastStored es key = some p →
        StoreWrite.put p ∈ es ++ [e] ∧ p.key = key ∧ isHex64 key = true :=
      fun h => (ih h).imp_left (List.mem_append_left _)
    cases e with
    | tamper => exact hold h
    | put q =>
      rw [storedStep] at h
      split at h
      · next hhex =>
        by_cases hk : key = q.key
        · rw [hk, Function.update_self] at h
          cases h
          exact ⟨List.mem_append_right _ List.mem_cons_self, hk.symm, hk ▸ hhex⟩
        · rw [Function.update_of_ne hk] at h
          exact hold h
      · exact hold h

/-- A blob that nobody tampers with stays as it is. -/
theorem blobs_foldl_kept {es : List StoreWrite} {c : CacheStore} {a b : List Byte}
    (h : c.blobs a = some b) (hkept : ∀ content, StoreWrite.tamper a content ∉ es) :
    (es.foldl storeWrite c).blobs a = some b := by
  induction es generalizing c with
  | nil => exact h
  | cons e es ih =>
    refine ih ?_ fun content hmem => hkept content (List.mem_cons_of_mem _ hmem)
    refine blobs_storeWrite_kept h fun content he => hkept content ?_
    rw [he]
    exact List.mem_cons_self

/-- Puts under other keys leave a key alone. -/
theorem lastStored_append {es es' : List StoreWrite} {key : List Byte}
    (hother : ∀ p, StoreWrite.put p ∈ es' → p.key ≠ key) :
    lastStored (es ++ es') key = lastStored es key := by
  induction es' using List.reverseRecOn with
  | nil => rw [List.append_nil]
  | append_singleton es' e ih =>
    rw [← List.append_assoc, lastStored_concat]
    have hrest := ih fun p hp => hother p (List.mem_append_left _ hp)
    cases e with
    | tamper => exact hrest
    | put p =>
      have hne := hother p (List.mem_append_right _ List.mem_cons_self)
      rw [storedStep]
      split
      · rw [Function.update_of_ne hne.symm]
        exact hrest
      · exact hrest

/-- A kept blob is the data of its put. -/
theorem blobs_kept {es : List StoreWrite} {addr : List Byte} (h : KeptBlob es addr) :
    ∃ p, StoreWrite.put p ∈ es ∧ oryxContentAddress p.data = addr ∧
      (storeRun es).blobs addr = some p.data := by
  obtain ⟨pre, p, post, rfl, hhex, haddr, hnone, hpost⟩ := h
  refine ⟨p, List.mem_append_right _ List.mem_cons_self, haddr, ?_⟩
  have hnew : (storeWrite (storeRun pre) (.put p)).blobs addr = some p.data := by
    rw [storeWrite_put, if_pos hhex, putStore_blobs, haddr, Function.update_self, bytesAfterPut,
      haddr, hnone]
    rfl
  rw [storeRun, List.foldl_append, List.foldl_cons, ← storeRun]
  exact blobs_foldl_kept hnew hpost

/-- A blob file is one that was put or tampered with. -/
theorem named_of_blobs {es : List StoreWrite} {a b : List Byte}
    (h : (storeRun es).blobs a = some b) :
    (∃ p, .put p ∈ es ∧ isHex64 p.key = true ∧ oryxContentAddress p.data = a) ∨
      ∃ content, .tamper a content ∈ es := by
  induction es using List.reverseRecOn with
  | nil => cases h
  | append_singleton es e ih =>
    have hold : (storeRun es).blobs a = some b →
        (∃ p, .put p ∈ es ++ [e] ∧ isHex64 p.key = true ∧ oryxContentAddress p.data = a) ∨
          ∃ content, .tamper a content ∈ es ++ [e] := by
      intro hb
      rcases ih hb with ⟨p, hp, hpa⟩ | ⟨content, hc⟩
      · exact Or.inl ⟨p, List.mem_append_left _ hp, hpa⟩
      · exact Or.inr ⟨content, List.mem_append_left _ hc⟩
    rw [storeRun_concat] at h
    cases e with
    | put p =>
      rw [storeWrite_put] at h
      split at h
      · next hhex =>
        by_cases ha : a = oryxContentAddress p.data
        · exact Or.inl ⟨p, List.mem_append_right _ List.mem_cons_self, hhex, ha.symm⟩
        · rw [putStore_blobs, Function.update_of_ne ha] at h
          exact hold h
      · exact hold h
    | tamper a' content =>
      by_cases ha : a = a'
      · rw [ha]
        exact Or.inr ⟨content, List.mem_append_right _ List.mem_cons_self⟩
      · exact hold ((Function.update_of_ne ha _ _).symm.trans h)

/-- A blob that nobody tampers with is kept from its first put on. -/
theorem keptBlob_of_put {es : List StoreWrite} {addr : List Byte}
    (huntouched : ∀ content, StoreWrite.tamper addr content ∉ es) {p : StorePut}
    (hput : .put p ∈ es) (hhex : isHex64 p.key = true)
    (haddr : oryxContentAddress p.data = addr) : KeptBlob es addr := by
  induction es using List.reverseRecOn generalizing p with
  | nil => cases hput
  | append_singleton es e ih =>
    have hbefore : ∀ {q : StorePut}, .put q ∈ es → isHex64 q.key = true →
        oryxContentAddress q.data = addr → KeptBlob (es ++ [e]) addr := by
      intro q hq hqhex hqaddr
      obtain ⟨pre, p', post, rfl, hrest⟩ :=
        ih (fun content hc => huntouched content (List.mem_append_left _ hc)) hq hqhex hqaddr
      obtain ⟨hhex', haddr', hnew, hpost⟩ := hrest
      refine ⟨pre, p', post ++ [e], by simp, hhex', haddr', hnew, fun content hc => ?_⟩
      rcases List.mem_append.mp hc with hc | hc
      · exact hpost content hc
      · exact huntouched content (List.mem_append_right _ hc)
    rcases List.mem_append.mp hput with hput | hput
    · exact hbefore hput hhex haddr
    · cases List.mem_singleton.mp hput
      cases hblob : (storeRun es).blobs addr with
      | none => exact ⟨es, p, [], rfl, hhex, haddr, hblob, fun _ => List.not_mem_nil⟩
      | some b =>
        -- an earlier put of these bytes, or of others with their address
        rcases named_of_blobs hblob with ⟨q, hq, hqhex, hqaddr⟩ | ⟨content, hc⟩
        · exact hbefore hq hqhex hqaddr
        · exact absurd (List.mem_append_left _ hc) (huntouched content)

/-- **Puts under their own keys** are all there. -/
theorem kept_of_puts {ps : List StorePut} (hhex : ∀ p ∈ ps, isHex64 p.key = true)
    (hkeys : (ps.map StorePut.key).Nodup) {p : StorePut} (hp : p ∈ ps) :
    lastStored (ps.map .put) p.key = some p ∧
      KeptBlob (ps.map .put) (oryxContentAddress p.data) := by
  have hp' := hhex p hp
  have huntouched : ∀ content,
      StoreWrite.tamper (oryxContentAddress p.data) content ∉ ps.map .put := by
    intro content hc
    obtain ⟨q, -, hq⟩ := List.mem_map.mp hc
    cases hq
  refine ⟨?_, keptBlob_of_put huntouched (List.mem_map_of_mem hp) hp' rfl⟩
  obtain ⟨pre, post, rfl⟩ := List.append_of_mem hp
  rw [List.map_append, List.map_cons, List.nodup_append, List.nodup_cons] at hkeys
  rw [List.map_append, List.map_cons, List.append_cons, lastStored_append, lastStored_concat,
    storedStep, if_pos hp', Function.update_self]
  intro q hq hkey
  obtain ⟨q, hmem, hqq⟩ := List.mem_map.mp hq
  cases hqq
  exact hkeys.2.1.1 (List.mem_map.mpr ⟨q, hmem, hkey⟩)

/-- Puts of bytes with different digests. -/
theorem injOn_puts {ps : List StorePut} (h : (ps.map fun p => sha256 p.data).Nodup) :
    Set.InjOn sha256 (involvedBytes (ps.map .put)) := by
  have hmem : ∀ b ∈ involvedBytes (ps.map .put), ∃ p ∈ ps, b = p.data := by
    rintro b (⟨p, hp, rfl⟩ | ⟨a, ha⟩)
    · obtain ⟨q, hq, hqp⟩ := List.mem_map.mp hp
      cases hqp
      exact ⟨p, hq, rfl⟩
    · obtain ⟨q, -, hqa⟩ := List.mem_map.mp ha
      cases hqa
  intro x hx y hy hxy
  obtain ⟨p, hp, rfl⟩ := hmem x hx
  obtain ⟨q, hq, rfl⟩ := hmem y hy
  rw [List.inj_on_of_nodup_map h hp hq hxy]

/-! ### Fetching -/

section Fetch

variable {es : List StoreWrite} {key : List Byte} {p : StorePut}

/-- **What is fetched** under a key is what was last put there. -/
theorem fetched_run (hsha : Set.InjOn sha256 (involvedBytes es)) {addr b : List Byte}
    (hresolve : oryxCacheResolve (storeRun es) key = .ok addr)
    (hget : oryxCacheGetBlob (storeRun es) addr = .ok b) :
    ∃ p, lastStored es key = some p ∧ b = p.data := by
  obtain ⟨-, file, hfile, -, rfl, -⟩ := oryxCacheResolve_ok.mp hresolve
  obtain ⟨-, hblob, haddr⟩ := oryxCacheGetBlob_ok.mp hget
  rw [index_storeRun, Option.map_eq_some_iff] at hfile
  obtain ⟨p, hp, rfl⟩ := hfile
  refine ⟨p, hp, hsha (blobs_storeRun hblob) (Or.inl ⟨p, (lastStored_mem hp).1, rfl⟩) ?_⟩
  rw [(take_of_isHex64 (isHex64_contentAddress p.data)).1] at haddr
  exact sha256Hex_injective haddr

/-- A key leads to the address of what was last put under it. -/
theorem resolved_last (hlast : lastStored es key = some p) :
    oryxCacheResolve (storeRun es) key = .ok (oryxContentAddress p.data) := by
  have hhex := isHex64_contentAddress p.data
  obtain ⟨htake, hlen⟩ := take_of_isHex64 hhex
  refine oryxCacheResolve_ok.mpr ⟨(lastStored_mem hlast).2.2, oryxContentAddress p.data, ?_, hlen,
    htake.symm, hhex⟩
  rw [index_storeRun, hlast, Option.map_some]

/-- A kept blob is fetched. -/
theorem fetched_kept (hsha : Set.InjOn sha256 (involvedBytes es))
    (hlast : lastStored es key = some p) (hkept : KeptBlob es (oryxContentAddress p.data)) :
    oryxCacheResolve (storeRun es) key = .ok (oryxContentAddress p.data) ∧
      oryxCacheGetBlob (storeRun es) (oryxContentAddress p.data) = .ok p.data := by
  obtain ⟨q, hq, haddr, hblob⟩ := blobs_kept hkept
  have hsame : q.data = p.data :=
    hsha (Or.inl ⟨q, hq, rfl⟩) (Or.inl ⟨p, (lastStored_mem hlast).1, rfl⟩)
      (sha256Hex_injective haddr)
  rw [hsame] at hblob
  exact ⟨resolved_last hlast,
    oryxCacheGetBlob_ok.mpr ⟨isHex64_contentAddress p.data, hblob, rfl⟩⟩

/-- Nothing is found under a key nothing was put under. -/
theorem fetched_missing (hlast : lastStored es key = none) (hkey : isHex64 key = true) :
    oryxCacheResolve (storeRun es) key = .error .notfound := by
  have hindex : (storeRun es).index key = none := by
    rw [index_storeRun, hlast, Option.map_none]
  simp only [oryxCacheResolve, hkey, Bool.true_eq_false, if_false, readFile, hindex]

theorem oryxCacheGetTu_ok {c : CacheStore} {tu : OryxTu} :
    oryxCacheGetTu c key = .ok tu ↔ ∃ addr b, oryxCacheResolve c key = .ok addr ∧
      oryxCacheGetBlob c addr = .ok b ∧ oryxTuParse b = .ok tu := by
  unfold oryxCacheGetTu
  cases oryxCacheResolve c key with
  | error e => simp
  | ok addr =>
    cases hb : oryxCacheGetBlob c addr with
    | error e => simp [hb]
    | ok b => simp [hb]

/-- The unit served under a key is the one that was last put there, -/
theorem served_tu (hsha : Set.InjOn sha256 (involvedBytes es)) {tu : OryxTu}
    (h : oryxCacheGetTu (storeRun es) key = .ok tu) :
    ∃ p, lastStored es key = some p ∧ oryxTuParse p.data = .ok tu := by
  obtain ⟨addr, b, hresolve, hget, hparse⟩ := oryxCacheGetTu_ok.mp h
  obtain ⟨p, hlast, rfl⟩ := fetched_run hsha hresolve hget
  exact ⟨p, hlast, hparse⟩

/-- and it is served while its blob is kept. -/
theorem serves_kept_tu (hsha : Set.InjOn sha256 (involvedBytes es)) {tu : OryxTu}
    (hlast : lastStored es key = some (.putTu tu))
    (hkept : KeptBlob es (oryxContentAddress (oryxTuSerialize tu))) :
    oryxCacheGetTu (storeRun es) key = .ok tu := by
  obtain ⟨hresolve, hget⟩ := fetched_kept hsha hlast hkept
  exact oryxCacheGetTu_ok.mpr ⟨_, _, hresolve, hget, oryxTuParse_serialize tu⟩

/-- The map served is the one that was last put under the identity asked for, -/
theorem served_map (hsha : Set.InjOn sha256 (involvedBytes es)) {want : MapIdentity}
    {m : OryxMmap} (h : oryxMmapCacheGet (storeRun es) want = .ok m) :
    oryxMmapVerifyIdentity m want = .ok () ∧
      ∃ p, lastStored es want.key = some p ∧ oryxMmapParse p.data = .ok m := by
  obtain ⟨addr, b, hresolve, hget, hparse, hident⟩ := oryxMmapCacheGet_ok.mp h
  obtain ⟨p, hlast, rfl⟩ := fetched_run hsha hresolve hget
  exact ⟨hident, p, hlast, hparse⟩

/-- and it is served while its blob is kept. -/
theorem serves_kept_map (hsha : Set.InjOn sha256 (involvedBytes es)) {want : MapIdentity}
    {m : OryxMmap} (hlast : lastStored es want.key = some (.putMap m))
    (hkept : KeptBlob es (oryxContentAddress (oryxMmapSerialize m)))
    (hasc : (m.entries.val.map OryxMmapEntry.pcKey).Pairwise (· < ·))
    (hident : oryxMmapVerifyIdentity m want = .ok ()) :
    oryxMmapCacheGet (storeRun es) want = .ok m := by
  obtain ⟨hresolve, hget⟩ := fetched_kept hsha hlast hkept
  exact oryxMmapCacheGet_ok.mpr ⟨_, _, hresolve, hget, oryxMmapParse_serialize hasc, hident⟩

end Fetch

/-! ### Units and maps -/

/-- A unit's bytes are no map's. -/
theorem oryxMmapParse_tu (tu : OryxTu) (m : OryxMmap) :
    oryxMmapParse (oryxTuSerialize tu) ≠ .ok m := by
  intro h
  have hmagic := (oryxMmapParse_ok.mp h).magic
  rw [oryxTuSerialize, tuHeader] at hmagic
  simp only [getU32_putU32] at hmagic
  exact absurd hmagic (by decide)

/-- A map that parses is the one serialized. -/
theorem eq_of_oryxMmapParse {m m' : OryxMmap} (h : oryxMmapParse (oryxMmapSerialize m) = .ok m') :
    m' = m := by
  have hasc := (oryxMmapParse_ok.mp h).ascending
  have hentries := (oryxMmapParse_ok.mp h).entries
  rw [hentries, getRecords_serialize] at hasc
  rw [oryxMmapParse_serialize hasc] at h
  exact (Except.ok.inj h).symm

/-- **The store serves what was last put** under a key, or refuses: units, maps and plain bytes
each to their own lookup, also where they share keys and blobs; what nobody has tampered with is
served; and nothing is found under other keys. -/
theorem storeRun_serves (es : List StoreWrite) (hsha : Set.InjOn sha256 (involvedBytes es)) :
    (∀ key tu, oryxCacheGetTu (storeRun es) key = .ok tu → ∃ p, lastStored es key = some p ∧
      (p = .putTu tu ∨ ∃ data, p = .putBlob data key ∧ oryxTuParse data = .ok tu)) ∧
    (∀ want m, oryxMmapCacheGet (storeRun es) want = .ok m →
      oryxMmapVerifyIdentity m want = .ok () ∧ ∃ p, lastStored es want.key = some p ∧
        (p = .putMap m ∨ ∃ data, p = .putBlob data want.key ∧ oryxMmapParse data = .ok m)) ∧
    (∀ key tu, lastStored es key = some (.putTu tu) →
      KeptBlob es (oryxContentAddress (oryxTuSerialize tu)) →
      oryxCacheGetTu (storeRun es) key = .ok tu) ∧
    (∀ want m, lastStored es want.key = some (.putMap m) →
      KeptBlob es (oryxContentAddress (oryxMmapSerialize m)) →
      (m.entries.val.map OryxMmapEntry.pcKey).Pairwise (· < ·) →
      oryxMmapVerifyIdentity m want = .ok () → oryxMmapCacheGet (storeRun es) want = .ok m) ∧
    (∀ key, isHex64 key = true → lastStored es key = none →
      oryxCacheGetTu (storeRun es) key = .error .notfound) ∧
    (∀ want : MapIdentity, lastStored es want.key = none →
      oryxMmapCacheGet (storeRun es) want = .error .notfound) ∧
    (∀ key addr b, oryxCacheResolve (storeRun es) key = .ok addr →
      oryxCacheGetBlob (storeRun es) addr = .ok b → ∃ p, lastStored es key = some p ∧ b = p.data) ∧
    (∀ key p, lastStored es key = some p → KeptBlob es (oryxContentAddress p.data) →
      oryxCacheResolve (storeRun es) key = .ok (oryxContentAddress p.data) ∧
        oryxCacheGetBlob (storeRun es) (oryxContentAddress p.data) = .ok p.data) ∧
    ∀ key, isHex64 key = true → lastStored es key = none →
      oryxCacheResolve (storeRun es) key = .error .notfound := by
  refine ⟨fun key tu h => ?_, fun want m h => ?_, fun key tu hlast hkept => ?_,
    fun want m hlast hkept hasc hident => ?_, fun key hkey hlast => ?_, fun want hlast => ?_,
    fun key addr b hresolve hget => ?_, fun key p hlast hkept => ?_, fun key hkey hlast => ?_⟩
  · obtain ⟨p, hlast, hparse⟩ := served_tu hsha h
    refine ⟨p, hlast, ?_⟩
    cases p with
    | putTu tu' =>
      rw [StorePut.data, oryxTuParse_serialize] at hparse
      exact Or.inl (congrArg _ (Except.ok.inj hparse))
    | putMap m => exact absurd hparse (oryxTuParse_mmap m tu)
    | putBlob data key' =>
      obtain ⟨-, rfl, -⟩ := lastStored_mem hlast
      exact Or.inr ⟨data, rfl, hparse⟩
  · obtain ⟨hident, p, hlast, hparse⟩ := served_map hsha h
    refine ⟨hident, p, hlast, ?_⟩
    cases p with
    | putTu tu => exact absurd hparse (oryxMmapParse_tu tu m)
    | putMap m' => exact Or.inl (congrArg _ (eq_of_oryxMmapParse hparse).symm)
    | putBlob data key' =>
      obtain ⟨-, hkey, -⟩ := lastStored_mem hlast
      exact Or.inr ⟨data, congrArg _ hkey, hparse⟩
  · exact serves_kept_tu hsha hlast hkept
  · exact serves_kept_map hsha hlast hkept hasc hident
  · rw [oryxCacheGetTu, fetched_missing hlast hkey]
  · rw [oryxMmapCacheGet, fetched_missing hlast (isHex64_key want)]
    rfl
  · exact fetched_run hsha hresolve hget
  · exact fetched_kept hsha hlast hkept
  · exact fetched_missing hlast hkey

/-! ### A run -/

/-- A unit, a map and a plain blob. -/
def mixedPuts : List StorePut :=
  [.putTu emptyTu, .putMap oneEntryMap, .putBlob [42] (oryxContentAddress [])]

/-- All three are served. -/
theorem storeRun_serves_mixed :
    oryxCacheGetTu (storeRun (mixedPuts.map .put)) (oryxTuLogicalKey emptyTu) = .ok emptyTu ∧
      oryxMmapCacheGet (storeRun (mixedPuts.map .put)) ⟨zeroDigest, 1, 1, 1⟩ = .ok oneEntryMap ∧
      oryxCacheGetBlob (storeRun (mixedPuts.map .put)) (oryxContentAddress [42]) = .ok [42] := by
  have hhex : ∀ p ∈ mixedPuts, isHex64 p.key = true := by
    simp only [mixedPuts, List.forall_mem_cons]
    exact ⟨StorePut.isHex64_putTu _, StorePut.isHex64_putMap _, isHex64_contentAddress _,
      List.forall_mem_nil _⟩
  have hkept : ∀ p ∈ mixedPuts, lastStored (mixedPuts.map .put) p.key = some p ∧
      KeptBlob (mixedPuts.map .put) (oryxContentAddress p.data) := fun p hp =>
    kept_of_puts hhex (by decide +kernel) hp
  obtain ⟨-, -, hunit, hmap, -, -, -, hblob, -⟩ :=
    storeRun_serves (mixedPuts.map .put) (injOn_puts (by decide +kernel))
  simp only [mixedPuts, List.forall_mem_cons] at hkept
  obtain ⟨hunitKept, hmapKept, hblobKept, -⟩ := hkept
  exact ⟨hunit _ _ hunitKept.1 hunitKept.2, hmap _ _ hmapKept.1 hmapKept.2 (by decide) rfl,
    (hblob _ _ hblobKept.1 hblobKept.2).2⟩

end Oryx
