/-
Oryx/CacheStore.lean

The cache store of `oryxcache.c`.

A store is its two directories, `blobs` and `index`, each a table from file
names to file contents.  File operations succeed, and `write_atomic` replaces
a whole file: it writes a temporary file and renames it over the old one, so
no other name changes and no partial content is ever under the final name.

Every lookup is checked on the way: the key and the address read from the
index are 64 hex digits, and a blob is handed out only if it hashes to the
name it was read from (`oryxCacheGetBlob_ok`).
-/
import Oryx.TranslationUnit
import Mathlib.Logic.Function.Basic

namespace Oryx

/-- A directory: file names to file contents. -/
abbrev Dir := List Byte → Option (List Byte)

/-- The files of a cache directory, by their final names. -/
structure CacheStore where
  blobs : Dir
  index : Dir

/-- The two directories just created by `oryx_cache_open`. -/
def CacheStore.empty : CacheStore where
  blobs := fun _ => none
  index := fun _ => none

/-! ### Files -/

/-- `write_atomic`. -/
def writeAtomic (d : Dir) (name data : List Byte) : Dir := Function.update d name (some data)

/-- A directory in which one name has new bytes, and the others what they had. -/
theorem eq_writeAtomic {d d' : Dir} {name data : List Byte} (hnew : d' name = some data)
    (hold : ∀ m ≠ name, d' m = d m) : d' = writeAtomic d name data :=
  Function.eq_update_iff.mpr ⟨hnew, hold⟩

/-- `read_file`. -/
def readFile (d : Dir) (name : List Byte) : Except OryxErr (List Byte) :=
  match d name with
  | none => .error .notfound
  | some buf => .ok buf

/-! ### Blobs -/

/-- `oryx_cache_put_blob`: the address, and the store after the call. -/
def oryxCachePutBlob (c : CacheStore) (data logicalKeyHex : List Byte) :
    Except OryxErr (List Byte × CacheStore) :=
  if isHex64 logicalKeyHex = false then .error .inval
  else
    let addr := oryxContentAddress data
    -- only write the blob if absent
    let blobs := match c.blobs addr with
      | some _ => c.blobs
      | none => writeAtomic c.blobs addr data
    .ok (addr, { blobs := blobs, index := writeAtomic c.index logicalKeyHex addr })

/-- `oryx_cache_get_blob`. -/
def oryxCacheGetBlob (c : CacheStore) (addrHex : List Byte) : Except OryxErr (List Byte) :=
  if isHex64 addrHex = false then .error .inval
  else
    match readFile c.blobs addrHex with
    | .error e => .error e
    | .ok buf => if oryxContentAddress buf ≠ addrHex then .error .integrity else .ok buf

/-- `oryx_cache_resolve`. -/
def oryxCacheResolve (c : CacheStore) (logicalKeyHex : List Byte) : Except OryxErr (List Byte) :=
  if isHex64 logicalKeyHex = false then .error .inval
  else
    match readFile c.index logicalKeyHex with
    | .error e => .error e
    | .ok buf =>
        if buf.length < 64 then .error .format
        else if isHex64 (buf.take 64) = false then .error .format
        else .ok (buf.take 64)

/-- `oryx_cache_put_tu`. -/
def oryxCachePutTu (c : CacheStore) (tu : OryxTu) : Except OryxErr (List Byte × CacheStore) :=
  oryxCachePutBlob c (oryxTuSerialize tu) (oryxTuLogicalKey tu)

/-- `oryx_cache_get_tu`. -/
def oryxCacheGetTu (c : CacheStore) (logicalKeyHex : List Byte) : Except OryxErr OryxTu :=
  match oryxCacheResolve c logicalKeyHex with
  | .error e => .error e
  | .ok addr =>
      match oryxCacheGetBlob c addr with
      | .error e => .error e
      | .ok bytes => oryxTuParse bytes

/-! ### What a successful call says -/

/-- A blob that is handed out is the file of that name and hashes to it. -/
theorem oryxCacheGetBlob_ok {c : CacheStore} {addr buf : List Byte} :
    oryxCacheGetBlob c addr = .ok buf ↔
      isHex64 addr = true ∧ c.blobs addr = some buf ∧ oryxContentAddress buf = addr := by
  unfold oryxCacheGetBlob readFile
  cases hhex : isHex64 addr with
  | false => simp
  | true =>
    cases hb : c.blobs addr with
    | none => simp
    | some b =>
      by_cases haddr : oryxContentAddress b = addr
      · simp only [Bool.true_eq_false, if_false, ne_eq, haddr, not_true_eq_false,
          Except.ok.injEq, Option.some.injEq, true_and]
        exact ⟨fun h => ⟨h, h ▸ haddr⟩, And.left⟩
      · simp only [Bool.true_eq_false, if_false, ne_eq, haddr, not_false_eq_true, if_true,
          reduceCtorEq, Option.some.injEq, true_and, false_iff, not_and]
        rintro rfl
        exact haddr

/-- An address that resolves starts the index file of its key. -/
theorem oryxCacheResolve_ok {c : CacheStore} {key addr : List Byte} :
    oryxCacheResolve c key = .ok addr ↔
      isHex64 key = true ∧ ∃ buf, c.index key = some buf ∧ 64 ≤ buf.length ∧
        addr = buf.take 64 ∧ isHex64 addr = true := by
  unfold oryxCacheResolve readFile
  cases hhex : isHex64 key with
  | false => simp
  | true =>
    cases hb : c.index key with
    | none => simp
    | some b =>
      simp only [Bool.true_eq_false, if_false, Option.some.injEq, exists_eq_left', true_and]
      split
      · simp only [reduceCtorEq, false_iff]
        omega
      · cases haddr : isHex64 (b.take 64) with
        | false =>
          simp only [if_true, reduceCtorEq, false_iff]
          rintro ⟨-, rfl, htrue⟩
          rw [haddr] at htrue
          exact Bool.noConfusion htrue
        | true =>
          simp only [Bool.true_eq_false, if_false, Except.ok.injEq]
          constructor
          · rintro rfl
            exact ⟨by omega, rfl, haddr⟩
          · rintro ⟨-, rfl, -⟩
            rfl

theorem oryxCacheGetTu_of_blob {c : CacheStore} {key addr buf : List Byte}
    (hresolve : oryxCacheResolve c key = .ok addr) (hblob : oryxCacheGetBlob c addr = .ok buf) :
    oryxCacheGetTu c key = oryxTuParse buf := by
  simp only [oryxCacheGetTu, hresolve, hblob]

/-- An index file may lead to a blob that is not there. -/
theorem oryxCacheGetTu_of_missing {c : CacheStore} {key addr : List Byte}
    (hresolve : oryxCacheResolve c key = .ok addr) (hhex : isHex64 addr = true)
    (hnone : c.blobs addr = none) : oryxCacheGetTu c key = .error .notfound := by
  simp only [oryxCacheGetTu, hresolve, oryxCacheGetBlob, hhex, readFile, hnone,
    Bool.true_eq_false, if_false]

/-- Putting a unit always succeeds: its key is well formed. -/
theorem oryxCachePutTu_eq (c : CacheStore) (tu : OryxTu) :
    oryxCachePutTu c tu = .ok (oryxContentAddress (oryxTuSerialize tu),
      { blobs := match c.blobs (oryxContentAddress (oryxTuSerialize tu)) with
          | some _ => c.blobs
          | none => writeAtomic c.blobs (oryxContentAddress (oryxTuSerialize tu))
              (oryxTuSerialize tu)
        index := writeAtomic c.index (oryxTuLogicalKey tu)
          (oryxContentAddress (oryxTuSerialize tu)) }) := by
  rw [oryxCachePutTu, oryxCachePutBlob, isHex64_logicalKey]
  rfl

end Oryx
