/-
Oryx/CacheRuns.lean

Runs of the cache store: units are put in any order, and between two calls an
adversary rewrites, truncates or deletes blob files.

The store is a content-addressed store in the sense of `Lib/ContentStore`,
with units as values (`tuScheme`); `cacheRun_refines` says that a run of the
C code keeps the two directories equal to the library's two tables.  The main
result, `oryxCacheGetTu_run`, is then the library's: a lookup gives the unit
last put under the key or an error.
-/
import Oryx.CacheStore
import Oryx.Lib.ContentStore

namespace Oryx

open ContentStore

/-! ### Runs -/

/-- One step of a run: `put tu` is a call of `oryx_cache_put_tu`, `tamper addr
content` lets the adversary set the blob file `addr` (`none` deletes it). -/
abbrev CacheEvent := Event (List Byte) (List Byte) OryxTu

/-- A call that fails leaves the store as it was. -/
def storeAfter (c : CacheStore) : Except OryxErr (List Byte × CacheStore) → CacheStore
  | .error _ => c
  | .ok r => r.2

/-- One event of the cache. -/
def cacheStep (c : CacheStore) : CacheEvent → CacheStore
  | .put tu => storeAfter c (oryxCachePutTu c tu)
  | .tamper addr content => { c with blobs := Function.update c.blobs addr content }

/-- The store after a run from an empty store. -/
def cacheRun (es : List CacheEvent) : CacheStore := es.foldl cacheStep CacheStore.empty

/-- The unit last put under a key. -/
def lastPut : List CacheEvent → List Byte → Option OryxTu :=
  List.foldl
    (fun m e =>
      match e with
      | .put tu => Function.update m (oryxTuLogicalKey tu) (some tu)
      | .tamper _ _ => m)
    fun _ => none

/-- The byte strings of a run: what was serialized, and what the adversary wrote. -/
def runBytes (es : List CacheEvent) : Set (List Byte) :=
  {b | (∃ tu, Event.put tu ∈ es ∧ b = oryxTuSerialize tu) ∨ ∃ a, Event.tamper a (some b) ∈ es}

/-- The blob file `addr` was written by a put of the run (which found no such
file), and the adversary has not touched it since. -/
def BlobUntouched (es : List CacheEvent) (addr : List Byte) : Prop :=
  ∃ pre tu post, es = pre ++ Event.put tu :: post ∧
    oryxContentAddress (oryxTuSerialize tu) = addr ∧
    (cacheRun pre).blobs addr = none ∧ ∀ content, Event.tamper addr content ∉ post

/-! ### The store as a content-addressed store -/

/-- Units under their logical keys, named by the hash of their bytes. -/
def tuScheme : Scheme (List Byte) (List Byte) (List Byte) OryxTu where
  keyOf := oryxTuLogicalKey
  encode := oryxTuSerialize
  decode := fun b => (oryxTuParse b).toOption
  addrOf := oryxContentAddress
  decode_encode := fun tu => by rw [oryxTuParse_serialize]; rfl

theorem tuScheme_keyOf (tu : OryxTu) : tuScheme.keyOf tu = oryxTuLogicalKey tu := by
  simp only [tuScheme]

theorem tuScheme_encode (tu : OryxTu) : tuScheme.encode tu = oryxTuSerialize tu := by
  simp only [tuScheme]

theorem tuScheme_decode (b : List Byte) : tuScheme.decode b = (oryxTuParse b).toOption := by
  simp only [tuScheme]

theorem tuScheme_addrOf (b : List Byte) : tuScheme.addrOf b = oryxContentAddress b := by
  simp only [tuScheme]


/-- The directories agree with the tables of the library's store. -/
structure Refines (c : CacheStore) (s : Store (List Byte) (List Byte) (List Byte)) : Prop where
  blobs : c.blobs = s.blobs
  index : c.index = s.index

theorem cacheStep_put (c : CacheStore) (tu : OryxTu) :
    cacheStep c (.put tu) =
      { blobs := match c.blobs (oryxContentAddress (oryxTuSerialize tu)) with
          | some _ => c.blobs
          | none => writeAtomic c.blobs (oryxContentAddress (oryxTuSerialize tu))
              (oryxTuSerialize tu)
        index := writeAtomic c.index (oryxTuLogicalKey tu)
          (oryxContentAddress (oryxTuSerialize tu)) } :=
  congrArg (storeAfter c) (oryxCachePutTu_eq c tu)

theorem store_put_eq (s : Store (List Byte) (List Byte) (List Byte)) (tu : OryxTu) :
    s.put tuScheme tu =
      { blobs := match s.blobs (oryxContentAddress (oryxTuSerialize tu)) with
          | some _ => s.blobs
          | none => Function.update s.blobs (oryxContentAddress (oryxTuSerialize tu))
              (some (oryxTuSerialize tu))
        index := Function.update s.index (oryxTuLogicalKey tu)
          (some (oryxContentAddress (oryxTuSerialize tu))) } := by
  rw [Store.put, tuScheme_encode, tuScheme_addrOf, tuScheme_keyOf]
  cases s.blobs (oryxContentAddress (oryxTuSerialize tu)) with
  | none => rfl
  | some b => rfl

theorem cacheStep_refines {c : CacheStore} {s : Store (List Byte) (List Byte) (List Byte)}
    (h : Refines c s) (e : CacheEvent) : Refines (cacheStep c e) (Store.step tuScheme s e) := by
  obtain ⟨hblobs, hindex⟩ := h
  cases e with
  | put tu =>
    rw [cacheStep_put, Store.step, store_put_eq]
    refine ⟨?_, ?_⟩
    · rw [hblobs]
      rfl
    · rw [hindex]
      rfl
  | tamper addr content =>
    refine ⟨?_, hindex⟩
    simp only [cacheStep, Store.step, hblobs]

/-- A run of the code is a run of the library's store. -/
theorem cacheRun_refines (es : List CacheEvent) :
    Refines (cacheRun es) (Store.run tuScheme es) := by
  induction es using List.reverseRecOn with
  | nil => exact ⟨rfl, rfl⟩
  | append_singleton es e ih =>
    have hrun : cacheRun (es ++ [e]) = cacheStep (cacheRun es) e := by simp [cacheRun]
    rw [hrun, run_append]
    exact cacheStep_refines ih e

theorem lastPut_eq_spec (es : List CacheEvent) : lastPut es = Spec.run tuScheme es := by
  unfold lastPut Spec.run
  congr 1
  funext m e
  cases e <;> rfl

theorem untouched_of_blobUntouched {es : List CacheEvent} {addr : List Byte}
    (h : BlobUntouched es addr) : Untouched tuScheme es addr := by
  obtain ⟨pre, tu, post, hes, haddr, hfree, hpost⟩ := h
  exact ⟨pre, tu, post, hes, haddr, (cacheRun_refines pre).blobs ▸ hfree, hpost⟩

/-- Without hash collisions, names tell the bytes of the run apart. -/
theorem addrOf_injOn {es : List CacheEvent} (h : Set.InjOn sha256 (runBytes es)) :
    Set.InjOn tuScheme.addrOf (Involved tuScheme es) :=
  fun _ hx _ hy e => h hx hy (sha256Hex_injective e)

/-- Names in the index are well formed. -/
theorem index_isHex64 {es : List CacheEvent} {key addr : List Byte}
    (h : (cacheRun es).index key = some addr) : isHex64 addr = true := by
  rw [(cacheRun_refines es).index, index_run, Option.map_eq_some_iff] at h
  obtain ⟨tu, -, rfl⟩ := h
  exact isHex64_contentAddress _

/-- What the lookup of the code makes of each answer of the library's. -/
def AnswersAs (r : Except OryxErr OryxTu) : Answer OryxTu → Prop
  | .missing => r = .error .notfound
  | .refused => ∃ e, r = .error e
  | .found tu => r = .ok tu

theorem answersAs_ok {tu : OryxTu} {a : Answer OryxTu} (h : AnswersAs (.ok tu) a) :
    a = .found tu := by
  cases a with
  | missing => cases h
  | refused =>
    obtain ⟨e, he⟩ := h
    cases he
  | found w =>
    cases h
    rfl

theorem take_of_isHex64 {s : List Byte} (h : isHex64 s = true) : s.take 64 = s ∧ 64 ≤ s.length := by
  simp only [isHex64, Bool.and_eq_true, beq_iff_eq] at h
  exact ⟨List.take_of_length_le h.1.le, h.1.ge⟩

/-- The lookup of the code is the library's lookup. -/
theorem oryxCacheGetTu_refines (es : List CacheEvent) {key : List Byte}
    (hkey : isHex64 key = true) :
    AnswersAs (oryxCacheGetTu (cacheRun es) key) ((Store.run tuScheme es).lookup tuScheme key) := by
  have href := cacheRun_refines es
  unfold Store.lookup oryxCacheGetTu
  rw [← href.index, ← href.blobs]
  cases hidx : (cacheRun es).index key with
  | none =>
    simp only [oryxCacheResolve, hkey, Bool.true_eq_false, if_false, readFile, hidx, AnswersAs]
  | some addr =>
    have hhex := index_isHex64 hidx
    obtain ⟨htake, hlen⟩ := take_of_isHex64 hhex
    have hres : oryxCacheResolve (cacheRun es) key = .ok addr :=
      oryxCacheResolve_ok.mpr ⟨hkey, addr, hidx, hlen, htake.symm, hhex⟩
    rw [hres]
    cases hblob : (cacheRun es).blobs addr with
    | none =>
      simp only [oryxCacheGetBlob, hhex, Bool.true_eq_false, if_false, readFile, hblob, AnswersAs]
      exact ⟨_, rfl⟩
    | some b =>
      -- a blob under a foreign name is refused by both
      by_cases haddr : oryxContentAddress b = addr
      · have hget : oryxCacheGetBlob (cacheRun es) addr = .ok b :=
          oryxCacheGetBlob_ok.mpr ⟨hhex, hblob, haddr⟩
        simp only [hblob, hget, tuScheme_addrOf, tuScheme_decode, haddr, if_true]
        cases oryxTuParse b with
        | error e => exact ⟨e, rfl⟩
        | ok tu => rfl
      · simp only [oryxCacheGetBlob, hhex, Bool.true_eq_false, if_false, readFile, hblob, ne_eq,
          haddr, not_false_eq_true, if_true, tuScheme_addrOf, if_false]
        exact ⟨_, rfl⟩

/-! ### The main result -/

/-- **The store is a faithful, tamper-evident map.**  After any run, a lookup
that succeeds gives the unit last put under the key; a key under which nothing
was put is not found; and an untouched blob is served. -/
theorem oryxCacheGetTu_run (es : List CacheEvent) (hsha : Set.InjOn sha256 (runBytes es))
    (key : List Byte) :
    (∀ tu, oryxCacheGetTu (cacheRun es) key = .ok tu → lastPut es key = some tu) ∧
    (lastPut es key = none → oryxCacheGetTu (cacheRun es) key =
      .error (if isHex64 key = true then .notfound else .inval)) ∧
    (∀ tu, lastPut es key = some tu →
      BlobUntouched es (oryxContentAddress (oryxTuSerialize tu)) →
        oryxCacheGetTu (cacheRun es) key = .ok tu) := by
  have hinj := addrOf_injOn hsha
  rw [lastPut_eq_spec]
  cases hkey : isHex64 key with
  | false =>
    -- a malformed key is refused, and no unit has one
    have hget : oryxCacheGetTu (cacheRun es) key = .error .inval := by
      simp only [oryxCacheGetTu, oryxCacheResolve, hkey, if_true]
    refine ⟨fun tu h => ?_, fun _ => by simpa using hget, fun tu h _ => ?_⟩
    · rw [hget] at h
      cases h
    · have hown : oryxTuLogicalKey tu = key := (spec_run_put tuScheme h).2
      rw [← hown, isHex64_logicalKey] at hkey
      cases hkey
  | true =>
    have href := oryxCacheGetTu_refines es hkey
    refine ⟨fun tu h => ?_, fun h => ?_, fun tu h hclean => ?_⟩
    · rw [h] at href
      exact lookup_run_sound hinj (answersAs_ok href)
    · rw [lookup_run_missing.mpr h] at href
      exact href
    · rw [lookup_run_untouched hinj h (untouched_of_blobUntouched hclean)] at href
      exact href

/-! ### A run -/

/-- A unit without code, relocations or exits. -/
def emptyTu : OryxTu where
  isaId := 0
  translatorId := 0
  translatorVersion := 0
  profileId := 0
  flags := 0
  guestEntryPc := 0
  guestLen := 0
  guestHash := zeroDigest
  code := .empty
  relocs := .empty
  exits := .empty

/-- One unit, put, emptied by the adversary, deleted, and put again. -/
def tamperedRun : List CacheEvent :=
  [.put emptyTu, .tamper (oryxContentAddress (oryxTuSerialize emptyTu)) (some []),
    .tamper (oryxContentAddress (oryxTuSerialize emptyTu)) none, .put emptyTu]

theorem tamperedRun_injOn : Set.InjOn sha256 (runBytes tamperedRun) := by
  have hne : sha256 (oryxTuSerialize emptyTu) ≠ sha256 [] := by decide +kernel
  have hmem : ∀ b ∈ runBytes tamperedRun, b = oryxTuSerialize emptyTu ∨ b = [] := by
    rintro b (⟨tu, htu, rfl⟩ | ⟨a, ha⟩)
    · simp only [tamperedRun, List.mem_cons, Event.put.injEq, reduceCtorEq, List.not_mem_nil,
        or_false, false_or, or_self] at htu
      exact Or.inl (htu ▸ rfl)
    · simp only [tamperedRun, List.mem_cons, Event.tamper.injEq, reduceCtorEq, List.not_mem_nil,
        Option.some.injEq, and_false, or_false, false_or] at ha
      exact Or.inr ha.2
  intro x hx y hy h
  rcases hmem x hx with rfl | rfl <;> rcases hmem y hy with rfl | rfl
  · rfl
  · exact absurd h hne
  · exact absurd h.symm hne
  · rfl

/-- The second put finds no blob, writes it anew, and is served. -/
theorem oryxCacheGetTu_tamperedRun :
    oryxCacheGetTu (cacheRun tamperedRun) (oryxTuLogicalKey emptyTu) = .ok emptyTu := by
  refine (oryxCacheGetTu_run tamperedRun tamperedRun_injOn _).2.2 emptyTu ?_ ?_
  · exact Function.update_self _ _ _
  · refine ⟨tamperedRun.take 3, emptyTu, [], rfl, rfl, ?_, fun _ => List.not_mem_nil⟩
    exact Function.update_self _ _ _

end Oryx
