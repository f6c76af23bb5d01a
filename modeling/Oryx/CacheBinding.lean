/-
Oryx/CacheBinding.lean

Which unit a key is bound to.

A key reaches a unit in two steps, through the index file of the key and
through the blob of the address found there.  The content hash protects the
second step only: nothing in `oryx_cache_get_tu` compares the unit it parsed
with the key it was asked for (as `oryx_mmap_cache_get` does for maps).  So
the binding rests on what the writers of the index do.

A run mixes units, arbitrary blobs under any key, maps, and index files set to
any content.  `KeepsBinding` is the condition on one such event, in the state
it meets; the main result, `servesOwnKey_iff`, says that in a run every lookup
serves a unit of the key asked for exactly when all events meet it.
-/
import Oryx.CacheRuns
import Oryx.MemoryMap
import Oryx.TuBytes
import Oryx.Lib.Runs

namespace Oryx

/-! ### Runs -/

/-- One step of a run. -/
inductive WriterEvent where
  | putTu (tu : OryxTu)
  | putBlob (data logicalKeyHex : List Byte)
  | putMap (m : OryxMmap)
  /-- An index file set to any content, or removed. -/
  | rewriteIndex (name : List Byte) (content : Option (List Byte))

/-- The store that a put leaves. -/
def afterPut (c : CacheStore) : Except OryxErr (List Byte × CacheStore) → CacheStore
  | .error _ => c
  | .ok (_, c') => c'

def writerStep (c : CacheStore) : WriterEvent → CacheStore
  | .putTu tu => afterPut c (oryxCachePutTu c tu)
  | .putBlob data key => afterPut c (oryxCachePutBlob c data key)
  | .putMap m => afterPut c (oryxMmapCachePut c m)
  | .rewriteIndex name content => { c with index := Function.update c.index name content }

/-- Every lookup that succeeds serves a unit of the key asked for. -/
def ServesOwnKey (c : CacheStore) : Prop :=
  ∀ key tu, oryxCacheGetTu c key = .ok tu → oryxTuLogicalKey tu = key

/-! ### The condition -/

/-- The address an index file names. -/
def indexAddress : Option (List Byte) → Option (List Byte)
  | none => none
  | some file =>
      if 64 ≤ file.length ∧ isHex64 (file.take 64) = true then some (file.take 64) else none

/-- The bytes under the address of `data` once `data` is put. -/
def bytesAfterPut (c : CacheStore) (data : List Byte) : List Byte :=
  (c.blobs (oryxContentAddress data)).getD data

/-- Putting `data` under `key` binds no key to a unit of another. -/
def PutKeepsBinding (c : CacheStore) (data key : List Byte) : Prop :=
  isHex64 key = true → ∀ tu, oryxTuParse (bytesAfterPut c data) = .ok tu →
    oryxTuLogicalKey tu = key ∧
      -- the blob is new, and an index file names it already
      (c.blobs (oryxContentAddress data) = none → ∀ other, isHex64 other = true →
        indexAddress (c.index other) = some (oryxContentAddress data) →
        oryxTuLogicalKey tu = other)

/-- The condition on an event in the state it meets. -/
def KeepsBinding (c : CacheStore) : WriterEvent → Prop
  | .putTu tu => PutKeepsBinding c (oryxTuSerialize tu) (oryxTuLogicalKey tu)
  | .putBlob data key => PutKeepsBinding c data key
  | .putMap m => PutKeepsBinding c (oryxMmapSerialize m)
      (oryxMmapLogicalKey m.moduleHash m.analyzerId m.analyzerVersion m.isaId)
  | .rewriteIndex name content =>
      isHex64 name = true → ∀ addr blob tu, indexAddress content = some addr →
        c.blobs addr = some blob → oryxTuParse blob = .ok tu → oryxTuLogicalKey tu = name

/-! ### Lookups -/

/-- Every blob hashes to its name, which is what the puts alone guarantee. -/
def BlobsAddressed (c : CacheStore) : Prop :=
  ∀ addr blob, c.blobs addr = some blob → oryxContentAddress blob = addr

theorem indexAddress_eq_some {content : Option (List Byte)} {addr : List Byte} :
    indexAddress content = some addr ↔
      ∃ file, content = some file ∧ 64 ≤ file.length ∧ addr = file.take 64 ∧
        isHex64 addr = true := by
  cases content with
  | none => simp [indexAddress]
  | some file =>
    simp only [indexAddress, Option.some.injEq, exists_eq_left']
    constructor
    · intro h
      split at h
      · next hfile =>
        cases h
        exact ⟨hfile.1, rfl, hfile.2⟩
      · cases h
    · rintro ⟨hlen, rfl, hhex⟩
      rw [if_pos ⟨hlen, hhex⟩]

/-- What a lookup serves, when the blobs are addressed. -/
theorem oryxCacheGetTu_eq_ok {c : CacheStore} (hc : BlobsAddressed c) {key : List Byte}
    {tu : OryxTu} :
    oryxCacheGetTu c key = .ok tu ↔ isHex64 key = true ∧ ∃ addr blob,
      indexAddress (c.index key) = some addr ∧ c.blobs addr = some blob ∧
        oryxTuParse blob = .ok tu := by
  have hget : oryxCacheGetTu c key = .ok tu ↔ ∃ addr blob, oryxCacheResolve c key = .ok addr ∧
      oryxCacheGetBlob c addr = .ok blob ∧ oryxTuParse blob = .ok tu := by
    unfold oryxCacheGetTu
    cases oryxCacheResolve c key with
    | error e => simp
    | ok addr =>
      cases hb : oryxCacheGetBlob c addr with
      | error e => simp [hb]
      | ok blob => simp [hb]
  rw [hget]
  constructor
  · rintro ⟨addr, blob, hresolve, hblob, hparse⟩
    obtain ⟨hkey, hfile⟩ := oryxCacheResolve_ok.mp hresolve
    exact ⟨hkey, addr, blob, indexAddress_eq_some.mpr hfile,
      (oryxCacheGetBlob_ok.mp hblob).2.1, hparse⟩
  · rintro ⟨hkey, addr, blob, hindex, hblob, hparse⟩
    have hfile := indexAddress_eq_some.mp hindex
    have hhex : isHex64 addr = true := by
      obtain ⟨file, -, -, -, hhex⟩ := indexAddress_eq_some.mp hindex
      exact hhex
    exact ⟨addr, blob, oryxCacheResolve_ok.mpr ⟨hkey, hfile⟩,
      oryxCacheGetBlob_ok.mpr ⟨hhex, hblob, hc addr blob hblob⟩, hparse⟩

/-- What a key is bound to: the key is well formed and its index file names a stored unit. -/
def Binds (c : CacheStore) (key : List Byte) (tu : OryxTu) : Prop :=
  isHex64 key = true ∧ ∃ addr blob, indexAddress (c.index key) = some addr ∧
    c.blobs addr = some blob ∧ oryxTuParse blob = .ok tu

theorem servesOwnKey_iff_binds {c : CacheStore} (hc : BlobsAddressed c) :
    ServesOwnKey c ↔ ∀ key tu, Binds c key tu → oryxTuLogicalKey tu = key :=
  forall₂_congr fun _ _ => imp_congr_left (oryxCacheGetTu_eq_ok hc)

/-! ### One put -/

/-- The store a put under a well-formed key leaves. -/
def putStore (c : CacheStore) (data key : List Byte) : CacheStore where
  blobs := Function.update c.blobs (oryxContentAddress data) (some (bytesAfterPut c data))
  index := Function.update c.index key (some (oryxContentAddress data))

theorem putStore_blobs (c : CacheStore) (data key : List Byte) :
    (putStore c data key).blobs =
      Function.update c.blobs (oryxContentAddress data) (some (bytesAfterPut c data)) := rfl

theorem putStore_index (c : CacheStore) (data key : List Byte) :
    (putStore c data key).index =
      Function.update c.index key (some (oryxContentAddress data)) := rfl

theorem oryxCachePutBlob_ok (c : CacheStore) {data key : List Byte} (hkey : isHex64 key = true) :
    oryxCachePutBlob c data key = .ok (oryxContentAddress data, putStore c data key) := by
  rw [oryxCachePutBlob, if_neg (by rw [hkey]; exact Bool.true_eq_false_eq_False)]
  dsimp only
  cases hb : c.blobs (oryxContentAddress data) with
  | none =>
    have hnew : bytesAfterPut c data = data := by rw [bytesAfterPut, hb]; rfl
    rw [putStore, hnew]
    rfl
  | some blob =>
    have hold : Function.update c.blobs (oryxContentAddress data) (some (bytesAfterPut c data)) =
        c.blobs := by
      rw [bytesAfterPut, hb, Option.getD_some, ← hb, Function.update_eq_self]
    rw [putStore, hold]
    rfl

theorem afterPut_oryxCachePutBlob (c : CacheStore) (data key : List Byte) :
    afterPut c (oryxCachePutBlob c data key) =
      if isHex64 key = true then putStore c data key else c := by
  by_cases hkey : isHex64 key = true
  · rw [oryxCachePutBlob_ok c hkey, if_pos hkey]
    rfl
  · rw [oryxCachePutBlob, if_pos (Bool.not_eq_true _ ▸ hkey), if_neg hkey]
    rfl

theorem BlobsAddressed.putStore {c : CacheStore} (hc : BlobsAddressed c) (data key : List Byte) :
    BlobsAddressed (putStore c data key) := by
  intro addr blob hblob
  by_cases haddr : addr = oryxContentAddress data
  · subst haddr
    simp only [Oryx.putStore, Function.update_self, Option.some.injEq] at hblob
    rw [← hblob, bytesAfterPut]
    cases hb : c.blobs (oryxContentAddress data) with
    | none => rfl
    | some old => exact hc _ old hb
  · simp only [Oryx.putStore, Function.update_of_ne haddr] at hblob
    exact hc addr blob hblob

theorem indexAddress_contentAddress (data : List Byte) :
    indexAddress (some (oryxContentAddress data)) = some (oryxContentAddress data) := by
  have hhex := isHex64_contentAddress data
  obtain ⟨htake, hlen⟩ := take_of_isHex64 hhex
  exact indexAddress_eq_some.mpr ⟨_, rfl, hlen, htake.symm, hhex⟩

/-- **A put** under a well-formed key keeps every binding right exactly when its own bytes do. -/
theorem binds_putStore_iff {c : CacheStore} (hsound : ∀ key tu, Binds c key tu →
    oryxTuLogicalKey tu = key) {data key : List Byte} (hkey : isHex64 key = true) :
    (∀ k tu, Binds (putStore c data key) k tu → oryxTuLogicalKey tu = k) ↔
      PutKeepsBinding c data key := by
  constructor
  · intro h _ tu hparse
    -- the key put, and every key whose index file names the address, is bound to `tu`
    refine ⟨h key tu ⟨hkey, oryxContentAddress data, bytesAfterPut c data, ?_, ?_, hparse⟩, ?_⟩
    · rw [putStore_index, Function.update_self]
      exact indexAddress_contentAddress data
    · rw [putStore_blobs, Function.update_self]
    · intro _ other hother hnames
      refine h other tu ⟨hother, oryxContentAddress data, bytesAfterPut c data, ?_, ?_, hparse⟩
      · by_cases hk : other = key
        · rw [putStore_index, hk, Function.update_self]
          exact indexAddress_contentAddress data
        · rw [putStore_index, Function.update_of_ne hk]
          exact hnames
      · rw [putStore_blobs, Function.update_self]
  · rintro h k tu ⟨hk, addr, blob, hindex, hblob, hparse⟩
    by_cases haddr : addr = oryxContentAddress data
    · -- the address put: `blob` is what the put left there
      subst haddr
      simp only [putStore, Function.update_self, Option.some.injEq] at hblob
      subst hblob
      obtain ⟨hown, hnew⟩ := h hkey tu hparse
      by_cases hsame : k = key
      · rw [hsame, hown]
      · simp only [putStore, Function.update_of_ne hsame] at hindex
        cases hb : c.blobs (oryxContentAddress data) with
        | none => exact hnew hb k hk hindex
        | some old =>
          rw [bytesAfterPut, hb] at hparse
          exact hsound k tu ⟨hk, _, old, hindex, hb, hparse⟩
    · -- another address: nothing changed there, and `key` names only the address put
      simp only [putStore, Function.update_of_ne haddr] at hblob
      by_cases hsame : k = key
      · simp only [putStore, hsame, Function.update_self, indexAddress_contentAddress,
          Option.some.injEq] at hindex
        exact absurd hindex.symm haddr
      · simp only [putStore, Function.update_of_ne hsame] at hindex
        exact hsound k tu ⟨hk, addr, blob, hindex, hblob, hparse⟩

theorem servesOwnKey_put {c : CacheStore} (hc : BlobsAddressed c) (hsound : ServesOwnKey c)
    (data key : List Byte) :
    ServesOwnKey (afterPut c (oryxCachePutBlob c data key)) ↔ PutKeepsBinding c data key := by
  rw [afterPut_oryxCachePutBlob]
  by_cases hkey : isHex64 key = true
  · rw [if_pos hkey, servesOwnKey_iff_binds (hc.putStore data key)]
    exact binds_putStore_iff ((servesOwnKey_iff_binds hc).mp hsound) hkey
  · rw [if_neg hkey]
    exact iff_of_true hsound fun h => absurd h hkey

/-! ### One event -/

theorem BlobsAddressed.step {c : CacheStore} (hc : BlobsAddressed c) (e : WriterEvent) :
    BlobsAddressed (writerStep c e) := by
  have hput (data key : List Byte) :
      BlobsAddressed (afterPut c (oryxCachePutBlob c data key)) := by
    rw [afterPut_oryxCachePutBlob]
    split
    · exact hc.putStore data key
    · exact hc
  cases e with
  | putTu tu => exact hput _ _
  | putBlob data key => exact hput data key
  | putMap m => exact hput _ _
  | rewriteIndex name content => exact hc

theorem servesOwnKey_rewriteIndex {c : CacheStore} (hc : BlobsAddressed c)
    (hsound : ServesOwnKey c) (name : List Byte) (content : Option (List Byte)) :
    ServesOwnKey (writerStep c (.rewriteIndex name content)) ↔
      KeepsBinding c (.rewriteIndex name content) := by
  have hc' : BlobsAddressed (writerStep c (.rewriteIndex name content)) := hc
  rw [servesOwnKey_iff_binds hc']
  rw [servesOwnKey_iff_binds hc] at hsound
  constructor
  · intro h hname addr blob tu hindex hblob hparse
    refine h name tu ⟨hname, addr, blob, ?_, hblob, hparse⟩
    show indexAddress (Function.update c.index name content name) = some addr
    rw [Function.update_self]
    exact hindex
  · rintro h key tu ⟨hkey, addr, blob, hindex, hblob, hparse⟩
    by_cases hsame : key = name
    · subst hsame
      simp only [writerStep, Function.update_self] at hindex
      exact h hkey addr blob tu hindex hblob hparse
    · simp only [writerStep, Function.update_of_ne hsame] at hindex
      exact hsound key tu ⟨hkey, addr, blob, hindex, hblob, hparse⟩

/-- One event keeps the lookups right exactly when it meets the condition. -/
theorem servesOwnKey_step {c : CacheStore} (hc : BlobsAddressed c) (hsound : ServesOwnKey c)
    (e : WriterEvent) : ServesOwnKey (writerStep c e) ↔ KeepsBinding c e := by
  cases e with
  | putTu tu => exact servesOwnKey_put hc hsound _ _
  | putBlob data key => exact servesOwnKey_put hc hsound data key
  | putMap m => exact servesOwnKey_put hc hsound _ _
  | rewriteIndex name content => exact servesOwnKey_rewriteIndex hc hsound name content

/-! ### Runs -/

theorem blobsAddressed_empty : BlobsAddressed CacheStore.empty := fun _ _ h => nomatch h

theorem servesOwnKey_empty : ServesOwnKey CacheStore.empty := by
  rw [servesOwnKey_iff_binds blobsAddressed_empty]
  rintro key tu ⟨-, addr, blob, -, hblob, -⟩
  cases hblob

/-- **A lookup never serves another identity** throughout a run exactly when every event of the
run meets the condition. -/
theorem servesOwnKey_iff (es : List WriterEvent) :
    Always writerStep ServesOwnKey CacheStore.empty es ↔
      AllSteps writerStep KeepsBinding CacheStore.empty es :=
  @always_iff_allSteps _ _ writerStep ServesOwnKey BlobsAddressed KeepsBinding
    (fun _ e hc => BlobsAddressed.step hc e) (fun _ e hc hsound => servesOwnKey_step hc hsound e)
    CacheStore.empty blobsAddressed_empty servesOwnKey_empty es

/-! ### Units and maps -/

/-- A map's bytes are no unit's: the magic numbers differ. -/
theorem oryxTuParse_mmap (m : OryxMmap) (tu : OryxTu) :
    oryxTuParse (oryxMmapSerialize m) ≠ .ok tu := by
  intro h
  have hmagic := (parsedFrom_of_parse h).form.magic
  rw [oryxMmapSerialize, getU32_putU32] at hmagic
  exact absurd hmagic (by decide)

/-! ### A unit under two keys -/

/-- The keys of 64 zeros and of 64 ones. -/
def keyZeros : List Byte := List.replicate 64 48
def keyOnes : List Byte := List.replicate 64 49

/-- One unit's bytes put under both keys. -/
def foreignPuts : List WriterEvent :=
  [.putBlob (oryxTuSerialize headerOnlyTu) keyZeros,
    .putBlob (oryxTuSerialize headerOnlyTu) keyOnes]

/-- Both keys are served the unit, whose key is at most one of them. -/
theorem not_servesOwnKey_foreignPuts :
    ¬ ServesOwnKey (foreignPuts.foldl writerStep CacheStore.empty) := by
  have hzeros : isHex64 keyZeros = true := by decide
  have hones : isHex64 keyOnes = true := by decide
  have hne : keyZeros ≠ keyOnes := by decide
  have hfirst : writerStep CacheStore.empty (.putBlob (oryxTuSerialize headerOnlyTu) keyZeros) =
      putStore CacheStore.empty (oryxTuSerialize headerOnlyTu) keyZeros := by
    rw [writerStep, afterPut_oryxCachePutBlob, if_pos hzeros]
  have hrun : foreignPuts.foldl writerStep CacheStore.empty =
      putStore (putStore CacheStore.empty (oryxTuSerialize headerOnlyTu) keyZeros)
        (oryxTuSerialize headerOnlyTu) keyOnes := by
    rw [foreignPuts, List.foldl_cons, hfirst, List.foldl_cons, List.foldl_nil, writerStep,
      afterPut_oryxCachePutBlob, if_pos hones]
  have hbytes : bytesAfterPut (putStore CacheStore.empty (oryxTuSerialize headerOnlyTu) keyZeros)
      (oryxTuSerialize headerOnlyTu) = oryxTuSerialize headerOnlyTu := by
    rw [bytesAfterPut, putStore_blobs, Function.update_self]
    rfl
  have haddressed := (blobsAddressed_empty.putStore (oryxTuSerialize headerOnlyTu) keyZeros).putStore
    (oryxTuSerialize headerOnlyTu) keyOnes
  rw [hrun, servesOwnKey_iff_binds haddressed]
  intro h
  have hk0 : oryxTuLogicalKey headerOnlyTu = keyZeros := by
    refine h keyZeros headerOnlyTu ⟨hzeros, oryxContentAddress (oryxTuSerialize headerOnlyTu),
      oryxTuSerialize headerOnlyTu, ?_, ?_, oryxTuParse_serialize headerOnlyTu⟩
    · rw [putStore_index, Function.update_of_ne hne, putStore_index, Function.update_self]
      exact indexAddress_contentAddress _
    · rw [putStore_blobs, Function.update_self, hbytes]
  have hk1 : oryxTuLogicalKey headerOnlyTu = keyOnes := by
    refine h keyOnes headerOnlyTu ⟨hones, oryxContentAddress (oryxTuSerialize headerOnlyTu),
      oryxTuSerialize headerOnlyTu, ?_, ?_, oryxTuParse_serialize headerOnlyTu⟩
    · rw [putStore_index, Function.update_self]
      exact indexAddress_contentAddress _
    · rw [putStore_blobs, Function.update_self, hbytes]
  exact hne (hk0.symm.trans hk1)

end Oryx
