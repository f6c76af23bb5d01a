/-
Oryx/MemoryMap.lean

Memory-class maps: `oryx_mmap` of `oryxmap.c`, its bytes, the lookup, the
decision table, and the fetch from the cache store.

A translator asks for the map of a module and then, access by access, for the
ordering it must emit.  `mmapOrdering` is that whole path, from the bytes in
the store to the answer.  `RelaxProof` spells out on the raw bytes of the store
what the answer "relax" has to rest on, and the main result,
`mmapOrdering_relax_iff`, says that the path answers "relax" for exactly
these stores: everything else is an error or an ordered access.
-/
import Oryx.CacheStore
import Oryx.Lib.BinarySearch
import Oryx.Lib.Checks

namespace Oryx

/-! ### Maps -/

def getU8 (p : List Byte) : Byte := getLe 1 p

/-- `oryx_mmap_entry`. -/
structure OryxMmapEntry where
  guestPc : U64
  mclass : Byte
  eflags : Byte
  deriving DecidableEq

/-- `oryx_mmap`. -/
structure OryxMmap where
  isaId : U32
  analyzerId : U32
  analyzerVersion : U32
  flags : U16
  moduleHash : Digest
  entries : Counted OryxMmapEntry
  deriving DecidableEq

def oryxMmapMagic : U32 := 0x31434d4f
def oryxMmapVersion : U16 := 1
def mmapHdr : Nat := 56
def mmapEnt : Nat := 12

/-! ### Serializing -/

def putMmapEntry (e : OryxMmapEntry) : List Byte :=
  putU64 e.guestPc ++ (e.mclass :: e.eflags :: putU16 0)

/-- `oryx_mmap_serialize`. -/
def oryxMmapSerialize (m : OryxMmap) : List Byte :=
  putU32 oryxMmapMagic ++ (putU16 oryxMmapVersion ++ (putU16 m.flags ++ (putU32 m.isaId ++
    (putU32 m.analyzerId ++ (putU32 m.analyzerVersion ++ (putU32 m.entries.count ++
      (m.moduleHash.val ++ m.entries.val.flatMap putMmapEntry)))))))

/-! ### Parsing -/

def getMmapEntry (p : List Byte) : OryxMmapEntry where
  guestPc := getU64 p
  mclass := getU8 (p.drop 8)
  eflags := getU8 (p.drop 9)

/-- The entry loop of `oryx_mmap_parse`; `prev` is the address of the entry before, if any. -/
def parseMmapEntries : Nat → List Byte → Option U64 → Except OryxErr (List OryxMmapEntry)
  | 0, _, _ => .ok []
  | n + 1, p, prev =>
      let e := getMmapEntry p
      -- must be strictly ascending for binary search + no ambiguity
      if prev.any (e.guestPc ≤ ·) then .error .format
      else
        match parseMmapEntries n (p.drop mmapEnt) (some e.guestPc) with
        | .error err => .error err
        | .ok es => .ok (e :: es)

theorem length_parseMmapEntries {n : Nat} {p : List Byte} {prev : Option U64}
    {es : List OryxMmapEntry} (h : parseMmapEntries n p prev = .ok es) : es.length = n := by
  induction n generalizing p prev es with
  | zero =>
    cases h
    rfl
  | succ n ih =>
    simp only [parseMmapEntries] at h
    split at h
    · cases h
    · split at h
      · cases h
      · next hrest =>
        cases h
        rw [List.length_cons, ih hrest]

/-- A header holds the module hash. -/
theorem moduleHash_fits {buf : List Byte} (h : ¬ buf.length < mmapHdr) :
    24 + 32 ≤ buf.length := by
  simp only [mmapHdr] at h
  omega

/-- `oryx_mmap_parse`, with every allocation succeeding. -/
def oryxMmapParse (buf : List Byte) : Except OryxErr OryxMmap :=
  if hlen : buf.length < mmapHdr then .error .format
  else if getU32 buf ≠ oryxMmapMagic ∨ getU16 (buf.drop 4) ≠ oryxMmapVersion then .error .format
  else
    let entryCount := getU32 (buf.drop 20)
    let need := mmapHdr + entryCount.toNat * mmapEnt
    if need ≠ buf.length then .error .format
    else
      match hes : parseMmapEntries entryCount.toNat (buf.drop mmapHdr) none with
      | .error err => .error err
      | .ok es => .ok
        { flags := getU16 (buf.drop 6)
          isaId := getU32 (buf.drop 8)
          analyzerId := getU32 (buf.drop 12)
          analyzerVersion := getU32 (buf.drop 16)
          moduleHash := digestAt buf 24 (moduleHash_fits hlen)
          entries := ⟨es, by rw [length_parseMmapEntries hes]; exact entryCount.isLt⟩ }

/-! ### Lookup and decision -/

/-- The address of an entry, as the unsigned number the search compares. -/
def OryxMmapEntry.pcKey (e : OryxMmapEntry) : Nat := e.guestPc.toNat

/-- `oryx_mmap_lookup`. -/
def oryxMmapLookup (m : OryxMmap) (guestPc : U64) : Option OryxMmapEntry :=
  binarySearch OryxMmapEntry.pcKey m.entries.val guestPc.toNat 0 m.entries.val.length

/-- `enum oryx_order`. -/
inductive OryxOrder where
  | relax
  | tso
  | atomic
  deriving DecidableEq, Repr

def omcUnknown : Byte := 0
def omcLocal : Byte := 1
def omcShared : Byte := 2
def omcAtomic : Byte := 3
def omcEfGuardRequired : Byte := 1
def omcEfEscaped : Byte := 2

/-- `oryx_mmap_decide`. -/
def oryxMmapDecide (e : Option OryxMmapEntry) (guardConfirmed : U32) : OryxOrder :=
  match e with
  | none => .tso
  | some e =>
      if e.mclass = omcAtomic then .atomic
      else if e.mclass = omcLocal then
        -- escape found -> treat as shared
        if e.eflags &&& omcEfEscaped ≠ 0 then .tso
        else if e.eflags &&& omcEfGuardRequired = 0 then .relax
        else if guardConfirmed ≠ 0 then .relax else .tso
      else .tso

/-! ### Identity and the cache -/

/-- What a map is asked for by. -/
structure MapIdentity where
  moduleHash : Digest
  analyzerId : U32
  analyzerVersion : U32
  isaId : U32

/-- `oryx_mmap_verify_identity`. -/
def oryxMmapVerifyIdentity (m : OryxMmap) (want : MapIdentity) : Except OryxErr Unit :=
  if m.moduleHash ≠ want.moduleHash then .error .integrity
  else if m.analyzerId ≠ want.analyzerId ∨ m.analyzerVersion ≠ want.analyzerVersion ∨
      m.isaId ≠ want.isaId then .error .integrity
  else .ok ()

/-- The 44 bytes `oryx_mmap_logical_key` hashes. -/
def mmapKeyPreimage (moduleHash : Digest) (analyzerId analyzerVersion isaId : U32) : List Byte :=
  moduleHash.val ++ (putU32 analyzerId ++ (putU32 analyzerVersion ++ putU32 isaId))

/-- `oryx_mmap_logical_key`. -/
def oryxMmapLogicalKey (moduleHash : Digest) (analyzerId analyzerVersion isaId : U32) :
    List Byte :=
  sha256Hex (sha256 (mmapKeyPreimage moduleHash analyzerId analyzerVersion isaId))

/-- `oryx_mmap_cache_put`. -/
def oryxMmapCachePut (c : CacheStore) (m : OryxMmap) : Except OryxErr (List Byte × CacheStore) :=
  oryxCachePutBlob c (oryxMmapSerialize m)
    (oryxMmapLogicalKey m.moduleHash m.analyzerId m.analyzerVersion m.isaId)

/-- The key a map is asked for by. -/
def MapIdentity.key (want : MapIdentity) : List Byte :=
  oryxMmapLogicalKey want.moduleHash want.analyzerId want.analyzerVersion want.isaId

/-- `oryx_mmap_cache_get`. -/
def oryxMmapCacheGet (c : CacheStore) (want : MapIdentity) : Except OryxErr OryxMmap := do
  let addr ← oryxCacheResolve c want.key
  let bytes ← oryxCacheGetBlob c addr
  let m ← oryxMmapParse bytes
  oryxMmapVerifyIdentity m want
  return m

/-- The translator's question: fetch the map, then decide one access. -/
def mmapOrdering (c : CacheStore) (want : MapIdentity) (pc : U64) (guardConfirmed : U32) :
    Except OryxErr OryxOrder := do
  let m ← oryxMmapCacheGet c want
  return oryxMmapDecide (oryxMmapLookup m pc) guardConfirmed

/-! ### What an accepted map says -/

/-- The entry loop accepts the entries of the section if they ascend, starting above `prev`. -/
theorem parseMmapEntries_ok {n : Nat} {p : List Byte} {prev : Option U64}
    {es : List OryxMmapEntry} :
    parseMmapEntries n p prev = .ok es ↔
      es = getRecords getMmapEntry mmapEnt n p ∧
        (es.map OryxMmapEntry.pcKey).Pairwise (· < ·) ∧
        ∀ q ∈ prev, ∀ e ∈ es, q.toNat < e.pcKey := by
  induction n generalizing p prev es with
  | zero =>
    simp only [parseMmapEntries, Except.ok.injEq, getRecords]
    constructor
    · rintro rfl
      simp
    · rintro ⟨rfl, -⟩
      rfl
  | succ n ih =>
    -- the parser remembers the last PC only
    have hprev : prev.any ((getMmapEntry p).guestPc ≤ ·) = false ↔
        ∀ q ∈ prev, q.toNat < (getMmapEntry p).pcKey := by
      cases prev with
      | none => simp
      | some q => simp [OryxMmapEntry.pcKey, BitVec.le_def]
    rw [parseMmapEntries, getRecords]
    constructor
    · intro h
      cases hfirst : prev.any ((getMmapEntry p).guestPc ≤ ·) with
      | true =>
        rw [if_pos hfirst] at h
        cases h
      | false =>
        rw [if_neg (by rw [hfirst]; exact Bool.false_ne_true)] at h
        cases hrest : parseMmapEntries n (p.drop mmapEnt) (some (getMmapEntry p).guestPc) with
        | error err =>
          rw [hrest] at h
          cases h
        | ok rest =>
          rw [hrest] at h
          cases h
          obtain ⟨hes, hasc, habove⟩ := ih.mp hrest
          have hfront := habove _ rfl
          have hlow := hprev.mp hfirst
          -- above the last PC, and so above all before it
          refine ⟨by rw [← hes], ?_, ?_⟩
          · rw [List.map_cons, List.pairwise_cons]
            refine ⟨fun k hk => ?_, hasc⟩
            obtain ⟨e, he, rfl⟩ := List.mem_map.mp hk
            exact hfront e he
          · intro q hq e he
            rcases List.mem_cons.mp he with rfl | he
            · exact hlow q hq
            · exact (hlow q hq).trans (hfront e he)
    · rintro ⟨rfl, hasc, habove⟩
      rw [List.map_cons, List.pairwise_cons] at hasc
      have hfirst := hprev.mpr fun q hq => habove q hq _ List.mem_cons_self
      have hrest := (@ih (p.drop mmapEnt) (some (getMmapEntry p).guestPc) _).mpr
        ⟨rfl, hasc.2, fun q hq e he => by
          cases hq
          exact hasc.1 _ (List.mem_map_of_mem he)⟩
      rw [if_neg (by rw [hfirst]; exact Bool.false_ne_true), hrest]

/-- What is accepted: the header, the exact length, and the entries of the section, which
ascend. -/
structure MmapParsedFrom (buf : List Byte) (m : OryxMmap) : Prop where
  header : mmapHdr ≤ buf.length
  magic : getU32 buf = oryxMmapMagic
  version : getU16 (buf.drop 4) = oryxMmapVersion
  length : buf.length = mmapHdr + (getU32 (buf.drop 20)).toNat * mmapEnt
  flags : m.flags = getU16 (buf.drop 6)
  isaId : m.isaId = getU32 (buf.drop 8)
  analyzerId : m.analyzerId = getU32 (buf.drop 12)
  analyzerVersion : m.analyzerVersion = getU32 (buf.drop 16)
  moduleHash : m.moduleHash.val = (buf.drop 24).take 32
  entries : m.entries.val =
    getRecords getMmapEntry mmapEnt (getU32 (buf.drop 20)).toNat (buf.drop mmapHdr)
  ascending : (m.entries.val.map OryxMmapEntry.pcKey).Pairwise (· < ·)

theorem oryxMmapParse_ok {buf : List Byte} {m : OryxMmap} :
    oryxMmapParse buf = .ok m ↔ MmapParsedFrom buf m := by
  constructor
  · intro h
    rw [oryxMmapParse] at h
    split at h
    · cases h
    split at h
    · cases h
    dsimp only at h
    split at h
    · cases h
    split at h
    · cases h
    -- all four checks are passed
    case h_2 hhead hmagic hneed es hes =>
      obtain ⟨hval, hasc, -⟩ := parseMmapEntries_ok.mp hes
      simp only [not_or, Decidable.not_not] at hmagic hneed
      cases h
      exact ⟨Nat.not_lt.mp hhead, hmagic.1, hmagic.2, hneed.symm, rfl, rfl, rfl, rfl, rfl, hval,
        hasc⟩
  · intro h
    have hes : parseMmapEntries (getU32 (buf.drop 20)).toNat (buf.drop mmapHdr) none =
        .ok m.entries.val :=
      parseMmapEntries_ok.mpr ⟨h.entries, h.ascending, fun q hq => by cases hq⟩
    rw [oryxMmapParse, dif_neg (Nat.not_lt.mpr h.header),
      if_neg (by simp only [h.magic, h.version, ne_eq, not_true_eq_false, or_self,
        not_false_eq_true])]
    dsimp only
    rw [if_neg (not_not.mpr h.length.symm)]
    split
    · next err herr =>
      rw [hes] at herr
      cases herr
    · next es hes' =>
      rw [hes] at hes'
      cases hes'
      have hhash : digestAt buf 24 (moduleHash_fits (Nat.not_lt.mpr h.header)) =
          m.moduleHash := Subtype.ext h.moduleHash.symm
      rw [hhash, ← h.flags, ← h.isaId, ← h.analyzerId, ← h.analyzerVersion]

/-! ### Parsing undoes serializing -/

@[simp] theorem length_putMmapEntry (e : OryxMmapEntry) : (putMmapEntry e).length = 12 := by
  simp [putMmapEntry]

@[simp] theorem getU8_cons (b : Byte) (rest : List Byte) : getU8 (b :: rest) = b := by
  show BitVec.ofNat (8 * 1) (ofLeBytes (b :: rest.take 0)) = b
  simp [ofLeBytes]

theorem getMmapEntry_putMmapEntry (e : OryxMmapEntry) (rest : List Byte) :
    getMmapEntry (putMmapEntry e ++ rest) = e := by
  simp [getMmapEntry, putMmapEntry, List.append_assoc, drop_putU64]

/-- What stands behind the 24 bytes of numbers. -/
theorem drop_24_serialize (m : OryxMmap) :
    (oryxMmapSerialize m).drop 24 = m.moduleHash.val ++ m.entries.val.flatMap putMmapEntry := by
  simp [oryxMmapSerialize, drop_putU16, drop_putU32]

theorem drop_mmapHdr_serialize (m : OryxMmap) :
    (oryxMmapSerialize m).drop mmapHdr = m.entries.val.flatMap putMmapEntry := by
  rw [show mmapHdr = 24 + 32 from rfl, ← List.drop_drop, drop_24_serialize]
  exact List.drop_left' m.moduleHash.property

theorem length_oryxMmapSerialize (m : OryxMmap) :
    (oryxMmapSerialize m).length = mmapHdr + m.entries.val.length * mmapEnt := by
  simp only [oryxMmapSerialize, List.length_append, length_putU16, length_putU32,
    m.moduleHash.property, length_flatMap_of_width length_putMmapEntry, mmapHdr, mmapEnt]
  omega

theorem count_serialize (m : OryxMmap) :
    getU32 ((oryxMmapSerialize m).drop 20) = m.entries.count := by
  simp [oryxMmapSerialize, drop_putU16, drop_putU32]

/-- The entries written are the entries read back. -/
theorem getRecords_serialize (m : OryxMmap) :
    getRecords getMmapEntry mmapEnt (getU32 ((oryxMmapSerialize m).drop 20)).toNat
      ((oryxMmapSerialize m).drop mmapHdr) = m.entries.val := by
  have hrec := getRecords_flatMap length_putMmapEntry getMmapEntry_putMmapEntry m.entries.val []
  rw [List.append_nil] at hrec
  rw [count_serialize, Counted.toNat_count, drop_mmapHdr_serialize]
  exact hrec

/-- **Round trip**: a serialized map whose entries ascend parses to itself. -/
theorem oryxMmapParse_serialize {m : OryxMmap}
    (hasc : (m.entries.val.map OryxMmapEntry.pcKey).Pairwise (· < ·)) :
    oryxMmapParse (oryxMmapSerialize m) = .ok m :=
  oryxMmapParse_ok.mpr
    { header := by
        rw [length_oryxMmapSerialize]
        omega
      magic := by simp [oryxMmapSerialize]
      version := by simp [oryxMmapSerialize]
      length := by rw [count_serialize, Counted.toNat_count, length_oryxMmapSerialize]
      flags := by simp [oryxMmapSerialize, drop_putU32]
      isaId := by simp [oryxMmapSerialize, drop_putU16, drop_putU32]
      analyzerId := by simp [oryxMmapSerialize, drop_putU16, drop_putU32]
      analyzerVersion := by simp [oryxMmapSerialize, drop_putU16, drop_putU32]
      moduleHash := by
        rw [drop_24_serialize]
        exact (List.take_left' m.moduleHash.property).symm
      entries := (getRecords_serialize m).symm
      ascending := hasc }

/-! ### The bytes of the entries -/

/-- The `entry_count` field. -/
def blobCount (blob : List Byte) : Nat := (getU32 (blob.drop 20)).toNat

/-- The address field of entry `i`. -/
def blobPc (blob : List Byte) (i : Nat) : U64 := getU64 (blob.drop (56 + 12 * i))

/-- The class byte of entry `i`. -/
def blobClass (blob : List Byte) (i : Nat) : Byte := getU8 (blob.drop (56 + 12 * i + 8))

/-- The flags byte of entry `i`. -/
def blobFlags (blob : List Byte) (i : Nat) : Byte := getU8 (blob.drop (56 + 12 * i + 9))

theorem MmapParsedFrom.length_entries {buf : List Byte} {m : OryxMmap}
    (h : MmapParsedFrom buf m) : m.entries.val.length = blobCount buf := by
  rw [h.entries, length_getRecords, blobCount]

/-- Entry `i` of the map is read at `56 + 12 i`. -/
theorem MmapParsedFrom.getElem?_entries {buf : List Byte} {m : OryxMmap}
    (h : MmapParsedFrom buf m) {i : Nat} (hi : i < blobCount buf) :
    m.entries.val[i]? = some ⟨blobPc buf i, blobClass buf i, blobFlags buf i⟩ := by
  rw [h.entries, ← blobCount, getElem?_getRecords _ hi, getMmapEntry, List.drop_drop,
    List.drop_drop, List.drop_drop]
  rfl

/-- An element of the map is an entry of the bytes. -/
theorem MmapParsedFrom.mem_entries {buf : List Byte} {m : OryxMmap} (h : MmapParsedFrom buf m)
    {e : OryxMmapEntry} : e ∈ m.entries.val ↔
      ∃ i < blobCount buf, e = ⟨blobPc buf i, blobClass buf i, blobFlags buf i⟩ := by
  constructor
  · intro he
    obtain ⟨i, hi⟩ := List.mem_iff_getElem?.mp he
    have hlt : i < blobCount buf := by
      rw [← h.length_entries]
      exact (List.getElem?_eq_some_iff.mp hi).1
    rw [h.getElem?_entries hlt] at hi
    exact ⟨i, hlt, (Option.some.inj hi).symm⟩
  · rintro ⟨i, hi, rfl⟩
    exact List.mem_of_getElem? (h.getElem?_entries hi)

/-- The entries ascend when the address fields do. -/
theorem ascending_iff {buf : List Byte} :
    ((getRecords getMmapEntry mmapEnt (blobCount buf) (buf.drop mmapHdr)).map
      OryxMmapEntry.pcKey).Pairwise (· < ·) ↔
      ∀ i j, i < j → j < blobCount buf → blobPc buf i < blobPc buf j := by
  have hkey (i : Nat) (hi : i < blobCount buf) :
      ((getRecords getMmapEntry mmapEnt (blobCount buf) (buf.drop mmapHdr)).map
        OryxMmapEntry.pcKey)[i]? = some (blobPc buf i).toNat := by
    rw [List.getElem?_map, getElem?_getRecords _ hi, List.drop_drop]
    rfl
  rw [List.pairwise_iff_getElem]
  simp only [List.length_map, length_getRecords]
  constructor
  · intro h i j hij hj
    have hlt := h i j (by omega) hj hij
    rwa [Option.some.inj ((List.getElem?_eq_getElem _).symm.trans (hkey i (by omega))),
      Option.some.inj ((List.getElem?_eq_getElem _).symm.trans (hkey j hj))] at hlt
  · intro h i j hi hj hij
    rw [Option.some.inj ((List.getElem?_eq_getElem _).symm.trans (hkey i hi)),
      Option.some.inj ((List.getElem?_eq_getElem _).symm.trans (hkey j hj))]
    exact h i j hij hj

/-! ### When an access is relaxed -/

theorem oryxMmapDecide_relax {e : Option OryxMmapEntry} {guardConfirmed : U32} :
    oryxMmapDecide e guardConfirmed = .relax ↔
      ∃ x, e = some x ∧ x.mclass = omcLocal ∧ x.eflags &&& omcEfEscaped = 0 ∧
        (x.eflags &&& omcEfGuardRequired = 0 ∨ guardConfirmed ≠ 0) := by
  cases e with
  | none => simp [oryxMmapDecide]
  | some e =>
    simp only [oryxMmapDecide, Option.some.injEq, exists_eq_left']
    -- the tests in the order of the table
    by_cases hatomic : e.mclass = omcAtomic
    · rw [if_pos hatomic]
      apply iff_of_false OryxOrder.noConfusion
      intro h
      rw [hatomic] at h
      exact absurd h.1 (by decide)
    rw [if_neg hatomic]
    by_cases hlocal : e.mclass = omcLocal
    swap
    · rw [if_neg hlocal]
      exact iff_of_false OryxOrder.noConfusion fun h => hlocal h.1
    rw [if_pos hlocal]
    by_cases hesc : e.eflags &&& omcEfEscaped = 0
    swap
    · rw [if_pos hesc]
      exact iff_of_false OryxOrder.noConfusion fun h => hesc h.2.1
    rw [if_neg (not_not.mpr hesc)]
    by_cases hguard : e.eflags &&& omcEfGuardRequired = 0
    · rw [if_pos hguard]
      exact iff_of_true rfl ⟨hlocal, hesc, .inl hguard⟩
    rw [if_neg hguard]
    by_cases hconf : guardConfirmed = 0
    · rw [if_neg (not_not.mpr hconf)]
      exact iff_of_false OryxOrder.noConfusion fun h => h.2.2.elim hguard (absurd hconf)
    · rw [if_pos hconf]
      exact iff_of_true rfl ⟨hlocal, hesc, .inr hconf⟩

/-- The lookup in a map whose entries ascend finds exactly the entry of the address. -/
theorem oryxMmapLookup_eq_some {m : OryxMmap}
    (hasc : (m.entries.val.map OryxMmapEntry.pcKey).Pairwise (· < ·))
    {pc : U64} {e : OryxMmapEntry} :
    oryxMmapLookup m pc = some e ↔ e ∈ m.entries.val ∧ e.guestPc = pc := by
  rw [oryxMmapLookup, binarySearch_eq_some_iff hasc, OryxMmapEntry.pcKey, ← BitVec.toNat_eq]

theorem oryxMmapVerifyIdentity_ok {m : OryxMmap} {want : MapIdentity} :
    oryxMmapVerifyIdentity m want = .ok () ↔
      m.moduleHash = want.moduleHash ∧ m.analyzerId = want.analyzerId ∧
        m.analyzerVersion = want.analyzerVersion ∧ m.isaId = want.isaId := by
  unfold oryxMmapVerifyIdentity
  by_cases hhash : m.moduleHash = want.moduleHash
  · rw [if_neg (not_not.mpr hhash)]
    split
    · next hne =>
      simp only [reduceCtorEq, false_iff, not_and]
      intro _ ha hv hisa
      rcases hne with hne | hne | hne
      · exact hne ha
      · exact hne hv
      · exact hne hisa
    · next hne =>
      simp only [not_or, Decidable.not_not] at hne
      exact iff_of_true rfl ⟨hhash, hne⟩
  · rw [if_pos hhash]
    simp [hhash]

/-- A fetch that succeeds found a blob under the address of the index, with the right hash,
form and identity. -/
theorem oryxMmapCacheGet_ok {c : CacheStore} {want : MapIdentity} {m : OryxMmap} :
    oryxMmapCacheGet c want = .ok m ↔
      ∃ addr blob, oryxCacheResolve c want.key = .ok addr ∧ oryxCacheGetBlob c addr = .ok blob ∧
        oryxMmapParse blob = .ok m ∧ oryxMmapVerifyIdentity m want = .ok () := by
  simp only [oryxMmapCacheGet, bind_eq_ok_iff, pure, Except.pure, Except.ok.injEq]
  constructor
  · rintro ⟨addr, hr, blob, hb, m', hp, u, hv, rfl⟩
    exact ⟨addr, blob, hr, hb, hp, hv⟩
  · rintro ⟨addr, blob, hr, hb, hp, hv⟩
    exact ⟨addr, hr, blob, hb, m, hp, (), hv, rfl⟩

/-- What "relax" rests on, in the bytes of the store. -/
structure RelaxProof (c : CacheStore) (want : MapIdentity) (pc : U64) (guardConfirmed : U32)
    (blob : List Byte) : Prop where
  addressed : ∃ file, c.index want.key = some file ∧ 64 ≤ file.length ∧
    isHex64 (file.take 64) = true ∧ c.blobs (file.take 64) = some blob ∧
    oryxContentAddress blob = file.take 64
  magic : getU32 blob = oryxMmapMagic
  version : getU16 (blob.drop 4) = oryxMmapVersion
  length : blob.length = 56 + 12 * blobCount blob
  moduleHash : (blob.drop 24).take 32 = want.moduleHash.val
  analyzerId : getU32 (blob.drop 12) = want.analyzerId
  analyzerVersion : getU32 (blob.drop 16) = want.analyzerVersion
  isaId : getU32 (blob.drop 8) = want.isaId
  ascending : ∀ i j, i < j → j < blobCount blob → blobPc blob i < blobPc blob j
  entry : ∃ i < blobCount blob, blobPc blob i = pc ∧ blobClass blob i = omcLocal ∧
    blobFlags blob i &&& omcEfEscaped = 0 ∧
    (blobFlags blob i &&& omcEfGuardRequired = 0 ∨ guardConfirmed ≠ 0)

theorem isHex64_key (want : MapIdentity) : isHex64 want.key = true := isHex64_sha256Hex _

/-- **A map relaxes only what it proves**: the answer is "relax" for exactly the stores whose
bytes prove it; for every other content of the store it is an error, TSO or ATOMIC. -/
theorem mmapOrdering_relax_iff (c : CacheStore) (want : MapIdentity) (pc : U64)
    (guardConfirmed : U32) :
    mmapOrdering c want pc guardConfirmed = .ok .relax ↔
      ∃ blob, RelaxProof c want pc guardConfirmed blob := by
  have hpath : mmapOrdering c want pc guardConfirmed = .ok .relax ↔
      ∃ m, oryxMmapCacheGet c want = .ok m ∧
        oryxMmapDecide (oryxMmapLookup m pc) guardConfirmed = .relax := by
    simp only [mmapOrdering, bind_eq_ok_iff, pure, Except.pure, Except.ok.injEq]
  rw [hpath]
  constructor
  · rintro ⟨m, hget, hdecide⟩
    obtain ⟨addr, blob, hresolve, hblob, hparse, hident⟩ := oryxMmapCacheGet_ok.mp hget
    obtain ⟨-, file, hfile, hlen, rfl, hhex⟩ := oryxCacheResolve_ok.mp hresolve
    obtain ⟨-, hstored, haddr⟩ := oryxCacheGetBlob_ok.mp hblob
    obtain ⟨hhash, haid, hver, hisa⟩ := oryxMmapVerifyIdentity_ok.mp hident
    have hp := oryxMmapParse_ok.mp hparse
    obtain ⟨e, hfound, hlocal, hesc, hguard⟩ := oryxMmapDecide_relax.mp hdecide
    obtain ⟨hmem, hpc⟩ := (oryxMmapLookup_eq_some hp.ascending).mp hfound
    obtain ⟨i, hi, rfl⟩ := hp.mem_entries.mp hmem
    have hlength := hp.length
    have hasc := hp.ascending
    rw [hp.entries] at hasc
    exact ⟨blob,
      { addressed := ⟨file, hfile, hlen, hhex, hstored, haddr⟩
        magic := hp.magic
        version := hp.version
        length := by rw [hlength, mmapHdr, mmapEnt, blobCount, Nat.mul_comm]
        moduleHash := by rw [← hp.moduleHash, hhash]
        analyzerId := by rw [← hp.analyzerId, haid]
        analyzerVersion := by rw [← hp.analyzerVersion, hver]
        isaId := by rw [← hp.isaId, hisa]
        ascending := ascending_iff.mp hasc
        entry := ⟨i, hi, hpc, hlocal, hesc, hguard⟩ }⟩
  · rintro ⟨blob, h⟩
    obtain ⟨file, hfile, hlen, hhex, hstored, haddr⟩ := h.addressed
    obtain ⟨i, hi, hpc, hlocal, hesc, hguard⟩ := h.entry
    have hlength := h.length
    -- the map whose fields are the ones of the bytes
    let m : OryxMmap :=
      { flags := getU16 (blob.drop 6)
        isaId := want.isaId
        analyzerId := want.analyzerId
        analyzerVersion := want.analyzerVersion
        moduleHash := want.moduleHash
        entries := ⟨getRecords getMmapEntry mmapEnt (blobCount blob) (blob.drop mmapHdr),
          by rw [length_getRecords]; exact (getU32 (blob.drop 20)).isLt⟩ }
    have hp : MmapParsedFrom blob m :=
      { header := by rw [mmapHdr]; omega
        magic := h.magic
        version := h.version
        length := by rw [hlength, mmapHdr, mmapEnt, blobCount, Nat.mul_comm]
        flags := rfl
        isaId := h.isaId.symm
        analyzerId := h.analyzerId.symm
        analyzerVersion := h.analyzerVersion.symm
        moduleHash := h.moduleHash.symm
        entries := rfl
        ascending := ascending_iff.mpr h.ascending }
    have hget : oryxMmapCacheGet c want = .ok m := oryxMmapCacheGet_ok.mpr
      ⟨file.take 64, blob, oryxCacheResolve_ok.mpr ⟨isHex64_key want, file, hfile, hlen, rfl, hhex⟩,
        oryxCacheGetBlob_ok.mpr ⟨hhex, hstored, haddr⟩, oryxMmapParse_ok.mpr hp,
        oryxMmapVerifyIdentity_ok.mpr ⟨rfl, rfl, rfl, rfl⟩⟩
    refine ⟨m, hget, oryxMmapDecide_relax.mpr ⟨_, (oryxMmapLookup_eq_some hp.ascending).mpr
      ⟨hp.mem_entries.mpr ⟨i, hi, rfl⟩, hpc⟩, hlocal, hesc, hguard⟩⟩

end Oryx
