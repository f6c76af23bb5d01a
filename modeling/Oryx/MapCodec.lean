/-
Oryx/MapCodec.lean

The byte form of a memory-class map, both ways, and the lookup in 32 bits.

`oryxMmapParse` of `MemoryMap` says which buffers are accepted and as what
map.  Here the parser is run the way the C code runs it: it zeroes the
caller's `struct oryx_mmap`, fills the header, allocates the entries and stores
them slot by slot, and gives them back when the addresses do not ascend.
`oryxMmapParseInto_eq` says that both are one parser.  In the same way
`mmapLookupLoop` searches with indices of 32 bits, where a sum that does not
fit and a read outside the array have no result; `mmapLookupLoop_eq` says that
it always has one, the one of the library's search.

The main results are `oryxMmap_roundTrip`, and `mmap_canonical_iff`: which
accepted buffers the serializer gives back.  The reserved half-word of an entry
is written as zero and never read.
-/
import Oryx.MemoryMap
import Oryx.TuBytes

namespace Oryx

/-! ### The map in memory -/

/-- `struct oryx_mmap` as a caller holds it; `entries` is `none` while the pointer is NULL. -/
structure OryxMmapOut where
  isaId : U32
  analyzerId : U32
  analyzerVersion : U32
  flags : U16
  moduleHash : Digest
  entries : Option (List OryxMmapEntry)
  entryCount : U32
  deriving DecidableEq

/-- A map in memory.  Without entries nothing is allocated. -/
def OryxMmap.toOut (m : OryxMmap) : OryxMmapOut where
  isaId := m.isaId
  analyzerId := m.analyzerId
  analyzerVersion := m.analyzerVersion
  flags := m.flags
  moduleHash := m.moduleHash
  entries := if m.entries.count = 0 then none else some m.entries.val
  entryCount := m.entries.count

/-- The entries behind the pointer. -/
def OryxMmapOut.entryList (out : OryxMmapOut) : List OryxMmapEntry := out.entries.getD []

theorem OryxMmap.entryList_toOut (m : OryxMmap) : m.toOut.entryList = m.entries.val := by
  by_cases hcount : m.entries.count = 0
  · have hlen : m.entries.val.length = 0 := Counted.count_eq_iff.mp hcount
    rw [OryxMmapOut.entryList, toOut, if_pos hcount, List.length_eq_zero_iff.mp hlen]
    rfl
  · rw [OryxMmapOut.entryList, toOut, if_neg hcount]
    rfl

/-! ### Parsing into a struct -/

/-- An entry fresh from `calloc`. -/
def zeroMmapEntry : OryxMmapEntry := ⟨0, 0, 0⟩

/-- The entry loop of `oryx_mmap_parse` from slot `i` on, with `n` entries to go; `none` is the
exit that frees the array. -/
def fillMmapEntries : Nat → Nat → List Byte → U64 → Bool → List OryxMmapEntry →
    Option (List OryxMmapEntry)
  | 0, _, _, _, _, es => some es
  | n + 1, i, p, prev, first, es =>
      let pc := getU64 p
      -- must be strictly ascending for binary search + no ambiguity
      if first = false ∧ pc ≤ prev then none
      else fillMmapEntries n (i + 1) (p.drop mmapEnt) pc false (es.set i (getMmapEntry p))

/-- The struct after `memset` and the header fields. -/
def mmapHeaderOut (buf : List Byte) (hlen : ¬ buf.length < mmapHdr) : OryxMmapOut where
  flags := getU16 (buf.drop 6)
  isaId := getU32 (buf.drop 8)
  analyzerId := getU32 (buf.drop 12)
  analyzerVersion := getU32 (buf.drop 16)
  entryCount := getU32 (buf.drop 20)
  moduleHash := digestAt buf 24 (moduleHash_fits hlen)
  entries := none

/-- `oryx_mmap_parse` on the struct `out`, with every allocation succeeding. -/
def oryxMmapParseInto (buf : List Byte) (out : OryxMmapOut) : Except OryxErr Unit × OryxMmapOut :=
  if hlen : buf.length < mmapHdr then (.error .format, out)
  else if getU32 buf ≠ oryxMmapMagic ∨ getU16 (buf.drop 4) ≠ oryxMmapVersion then
    (.error .format, out)
  else
    let out := mmapHeaderOut buf hlen
    let need := mmapHdr + out.entryCount.toNat * mmapEnt
    if need ≠ buf.length then (.error .format, out)
    else if out.entryCount ≠ 0 then
      let es := List.replicate out.entryCount.toNat zeroMmapEntry
      match fillMmapEntries out.entryCount.toNat 0 (buf.drop mmapHdr) 0 true es with
      | none => (.error .format, { out with entries := none })
      | some es => (.ok (), { out with entries := some es })
    else (.ok (), out)

/-- The loop fills the slots from `i` on with the entries `parseMmapEntries` reads. -/
theorem fillMmapEntries_eq {n i : Nat} {p : List Byte} {prev : U64} {first : Bool}
    {es : List OryxMmapEntry} (hlen : es.length = i + n) :
    fillMmapEntries n i p prev first es =
      match parseMmapEntries n p (if first then none else some prev) with
      | .error _ => none
      | .ok rest => some (es.take i ++ rest) := by
  induction n generalizing i p prev first es with
  | zero =>
    simp only [fillMmapEntries, parseMmapEntries, List.append_nil]
    rw [List.take_of_length_le (by omega)]
  | succ n ih =>
    have hguard : (if first then none else some prev).any ((getMmapEntry p).guestPc ≤ ·) = true ↔
        first = false ∧ getU64 p ≤ prev := by
      cases first with
      | true => simp
      | false =>
        simp only [getMmapEntry, Bool.false_eq_true, if_false, Option.any_some, true_and]
        exact decide_eq_true_iff
    simp only [fillMmapEntries, parseMmapEntries]
    by_cases hstop : first = false ∧ getU64 p ≤ prev
    · rw [if_pos hstop, if_pos (hguard.mpr hstop)]
    · rw [if_neg hstop, if_neg (mt hguard.mp hstop),
        ih (by rw [List.length_set]; omega), if_neg Bool.false_ne_true]
      -- slot `i` now holds the entry read, and the slots before it are as they were
      have htake : (es.set i (getMmapEntry p)).take (i + 1) = es.take i ++ [getMmapEntry p] := by
        rw [List.take_succ_eq_append_getElem (by rw [List.length_set]; omega),
          List.take_set_of_le (Nat.le_refl i), List.getElem_set_self]
      rw [htake]
      have hpc : (getMmapEntry p).guestPc = getU64 p := rfl
      rw [hpc]
      cases parseMmapEntries n (p.drop mmapEnt) (some (getU64 p)) with
      | error err => rfl
      | ok rest => simp only [List.append_assoc, List.singleton_append]

/-- **One parser**: behind a good header the struct ends as the map that `oryxMmapParse` gives,
or with the header fields and no entries. -/
theorem oryxMmapParseInto_eq {buf : List Byte} {out : OryxMmapOut}
    (hlen : ¬ buf.length < mmapHdr) (hmagic : getU32 buf = oryxMmapMagic)
    (hversion : getU16 (buf.drop 4) = oryxMmapVersion) :
    oryxMmapParseInto buf out =
      match oryxMmapParse buf with
      | .error _ => (.error .format, mmapHeaderOut buf hlen)
      | .ok m => (.ok (), m.toOut) := by
  have hgood : ¬ (getU32 buf ≠ oryxMmapMagic ∨ getU16 (buf.drop 4) ≠ oryxMmapVersion) :=
    not_or.mpr ⟨not_not.mpr hmagic, not_not.mpr hversion⟩
  rw [oryxMmapParseInto, dif_neg hlen, if_neg hgood]
  dsimp only [mmapHeaderOut]
  rw [fillMmapEntries_eq (by rw [List.length_replicate, Nat.zero_add]), if_pos rfl]
  cases hparse : oryxMmapParse buf with
  | ok m =>
    have h := oryxMmapParse_ok.mp hparse
    have hes : parseMmapEntries (getU32 (buf.drop 20)).toNat (buf.drop mmapHdr) none =
        .ok m.entries.val :=
      parseMmapEntries_ok.mpr ⟨h.entries, h.ascending, fun q hq => by cases hq⟩
    have hcount : m.entries.count = getU32 (buf.drop 20) :=
      Counted.count_eq_iff.mpr h.length_entries
    have hhash : digestAt buf 24 (moduleHash_fits hlen) = m.moduleHash :=
      Subtype.ext h.moduleHash.symm
    rw [if_neg (not_not.mpr h.length.symm), hes]
    simp only [OryxMmap.toOut, hcount, hhash, h.flags, h.isaId, h.analyzerId, h.analyzerVersion]
    by_cases hzero : getU32 (buf.drop 20) = 0
    · rw [if_neg (not_not.mpr hzero), if_pos hzero]
    · rw [if_pos hzero, if_neg hzero, List.take_zero, List.nil_append]
  | error err =>
    by_cases hneed : mmapHdr + (getU32 (buf.drop 20)).toNat * mmapEnt ≠ buf.length
    · rw [if_pos hneed]
    rw [if_neg hneed]
    -- the length is right, so it is the entry loop that stopped
    cases hes : parseMmapEntries (getU32 (buf.drop 20)).toNat (buf.drop mmapHdr) none with
    | error e =>
      have hcount : getU32 (buf.drop 20) ≠ 0 := by
        intro hzero
        rw [hzero] at hes
        cases hes
      rw [if_pos hcount]
    | ok es =>
      exfalso
      rw [oryxMmapParse, dif_neg hlen, if_neg hgood] at hparse
      dsimp only at hparse
      rw [if_neg hneed] at hparse
      split at hparse
      · next herr =>
        rw [hes] at herr
        cases herr
      · cases hparse

/-- What a success leaves in the struct. -/
theorem oryxMmapParseInto_ok {buf : List Byte} {out out' : OryxMmapOut}
    (h : oryxMmapParseInto buf out = (.ok (), out')) :
    ∃ m, oryxMmapParse buf = .ok m ∧ out' = m.toOut := by
  by_cases hlen : buf.length < mmapHdr
  · rw [oryxMmapParseInto, dif_pos hlen] at h
    cases h
  by_cases hgood : getU32 buf ≠ oryxMmapMagic ∨ getU16 (buf.drop 4) ≠ oryxMmapVersion
  · rw [oryxMmapParseInto, dif_neg hlen, if_pos hgood] at h
    cases h
  simp only [not_or, Decidable.not_not] at hgood
  rw [oryxMmapParseInto_eq hlen hgood.1 hgood.2] at h
  cases hparse : oryxMmapParse buf with
  | error err =>
    rw [hparse] at h
    cases h
  | ok m =>
    rw [hparse] at h
    cases h
    exact ⟨m, rfl, rfl⟩

/-! ### The lookup in 32 bits -/

/-- A sum of 32-bit indices; `none` when it does not fit. -/
def addU32 (a b : U32) : Option U32 :=
  if a.toNat + b.toNat < 2 ^ 32 then some (a + b) else none

theorem addU32_eq_some {a b c : U32} :
    addU32 a b = some c ↔ c.toNat = a.toNat + b.toNat := by
  rw [addU32]
  constructor
  · intro h
    split at h
    · next hfit =>
      cases h
      rw [BitVec.toNat_add, Nat.mod_eq_of_lt hfit]
    · cases h
  · intro h
    have hfit : a.toNat + b.toNat < 2 ^ 32 := h ▸ c.isLt
    rw [if_pos hfit, Option.some.injEq]
    apply BitVec.eq_of_toNat_eq
    rw [BitVec.toNat_add, Nat.mod_eq_of_lt hfit, h]

theorem addU32_isSome {a b : U32} (h : a.toNat + b.toNat < 2 ^ 32) :
    ∃ c, addU32 a b = some c ∧ c.toNat = a.toNat + b.toNat := by
  refine ⟨a + b, if_pos h, ?_⟩
  rw [BitVec.toNat_add, Nat.mod_eq_of_lt h]

/-- The width of a window that is not empty, and half of it. -/
theorem toNat_halfWindow {lo hi : U32} (h : lo < hi) :
    (hi - lo).toNat = hi.toNat - lo.toNat ∧
      ((hi - lo) / 2).toNat = (hi.toNat - lo.toNat) / 2 := by
  have hle : lo ≤ hi := BitVec.le_of_lt h
  have hsub : (hi - lo).toNat = hi.toNat - lo.toNat := BitVec.toNat_sub_of_le hle
  refine ⟨hsub, ?_⟩
  rw [BitVec.toNat_udiv, hsub]
  rfl

/-- The loop of `oryx_mmap_lookup` on the window `[lo, hi)`.  The outer `none` is a sum that does
not fit or a read outside the array. -/
def mmapLookupLoop (entries : List OryxMmapEntry) (guestPc : U64) (lo hi : U32) :
    Option (Option OryxMmapEntry) :=
  if _hlt : lo < hi then
    match _hmid : addU32 lo ((hi - lo) / 2) with
    | none => none
    | some mid =>
        match entries[mid.toNat]? with
        | none => none
        | some e =>
            if e.guestPc = guestPc then some (some e)
            else if e.guestPc < guestPc then
              match _hlo : addU32 mid 1 with
              | none => none
              | some lo' => mmapLookupLoop entries guestPc lo' hi
            else mmapLookupLoop entries guestPc lo mid
  else some none
termination_by hi.toNat - lo.toNat
decreasing_by
  · have hmid' := addU32_eq_some.mp _hmid
    have hlo' := addU32_eq_some.mp _hlo
    have hlt' : lo.toNat < hi.toNat := _hlt
    have hone : (1 : U32).toNat = 1 := rfl
    rw [(toNat_halfWindow _hlt).2] at hmid'
    omega
  · have hmid' := addU32_eq_some.mp _hmid
    have hlt' : lo.toNat < hi.toNat := _hlt
    rw [(toNat_halfWindow _hlt).2] at hmid'
    omega

/-- `oryx_mmap_lookup` on the struct. -/
def OryxMmapOut.lookup (m : OryxMmapOut) (guestPc : U64) : Option (Option OryxMmapEntry) :=
  match m.entries with
  | none => some none
  | some es => mmapLookupLoop es guestPc 0 m.entryCount

/-- **Indices stay in 32 bits**: on a window inside the array the loop is the search. -/
theorem mmapLookupLoop_eq {es : List OryxMmapEntry} {guestPc : U64} {lo hi : U32}
    (hhi : hi.toNat ≤ es.length) :
    mmapLookupLoop es guestPc lo hi =
      some (binarySearch OryxMmapEntry.pcKey es guestPc.toNat lo.toNat hi.toNat) := by
  induction hn : hi.toNat - lo.toNat using Nat.strongRecOn generalizing lo hi with
  | ind n ih =>
    rw [mmapLookupLoop, binarySearch]
    by_cases hlt : lo < hi
    swap
    · rw [dif_neg hlt, if_neg (by rwa [BitVec.lt_def] at hlt)]
    have hltNat : lo.toNat < hi.toNat := hlt
    have hhalf := (toNat_halfWindow hlt).2
    obtain ⟨mid, hmid, hmidNat⟩ := @addU32_isSome lo ((hi - lo) / 2) (by
      rw [hhalf]
      have := hi.isLt
      omega)
    rw [hhalf] at hmidNat
    have hread : es[mid.toNat]? = some es[mid.toNat] := List.getElem?_eq_getElem (by omega)
    rw [dif_pos hlt, if_pos hltNat, hmid, ← hmidNat]
    dsimp only
    rw [hread]
    dsimp only
    -- the key of an entry is its address as a number
    have hkeyEq : es[mid.toNat].pcKey = guestPc.toNat ↔ es[mid.toNat].guestPc = guestPc :=
      BitVec.toNat_inj
    have hkeyLt : es[mid.toNat].pcKey < guestPc.toNat ↔ es[mid.toNat].guestPc < guestPc := Iff.rfl
    by_cases heq : es[mid.toNat].guestPc = guestPc
    · rw [if_pos heq, if_pos (hkeyEq.mpr heq)]
    rw [if_neg heq, if_neg (mt hkeyEq.mp heq)]
    by_cases hless : es[mid.toNat].guestPc < guestPc
    · -- the middle lies below `hi`, so the next index fits
      obtain ⟨lo', hlo, hloNat⟩ := @addU32_isSome mid 1 (by
        have := hi.isLt
        show mid.toNat + 1 < 2 ^ 32
        omega)
      have hloNat' : lo'.toNat = mid.toNat + 1 := hloNat
      rw [if_pos hless, if_pos (hkeyLt.mpr hless), hlo]
      dsimp only
      rw [ih _ (by omega) hhi rfl, hloNat']
    · rw [if_neg hless, if_neg (mt hkeyLt.mp hless), ih _ (by omega) (by omega) rfl]

/-- The struct of a map is searched as the map is. -/
theorem OryxMmap.lookup_toOut (m : OryxMmap) (guestPc : U64) :
    m.toOut.lookup guestPc = some (oryxMmapLookup m guestPc) := by
  by_cases hcount : m.entries.count = 0
  · have hlen : m.entries.val.length = 0 := Counted.count_eq_iff.mp hcount
    rw [OryxMmapOut.lookup, toOut, if_pos hcount, oryxMmapLookup, hlen, binarySearch,
      if_neg (Nat.lt_irrefl 0)]
  · rw [OryxMmapOut.lookup, toOut, if_neg hcount]
    dsimp only
    rw [mmapLookupLoop_eq (by rw [Counted.toNat_count]), Counted.toNat_count]
    rfl

/-! ### Encoding and decoding -/

/-- The addresses of the entries are strictly ascending. -/
def OryxMmap.Ascending (m : OryxMmap) : Prop :=
  m.entries.val.Pairwise fun e e' => e.guestPc < e'.guestPc

theorem OryxMmap.ascending_iff (m : OryxMmap) :
    m.Ascending ↔ (m.entries.val.map OryxMmapEntry.pcKey).Pairwise (· < ·) := by
  rw [List.pairwise_map]
  exact Iff.rfl

/-- The parser reads a serialized map up to the order of its entries. -/
theorem parseInto_serialize (m : OryxMmap) (out : OryxMmapOut) :
    (m.Ascending → oryxMmapParseInto (oryxMmapSerialize m) out = (.ok (), m.toOut)) ∧
      (¬ m.Ascending → ∃ left, left.entries = none ∧
        oryxMmapParseInto (oryxMmapSerialize m) out = (.error .format, left)) := by
  have hlen : ¬ (oryxMmapSerialize m).length < mmapHdr := by
    rw [length_oryxMmapSerialize]
    omega
  have hmagic : getU32 (oryxMmapSerialize m) = oryxMmapMagic := by simp [oryxMmapSerialize]
  have hversion : getU16 ((oryxMmapSerialize m).drop 4) = oryxMmapVersion := by
    simp [oryxMmapSerialize]
  rw [oryxMmapParseInto_eq hlen hmagic hversion]
  constructor
  · intro hasc
    rw [oryxMmapParse_serialize (m.ascending_iff.mp hasc)]
  · intro hasc
    refine ⟨mmapHeaderOut (oryxMmapSerialize m) hlen, rfl, ?_⟩
    cases hparse : oryxMmapParse (oryxMmapSerialize m) with
    | error err => rfl
    | ok m' =>
      -- an accepted map has the entries of `m`, and they ascend
      have h := oryxMmapParse_ok.mp hparse
      have hentries : m'.entries.val = m.entries.val := by
        rw [h.entries, getRecords_serialize]
      have hasc' := h.ascending
      rw [hentries] at hasc'
      exact absurd (m.ascending_iff.mpr hasc') hasc

/-- **Encoding and decoding**: a serialized map parses to itself exactly when its addresses
ascend, and leaves no entries otherwise; and in an accepted map the lookup, with its indices
inside 32 bits and the array, finds exactly the entry of the address. -/
theorem oryxMmap_roundTrip :
    (∀ (m : OryxMmap) (out : OryxMmapOut),
      (oryxMmapParseInto (oryxMmapSerialize m) out = (.ok (), m.toOut) ↔ m.Ascending) ∧
      (¬ m.Ascending → ∃ left,
        oryxMmapParseInto (oryxMmapSerialize m) out = (.error .format, left) ∧
          left.entries = none ∧ ∀ pc, left.lookup pc = some none)) ∧
    ∀ (buf : List Byte) (out m : OryxMmapOut), oryxMmapParseInto buf out = (.ok (), m) →
      ∀ pc : U64, ∃ r, m.lookup pc = some r ∧
        ∀ e, r = some e ↔ e ∈ m.entryList ∧ e.guestPc = pc := by
  constructor
  · intro m out
    obtain ⟨hok, herr⟩ := parseInto_serialize m out
    refine ⟨⟨fun h => ?_, hok⟩, fun hasc => ?_⟩
    · by_contra hasc
      obtain ⟨left, -, hleft⟩ := herr hasc
      rw [hleft] at h
      cases h
    · obtain ⟨left, hnone, hleft⟩ := herr hasc
      refine ⟨left, hleft, hnone, fun pc => ?_⟩
      rw [OryxMmapOut.lookup, hnone]
  · intro buf out m h pc
    obtain ⟨m, hparse, rfl⟩ := oryxMmapParseInto_ok h
    refine ⟨oryxMmapLookup m pc, m.lookup_toOut pc, fun e => ?_⟩
    rw [OryxMmap.entryList_toOut]
    exact oryxMmapLookup_eq_some (oryxMmapParse_ok.mp hparse).ascending

/-! ### The canonical form -/

/-- The bytes before the entries. -/
def mmapHeader (m : OryxMmap) : List Byte :=
  putU32 oryxMmapMagic ++ (putU16 oryxMmapVersion ++ (putU16 m.flags ++ (putU32 m.isaId ++
    (putU32 m.analyzerId ++ (putU32 m.analyzerVersion ++ (putU32 m.entries.count ++
      m.moduleHash.val))))))

theorem oryxMmapSerialize_eq (m : OryxMmap) :
    oryxMmapSerialize m = mmapHeader m ++ m.entries.val.flatMap putMmapEntry := by
  simp only [oryxMmapSerialize, mmapHeader, List.append_assoc]

/-- An entry with its reserved half-word, as 12 bytes. -/
def putMmapSlot (slot : OryxMmapEntry × U16) : List Byte :=
  putU64 slot.1.guestPc ++ (slot.1.mclass :: slot.1.eflags :: putU16 slot.2)

def getMmapSlot (p : List Byte) : OryxMmapEntry × U16 := (getMmapEntry p, getU16 (p.drop 10))

/-- All 12 bytes of the slots of a buffer. -/
def mmapSlots (buf : List Byte) : List (OryxMmapEntry × U16) :=
  getRecords getMmapSlot mmapEnt (blobCount buf) (buf.drop mmapHdr)

/-- The reserved half-word of entry `i`, which the parser never reads. -/
def blobReserved (blob : List Byte) (i : Nat) : U16 := getU16 (blob.drop (56 + 12 * i + 10))

section Canonical

variable {buf : List Byte}

theorem getU8_drop {k : Nat} (h : k + 1 ≤ buf.length) :
    getU8 (buf.drop k) :: buf.drop (k + 1) = buf.drop k := by
  rw [List.drop_eq_getElem_cons (by omega), getU8_cons]

theorem length_putMmapSlot (slot : OryxMmapEntry × U16) : (putMmapSlot slot).length = mmapEnt := by
  simp [putMmapSlot, mmapEnt]

theorem getMmapSlot_putMmapSlot (slot : OryxMmapEntry × U16) (rest : List Byte) :
    getMmapSlot (putMmapSlot slot ++ rest) = slot := by
  simp [getMmapSlot, getMmapEntry, putMmapSlot, List.append_assoc, drop_putU64]

/-- Entry and reserved half-word are all there is in 12 bytes. -/
theorem putMmapSlot_getMmapSlot {p : List Byte} (h : mmapEnt ≤ p.length) :
    putMmapSlot (getMmapSlot p) = p.take mmapEnt := by
  simp only [mmapEnt] at h
  have h0 := @putU64_drop p 0 (by omega)
  have h8 := @getU8_drop p 8 (by omega)
  have h9 := @getU8_drop p 9 (by omega)
  have h10 := @putU16_drop p 10 (by omega)
  rw [List.drop_zero] at h0
  have hall : putMmapSlot (getMmapSlot p) ++ p.drop 12 = p.take 12 ++ p.drop 12 := by
    rw [List.take_append_drop]
    simp only [putMmapSlot, getMmapSlot, getMmapEntry, List.append_assoc, List.cons_append, h10, h9,
      h8, h0]
  exact List.append_cancel_right hall

/-- The header of an accepted buffer is the header of its map. -/
theorem MmapParsedFrom.take_header {m : OryxMmap} (h : MmapParsedFrom buf m) :
    buf.take mmapHdr = mmapHeader m := by
  have hlen := h.header
  simp only [mmapHdr] at hlen
  have hcount : m.entries.count = getU32 (buf.drop 20) :=
    Counted.count_eq_iff.mpr h.length_entries
  have h0 := @putU32_drop buf 0 (by omega)
  rw [List.drop_zero] at h0
  have hall : mmapHeader m ++ buf.drop 56 = buf.take 56 ++ buf.drop 56 := by
    rw [List.take_append_drop]
    simp only [mmapHeader, List.append_assoc, h.moduleHash, hcount, h.flags, h.isaId, h.analyzerId,
      h.analyzerVersion, ← h.magic, ← h.version, @take_append_drop_add buf 24 32,
      @putU32_drop buf 20 (by omega), @putU32_drop buf 16 (by omega),
      @putU32_drop buf 12 (by omega), @putU32_drop buf 8 (by omega),
      @putU16_drop buf 6 (by omega), @putU16_drop buf 4 (by omega), h0]
  exact (List.append_cancel_right hall).symm

/-- An accepted buffer is the header of its map and the slots. -/
theorem MmapParsedFrom.buf_eq {m : OryxMmap} (h : MmapParsedFrom buf m) :
    buf = mmapHeader m ++ (mmapSlots buf).flatMap putMmapSlot := by
  have hlen : (buf.drop mmapHdr).length = blobCount buf * mmapEnt := by
    rw [List.length_drop, h.length, blobCount]
    omega
  have hslots : (mmapSlots buf).flatMap putMmapSlot = buf.drop mmapHdr := by
    rw [mmapSlots, flatMap_getRecords (fun _ => putMmapSlot_getMmapSlot) (by rw [hlen]), ← hlen,
      List.take_length]
  rw [hslots, ← h.take_header, List.take_append_drop]

/-- The serializer writes the slots with a reserved field of zero. -/
theorem serialize_slots (m : OryxMmap) :
    oryxMmapSerialize m =
      mmapHeader m ++ (m.entries.val.map fun e => (e, (0 : U16))).flatMap putMmapSlot := by
  rw [oryxMmapSerialize_eq, List.flatMap_map]
  rfl

/-- Slots are told apart by their bytes. -/
theorem slots_eq_of_flatMap_eq {xs ys : List (OryxMmapEntry × U16)}
    (h : xs.flatMap putMmapSlot = ys.flatMap putMmapSlot) : xs = ys := by
  have hput := map_eq_of_flatMap_eq length_putMmapSlot (by decide) h
  refine List.map_injective_iff.mpr (fun slot slot' e => ?_) hput
  rw [← getMmapSlot_putMmapSlot slot [], e, getMmapSlot_putMmapSlot]

/-- Slot `i` is entry `i` with its reserved field. -/
theorem getElem?_mmapSlots {i : Nat} (hi : i < blobCount buf) :
    (mmapSlots buf)[i]? =
      some (⟨blobPc buf i, blobClass buf i, blobFlags buf i⟩, blobReserved buf i) := by
  rw [mmapSlots, getElem?_getRecords _ hi, getMmapSlot, getMmapEntry]
  simp only [List.drop_drop]
  rfl

/-- A buffer of a map is pinned by the map and the reserved fields. -/
theorem MmapParsedFrom.eq_iff {buf' : List Byte} {m : OryxMmap} (h : MmapParsedFrom buf m)
    (h' : MmapParsedFrom buf' m) :
    buf' = buf ↔ ∀ i < blobCount buf, blobReserved buf' i = blobReserved buf i := by
  constructor
  · rintro rfl i -
    rfl
  · intro hres
    have hcount : blobCount buf' = blobCount buf := h'.length_entries.symm.trans h.length_entries
    have hslots : mmapSlots buf' = mmapSlots buf := by
      apply List.ext_getElem?
      intro i
      by_cases hi : i < blobCount buf
      · -- the entry of slot `i` is the one of the map
        have hentry := (h'.getElem?_entries (hcount.symm ▸ hi)).symm.trans (h.getElem?_entries hi)
        rw [getElem?_mmapSlots (hcount.symm ▸ hi), getElem?_mmapSlots hi, hres i hi,
          Option.some.inj hentry]
      · rw [mmapSlots, mmapSlots, List.getElem?_eq_none (by rw [length_getRecords]; omega),
          List.getElem?_eq_none (by rw [length_getRecords]; omega)]
    rw [h'.buf_eq, hslots, ← h.buf_eq]

theorem blobReserved_serialize {m : OryxMmap} (h : MmapParsedFrom (oryxMmapSerialize m) m)
    {i : Nat} (hi : i < blobCount (oryxMmapSerialize m)) :
    blobReserved (oryxMmapSerialize m) i = 0 := by
  have hslots : mmapSlots (oryxMmapSerialize m) = m.entries.val.map fun e => (e, (0 : U16)) :=
    slots_eq_of_flatMap_eq (List.append_cancel_left (h.buf_eq.symm.trans (serialize_slots m)))
  have hslot := getElem?_mmapSlots hi
  rw [hslots, List.getElem?_map, h.getElem?_entries hi] at hslot
  exact (congrArg Prod.snd (Option.some.inj hslot)).symm

/-- **When the byte form is canonical**: an accepted buffer is given back by the serializer
exactly when every reserved field in it is zero, and two buffers of one map are equal exactly
when their reserved fields are. -/
theorem mmap_canonical_iff {buf : List Byte} {m : OryxMmap} (h : oryxMmapParse buf = .ok m) :
    (oryxMmapSerialize m = buf ↔ ∀ i < blobCount buf, blobReserved buf i = 0) ∧
      ∀ buf', oryxMmapParse buf' = .ok m →
        (buf' = buf ↔ ∀ i < blobCount buf, blobReserved buf' i = blobReserved buf i) := by
  have hp := oryxMmapParse_ok.mp h
  have hs := oryxMmapParse_ok.mp (oryxMmapParse_serialize hp.ascending)
  have hcount : blobCount (oryxMmapSerialize m) = blobCount buf :=
    hs.length_entries.symm.trans hp.length_entries
  refine ⟨(hp.eq_iff hs).trans (forall₂_congr fun i hi => ?_), fun buf' h' =>
    hp.eq_iff (oryxMmapParse_ok.mp h')⟩
  rw [blobReserved_serialize hs (hcount.symm ▸ hi), eq_comm]

end Canonical

/-! ### A map with two byte forms -/

/-- A map of one entry. -/
def oneEntryMap : OryxMmap where
  isaId := 1
  analyzerId := 1
  analyzerVersion := 1
  flags := 0
  moduleHash := zeroDigest
  entries := ⟨[⟨0x1000, omcShared, 0⟩], by decide⟩

/-- Its bytes, with the reserved field of the entry set to 1. -/
def reservedMapBytes : List Byte := (oryxMmapSerialize oneEntryMap).set 66 1

/-- The parser takes both byte strings for the same map. -/
theorem mmap_not_canonical :
    oryxMmapParse reservedMapBytes = .ok oneEntryMap ∧
      oryxMmapParse (oryxMmapSerialize oneEntryMap) = .ok oneEntryMap ∧
      oryxMmapSerialize oneEntryMap ≠ reservedMapBytes :=
  ⟨rfl, oryxMmapParse_serialize (by decide), by decide⟩

theorem mmap_canonical_iff_oneEntry :
    oryxMmapSerialize oneEntryMap = oryxMmapSerialize oneEntryMap ↔
      ∀ i < blobCount (oryxMmapSerialize oneEntryMap),
        blobReserved (oryxMmapSerialize oneEntryMap) i = 0 :=
  (mmap_canonical_iff (oryxMmapParse_serialize (by decide))).1

end Oryx
