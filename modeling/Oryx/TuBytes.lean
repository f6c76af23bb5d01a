/-
Oryx/TuBytes.lean

The byte form of a translation unit, access by access.

`TranslationUnit.lean` writes a unit as one list of bytes and reads it by
dropping prefixes.  The C code works on a buffer at offsets: the serializer
puts every field at its own offset of a buffer it allocated, and the parser
reads fields at offsets while its length checks are 64-bit arithmetic.  Both
halves are restated here that way, every access checked against the buffer:

* `oryxTuSerializeAt_eq`: the writes stay inside the buffer, fill it and leave
  `oryxTuSerialize`;
* `oryxTuParseAt_eq`: the reads stay inside the buffer and the outcome is that
  of `oryxTuParse`.

An accepted buffer is then compared with the bytes of its unit
(`serialize_of_parse`): they agree except in the two reserved bytes at offset
6, which the parser neither checks nor keeps.
-/
import Oryx.TranslationUnit
import Oryx.Lib.CheckedBuffer

namespace Oryx

/-! ### The serializer, write by write -/

/-- The `size_t` sum of the section lengths: `total` of the serializer, `need`
of the parser. -/
def tuSize (codeLen relocCount exitCount : U32) : U64 :=
  84 + codeLen.setWidth 64 + relocCount.setWidth 64 * 16 + exitCount.setWidth 64 * 8

/-- The sum does not wrap. -/
theorem toNat_tuSize (codeLen relocCount exitCount : U32) :
    (tuSize codeLen relocCount exitCount).toNat =
      tuHeaderLen + codeLen.toNat + relocCount.toNat * tuRelocLen +
        exitCount.toNat * tuExitLen := by
  have hc := codeLen.isLt
  have hr := relocCount.isLt
  have hx := exitCount.isLt
  simp only [tuSize, BitVec.toNat_add, BitVec.toNat_mul, BitVec.toNat_setWidth,
    BitVec.ofNat_eq_ofNat, BitVec.toNat_ofNat, tuHeaderLen, tuRelocLen, tuExitLen]
  omega

/-- `total`, the `size_t` of `oryx_tu_serialize`. -/
def tuTotal (tu : OryxTu) : U64 := tuSize tu.code.count tu.relocs.count tu.exits.count

/-- The writes of the header. -/
def tuHeaderWrites (tu : OryxTu) : List (Nat × List Byte) :=
  [(0, putU32 oryxTuMagic), (4, putU16 oryxTuVersion), (6, putU16 0), (8, putU32 tu.isaId),
    (12, putU32 tu.translatorId), (16, putU32 tu.translatorVersion), (20, putU32 tu.profileId),
    (24, putU32 tu.flags), (28, putU64 tu.guestEntryPc), (36, putU32 tu.guestLen),
    (40, putU32 tu.code.count), (44, putU32 tu.relocs.count), (48, putU32 tu.exits.count),
    (52, tu.guestHash.val)]

/-- The loop over the relocations, the first at `p`. -/
def relocWrites : Nat → List OryxReloc → List (Nat × List Byte)
  | _, [] => []
  | p, r :: rs =>
      (p, putU32 r.offset) :: (p + 4, putU32 r.kind) :: (p + 8, putU64 r.guestTarget) ::
        relocWrites (p + tuRelocLen) rs

/-- The loop over the exits, the first at `p`. -/
def exitWrites : Nat → List U64 → List (Nat × List Byte)
  | _, [] => []
  | p, x :: xs => (p, putU64 x) :: exitWrites (p + tuExitLen) xs

/-- The writes of `oryx_tu_serialize`, in its order. -/
def tuWrites (tu : OryxTu) : List (Nat × List Byte) :=
  tuHeaderWrites tu ++
    ((tuHeaderLen, tu.code.val) ::
      (relocWrites (tuHeaderLen + tu.code.val.length) tu.relocs.val ++
        exitWrites (tuHeaderLen + tu.code.val.length + tu.relocs.val.length * tuRelocLen)
          tu.exits.val))

/-- `oryx_tu_serialize` on the buffer that `malloc(total)` returned. -/
def oryxTuSerializeAt (b : List Byte) (tu : OryxTu) : Option (List Byte) :=
  writeAll b (tuWrites tu)

theorem toNat_tuTotal (tu : OryxTu) : (tuTotal tu).toNat = (oryxTuSerialize tu).length := by
  rw [tuTotal, toNat_tuSize, length_serialize, Counted.toNat_count, Counted.toNat_count,
    Counted.toNat_count]

theorem written_relocWrites (p : Nat) (rs : List OryxReloc) :
    BackToBack p (relocWrites p rs) ∧
      writtenBytes (relocWrites p rs) = rs.flatMap putReloc := by
  induction rs generalizing p with
  | nil => exact ⟨trivial, rfl⟩
  | cons r rs ih =>
    obtain ⟨hpos, hbytes⟩ := ih (p + tuRelocLen)
    constructor
    · simpa [relocWrites, BackToBack, Nat.add_assoc, tuRelocLen] using hpos
    · simp only [writtenBytes] at hbytes
      simp [relocWrites, writtenBytes, hbytes, putReloc, List.append_assoc]

theorem written_exitWrites (p : Nat) (xs : List U64) :
    BackToBack p (exitWrites p xs) ∧ writtenBytes (exitWrites p xs) = xs.flatMap putU64 := by
  induction xs generalizing p with
  | nil => exact ⟨trivial, rfl⟩
  | cons x xs ih =>
    obtain ⟨hpos, hbytes⟩ := ih (p + tuExitLen)
    constructor
    · simpa [exitWrites, BackToBack, tuExitLen] using hpos
    · simp only [writtenBytes] at hbytes
      simp [exitWrites, writtenBytes, hbytes]

theorem written_tuHeaderWrites (tu : OryxTu) :
    BackToBack 0 (tuHeaderWrites tu) ∧
      writtenBytes (tuHeaderWrites tu) = tuHeader tu tu.guestHash.val := by
  constructor
  · simp [tuHeaderWrites, BackToBack]
  · simp [tuHeaderWrites, writtenBytes, tuHeader]

/-- The writes stand back to back and lay down the unit's bytes. -/
theorem written_tuWrites (tu : OryxTu) :
    BackToBack 0 (tuWrites tu) ∧ writtenBytes (tuWrites tu) = oryxTuSerialize tu := by
  obtain ⟨hhead, hheadBytes⟩ := written_tuHeaderWrites tu
  obtain ⟨hrelocs, hrelocBytes⟩ :=
    written_relocWrites (tuHeaderLen + tu.code.val.length) tu.relocs.val
  obtain ⟨hexits, hexitBytes⟩ := written_exitWrites
    (tuHeaderLen + tu.code.val.length + tu.relocs.val.length * tuRelocLen) tu.exits.val
  have hheadLen : (writtenBytes (tuHeaderWrites tu)).length = tuHeaderLen := by
    rw [hheadBytes, length_tuHeader, tu.guestHash.property]
    rfl
  have hrelocLen : (writtenBytes (relocWrites (tuHeaderLen + tu.code.val.length)
      tu.relocs.val)).length = tu.relocs.val.length * tuRelocLen := by
    rw [hrelocBytes]
    exact length_flatMap_of_width length_putReloc _
  -- each piece starts where the one before it ends
  constructor
  · apply hhead.append
    rw [hheadLen, Nat.zero_add]
    refine ⟨rfl, hrelocs.append ?_⟩
    rw [hrelocLen]
    exact hexits
  · have hcode : writtenBytes ((tuHeaderLen, tu.code.val) ::
        (relocWrites (tuHeaderLen + tu.code.val.length) tu.relocs.val ++
          exitWrites (tuHeaderLen + tu.code.val.length + tu.relocs.val.length * tuRelocLen)
            tu.exits.val)) =
        tu.code.val ++ (tu.relocs.val.flatMap putReloc ++ tu.exits.val.flatMap putU64) := by
      rw [← hrelocBytes, ← hexitBytes, ← writtenBytes_append]
      rfl
    rw [tuWrites, writtenBytes_append, hheadBytes, hcode]
    simp [oryxTuSerialize, tuHeader, List.append_assoc]

/-- **Writing a unit** into a buffer of the allocated size leaves the unit's bytes. -/
theorem oryxTuSerializeAt_eq {b : List Byte} (tu : OryxTu)
    (hb : b.length = (tuTotal tu).toNat) :
    oryxTuSerializeAt b tu = some (oryxTuSerialize tu) := by
  obtain ⟨hpos, hbytes⟩ := written_tuWrites tu
  rw [oryxTuSerializeAt, ← hbytes]
  exact writeAll_fill hpos (by rw [hb, toNat_tuTotal, hbytes])

/-! ### The parser, read by read -/

def readU16 (buf : List Byte) (off : Nat) : Option U16 := readLe 2 buf off
def readU32 (buf : List Byte) (off : Nat) : Option U32 := readLe 4 buf off
def readU64 (buf : List Byte) (off : Nat) : Option U64 := readLe 8 buf off

theorem readU16_eq {buf : List Byte} {off : Nat} (h : off + 2 ≤ buf.length) :
    readU16 buf off = some (getU16 (buf.drop off)) := readLe_eq h

theorem readU32_eq {buf : List Byte} {off : Nat} (h : off + 4 ≤ buf.length) :
    readU32 buf off = some (getU32 (buf.drop off)) := readLe_eq h

theorem readU64_eq {buf : List Byte} {off : Nat} (h : off + 8 ≤ buf.length) :
    readU64 buf off = some (getU64 (buf.drop off)) := readLe_eq h

/-- The body of the relocation loop. -/
def readReloc (buf : List Byte) (p : Nat) : Option OryxReloc := do
  let offset ← readU32 buf p
  let kind ← readU32 buf (p + 4)
  let guestTarget ← readU64 buf (p + 8)
  return { offset := offset, kind := kind, guestTarget := guestTarget }

/-- `oryx_tu_parse` on a buffer and its `size_t` length: `none` if an access
leaves the buffer. -/
def oryxTuParseAt (buf : List Byte) (len : U64) : Option (Except OryxErr OryxTu) :=
  if len < 84 then some (.error .format) else do
    let magic ← readU32 buf 0
    if magic ≠ oryxTuMagic then some (.error .format) else do
    let version ← readU16 buf 4
    if version ≠ oryxTuVersion then some (.error .format) else do
    let isaId ← readU32 buf 8
    let translatorId ← readU32 buf 12
    let translatorVersion ← readU32 buf 16
    let profileId ← readU32 buf 20
    let flags ← readU32 buf 24
    let guestEntryPc ← readU64 buf 28
    let guestLen ← readU32 buf 36
    let codeLen ← readU32 buf 40
    let relocCount ← readU32 buf 44
    let exitCount ← readU32 buf 48
    let guestHash ← readBytes buf 52 32
    if tuSize codeLen relocCount exitCount ≠ len then some (.error .format) else do
    -- the three arrays, in the order of the file
    let code ← readBytes buf tuHeaderLen codeLen.toNat
    let relocsAt := tuHeaderLen + codeLen.toNat
    let relocs ← readRecords (readReloc buf) tuRelocLen relocCount.toNat relocsAt
    let exitsAt := relocsAt + relocCount.toNat * tuRelocLen
    let exits ← readRecords (readU64 buf) tuExitLen exitCount.toNat exitsAt
    some <| .ok
      { isaId, translatorId, translatorVersion, profileId, flags, guestEntryPc, guestLen
        guestHash
        code := ⟨code.val, by rw [code.property]; exact codeLen.isLt⟩
        relocs := ⟨relocs.val, by rw [relocs.property]; exact relocCount.isLt⟩
        exits := ⟨exits.val, by rw [exits.property]; exact exitCount.isLt⟩ }

theorem readReloc_eq {buf : List Byte} {p : Nat} (h : p + tuRelocLen ≤ buf.length) :
    readReloc buf p = some (getReloc (buf.drop p)) := by
  simp only [tuRelocLen] at h
  rw [readReloc, readU32_eq (by omega), readU32_eq (by omega), readU64_eq (by omega), getReloc,
    List.drop_drop, List.drop_drop]
  rfl

/-- **No read leaves the buffer**, and the outcome is that of the parser. -/
theorem oryxTuParseAt_eq {buf : List Byte} (hbuf : buf.length < 2 ^ 64) :
    oryxTuParseAt buf (BitVec.ofNat 64 buf.length) = some (oryxTuParse buf) := by
  have hlen : (BitVec.ofNat 64 buf.length).toNat = buf.length := by
    rw [BitVec.toNat_ofNat, Nat.mod_eq_of_lt hbuf]
  have hlt : (BitVec.ofNat 64 buf.length < 84) ↔ buf.length < tuHeaderLen := by
    rw [BitVec.lt_def, hlen]
    rfl
  rw [oryxTuParseAt, oryxTuParse]
  by_cases hhead : buf.length < tuHeaderLen
  · rw [if_pos (hlt.mpr hhead), dif_pos hhead]
  · rw [if_neg (fun h => hhead (hlt.mp h)), dif_neg hhead]
    simp only [tuHeaderLen, Nat.not_lt] at hhead
    rw [bind_of_eq_some (readU32_eq (by omega)), List.drop_zero]
    by_cases hmagic : getU32 buf = oryxTuMagic
    swap
    · rw [if_pos hmagic, if_pos hmagic]
    rw [if_neg (not_not.mpr hmagic), if_neg (not_not.mpr hmagic),
      bind_of_eq_some (readU16_eq (by omega))]
    by_cases hversion : getU16 (buf.drop 4) = oryxTuVersion
    swap
    · rw [if_pos hversion, if_pos hversion]
    rw [if_neg (not_not.mpr hversion), if_neg (not_not.mpr hversion),
      bind_of_eq_some (readU32_eq (by omega)), bind_of_eq_some (readU32_eq (by omega)),
      bind_of_eq_some (readU32_eq (by omega)), bind_of_eq_some (readU32_eq (by omega)),
      bind_of_eq_some (readU32_eq (by omega)), bind_of_eq_some (readU64_eq (by omega)),
      bind_of_eq_some (readU32_eq (by omega)), bind_of_eq_some (readU32_eq (by omega)),
      bind_of_eq_some (readU32_eq (by omega)), bind_of_eq_some (readU32_eq (by omega)),
      bind_of_eq_some (readBytes_eq (by omega))]
    dsimp only
    have hsize : tuSize (getU32 (buf.drop 40)) (getU32 (buf.drop 44)) (getU32 (buf.drop 48)) =
        BitVec.ofNat 64 buf.length ↔
        tuHeaderLen + (getU32 (buf.drop 40)).toNat + (getU32 (buf.drop 44)).toNat * tuRelocLen +
          (getU32 (buf.drop 48)).toNat * tuExitLen = buf.length := by
      rw [← toNat_tuSize, BitVec.toNat_eq, hlen]
    by_cases hneed : tuHeaderLen + (getU32 (buf.drop 40)).toNat +
        (getU32 (buf.drop 44)).toNat * tuRelocLen +
        (getU32 (buf.drop 48)).toNat * tuExitLen = buf.length
    swap
    · rw [if_pos hneed, if_pos (fun h => hneed (hsize.mp h))]
    rw [if_neg (not_not.mpr hneed), if_neg (not_not.mpr (hsize.mpr hneed))]
    -- the exact length is what keeps the three sections inside the buffer
    have hrelocs := @readRecords_eq _ buf (readReloc buf) getReloc tuRelocLen
      (fun _ => readReloc_eq) (getU32 (buf.drop 44)).toNat
      (tuHeaderLen + (getU32 (buf.drop 40)).toNat) (by omega)
    have hexits := @readRecords_eq _ buf (readU64 buf) getU64 tuExitLen
      (fun _ => readU64_eq) (getU32 (buf.drop 48)).toNat
      (tuHeaderLen + (getU32 (buf.drop 40)).toNat +
        (getU32 (buf.drop 44)).toNat * tuRelocLen) (by omega)
    rw [bind_of_eq_some (readBytes_eq (by omega)), bind_of_eq_some hrelocs,
      bind_of_eq_some hexits]
    simp only [List.drop_drop]
    rfl

/-! ### What is accepted -/

/-- The buffers that are a unit's bytes, up to the reserved field. -/
structure TuForm (buf : List Byte) : Prop where
  header : 84 ≤ buf.length
  magic : getU32 buf = oryxTuMagic
  version : getU16 (buf.drop 4) = oryxTuVersion
  length : buf.length = 84 + (getU32 (buf.drop 40)).toNat +
    16 * (getU32 (buf.drop 44)).toNat + 8 * (getU32 (buf.drop 48)).toNat

/-- Where the parser takes each part of a unit from. -/
structure ParsedFrom (buf : List Byte) (tu : OryxTu) : Prop where
  form : TuForm buf
  isaId : tu.isaId = getU32 (buf.drop 8)
  translatorId : tu.translatorId = getU32 (buf.drop 12)
  translatorVersion : tu.translatorVersion = getU32 (buf.drop 16)
  profileId : tu.profileId = getU32 (buf.drop 20)
  flags : tu.flags = getU32 (buf.drop 24)
  guestEntryPc : tu.guestEntryPc = getU64 (buf.drop 28)
  guestLen : tu.guestLen = getU32 (buf.drop 36)
  guestHash : tu.guestHash.val = (buf.drop 52).take 32
  code : tu.code.val = (buf.drop 84).take (getU32 (buf.drop 40)).toNat
  relocs : tu.relocs.val = getRecords getReloc tuRelocLen (getU32 (buf.drop 44)).toNat
    (buf.drop (84 + (getU32 (buf.drop 40)).toNat))
  exits : tu.exits.val = getRecords getU64 tuExitLen (getU32 (buf.drop 48)).toNat
    (buf.drop (84 + (getU32 (buf.drop 40)).toNat + (getU32 (buf.drop 44)).toNat * 16))

theorem parsedFrom_of_parse {buf : List Byte} {tu : OryxTu} (h : oryxTuParse buf = .ok tu) :
    ParsedFrom buf tu := by
  rw [oryxTuParse] at h
  split at h
  · cases h
  split at h
  · cases h
  split at h
  · cases h
  dsimp only at h
  split at h
  · cases h
  case isFalse hhead hmagic hversion hneed =>
    rw [Decidable.not_not] at hmagic hversion hneed
    simp only [tuHeaderLen, tuRelocLen, tuExitLen] at hhead hneed
    cases h
    exact
      { form := ⟨by omega, hmagic, hversion, by omega⟩
        isaId := rfl, translatorId := rfl, translatorVersion := rfl, profileId := rfl
        flags := rfl, guestEntryPc := rfl, guestLen := rfl, guestHash := rfl, code := rfl
        relocs := by simp only [List.drop_drop, tuHeaderLen]
        exits := by simp only [List.drop_drop, tuHeaderLen, tuRelocLen] }

/-- The parser accepts exactly these buffers. -/
theorem oryxTuParse_isOk_iff (buf : List Byte) : (∃ tu, oryxTuParse buf = .ok tu) ↔ TuForm buf := by
  constructor
  · rintro ⟨tu, h⟩
    exact (parsedFrom_of_parse h).form
  · intro h
    have hhead : ¬ buf.length < tuHeaderLen := Nat.not_lt.mpr h.header
    have hlen := h.length
    rw [oryxTuParse, dif_neg hhead, if_neg (not_not.mpr h.magic), if_neg (not_not.mpr h.version)]
    dsimp only
    rw [if_neg (by simp only [tuHeaderLen, tuRelocLen, tuExitLen]; omega)]
    exact ⟨_, rfl⟩

/-- **Encoding and decoding**: a unit's bytes have the length of the layout, are written inside
the buffer allocated for them and parse to the unit; and on every buffer the parser stays
inside it and accepts exactly the buffers of the layout. -/
theorem oryxTu_codec :
    (∀ (tu : OryxTu) (b : List Byte), b.length = (tuTotal tu).toNat →
      ∃ bytes, oryxTuSerializeAt b tu = some bytes ∧
        bytes.length = 84 + tu.code.val.length + 16 * tu.relocs.val.length +
          8 * tu.exits.val.length ∧
        oryxTuParseAt bytes (BitVec.ofNat 64 bytes.length) = some (.ok tu)) ∧
    ∀ buf : List Byte, buf.length < 2 ^ 64 →
      ∃ r, oryxTuParseAt buf (BitVec.ofNat 64 buf.length) = some r ∧
        ((∃ tu, r = .ok tu) ↔ TuForm buf) := by
  constructor
  · intro tu b hb
    have hlt := (tuTotal tu).isLt
    refine ⟨oryxTuSerialize tu, oryxTuSerializeAt_eq tu hb, ?_, ?_⟩
    · rw [length_serialize, tuHeaderLen, tuRelocLen, tuExitLen]
      omega
    · rw [toNat_tuTotal] at hlt
      rw [oryxTuParseAt_eq hlt, oryxTuParse_serialize]
  · intro buf hbuf
    exact ⟨oryxTuParse buf, oryxTuParseAt_eq hbuf, oryxTuParse_isOk_iff buf⟩

/-! ### The canonical form -/

section Canonical

variable {buf : List Byte}

theorem take_append_drop_add (k n : Nat) :
    (buf.drop k).take n ++ buf.drop (k + n) = buf.drop k := by
  rw [← List.drop_drop, List.take_append_drop]

theorem putU16_drop {k : Nat} (h : k + 2 ≤ buf.length) :
    putU16 (getU16 (buf.drop k)) ++ buf.drop (k + 2) = buf.drop k := by
  have hget := @putLe_getLe 2 (buf.drop k) (by rw [List.length_drop]; omega)
  rw [putU16, getU16, hget, take_append_drop_add]

theorem putU32_drop {k : Nat} (h : k + 4 ≤ buf.length) :
    putU32 (getU32 (buf.drop k)) ++ buf.drop (k + 4) = buf.drop k := by
  have hget := @putLe_getLe 4 (buf.drop k) (by rw [List.length_drop]; omega)
  rw [putU32, getU32, hget, take_append_drop_add]

theorem putU64_drop {k : Nat} (h : k + 8 ≤ buf.length) :
    putU64 (getU64 (buf.drop k)) ++ buf.drop (k + 8) = buf.drop k := by
  have hget := @putLe_getLe 8 (buf.drop k) (by rw [List.length_drop]; omega)
  rw [putU64, getU64, hget, take_append_drop_add]

theorem putReloc_getReloc {p : List Byte} (h : tuRelocLen ≤ p.length) :
    putReloc (getReloc p) = p.take tuRelocLen := by
  simp only [tuRelocLen] at h
  have h0 := @putU32_drop p 0 (by omega)
  have h4 := @putU32_drop p 4 (by omega)
  have h8 := @putU64_drop p 8 (by omega)
  rw [List.drop_zero] at h0
  have hall : putReloc (getReloc p) ++ p.drop 16 = p.take 16 ++ p.drop 16 := by
    rw [List.take_append_drop]
    simp only [putReloc, getReloc, List.append_assoc, h8, h4, h0]
  exact List.append_cancel_right hall

theorem putU64_getU64 {p : List Byte} (h : tuExitLen ≤ p.length) :
    putU64 (getU64 p) = p.take tuExitLen :=
  putLe_getLe h

/-- The bytes of a parsed unit are the buffer's, with the reserved field zeroed. -/
theorem serialize_of_parsed {tu : OryxTu} (h : ParsedFrom buf tu) :
    oryxTuSerialize tu = buf.take 6 ++ (putU16 0 ++ buf.drop 8) := by
  have hlen := h.form.length
  -- the counts are those of the header
  have hcount : tu.code.count = getU32 (buf.drop 40) := by
    apply Counted.count_eq_iff.mpr
    rw [h.code, List.length_take, List.length_drop]
    omega
  have hrelocCount : tu.relocs.count = getU32 (buf.drop 44) := by
    apply Counted.count_eq_iff.mpr
    rw [h.relocs, length_getRecords]
  have hexitCount : tu.exits.count = getU32 (buf.drop 48) := by
    apply Counted.count_eq_iff.mpr
    rw [h.exits, length_getRecords]
  -- the tails of the buffer, from the last backwards
  have hexits : tu.exits.val.flatMap putU64 =
      buf.drop (84 + (getU32 (buf.drop 40)).toNat + (getU32 (buf.drop 44)).toNat * 16) := by
    rw [h.exits, flatMap_getRecords (fun _ => putU64_getU64)]
    · rw [List.take_of_length_le]
      rw [List.length_drop, tuExitLen]
      omega
    · rw [List.length_drop, tuExitLen]
      omega
  have hrelocs : tu.relocs.val.flatMap putReloc ++ tu.exits.val.flatMap putU64 =
      buf.drop (84 + (getU32 (buf.drop 40)).toNat) := by
    rw [hexits, h.relocs, flatMap_getRecords (fun _ => putReloc_getReloc), tuRelocLen,
      take_append_drop_add]
    rw [List.length_drop, tuRelocLen]
    omega
  have hcode : tu.code.val ++ (tu.relocs.val.flatMap putReloc ++
      tu.exits.val.flatMap putU64) = buf.drop 84 := by
    rw [hrelocs, h.code, take_append_drop_add]
  have hhash : tu.guestHash.val ++ buf.drop 84 = buf.drop 52 := by
    rw [h.guestHash]
    exact take_append_drop_add 52 32
  -- magic and version were checked, the two bytes behind them were not
  have hfront (rest : List Byte) :
      putU32 oryxTuMagic ++ (putU16 oryxTuVersion ++ rest) = buf.take 6 ++ rest := by
    have hsplit : buf.take (4 + 2) = buf.take 4 ++ (buf.drop 4).take 2 := List.take_add
    have hmagic : putU32 (getU32 buf) = buf.take 4 := putLe_getLe (by omega)
    have hversion : putU16 (getU16 (buf.drop 4)) = (buf.drop 4).take 2 :=
      putLe_getLe (by rw [List.length_drop]; omega)
    rw [← h.form.magic, ← h.form.version, hmagic, hversion, hsplit, List.append_assoc]
  rw [oryxTuSerialize, hcode, hhash, tuHeader, h.isaId, h.translatorId, h.translatorVersion,
    h.profileId, h.flags, h.guestEntryPc, h.guestLen, hcount, hrelocCount, hexitCount, hfront,
    @putU32_drop buf 48 (by omega), @putU32_drop buf 44 (by omega),
    @putU32_drop buf 40 (by omega), @putU32_drop buf 36 (by omega),
    @putU64_drop buf 28 (by omega), @putU32_drop buf 24 (by omega),
    @putU32_drop buf 20 (by omega), @putU32_drop buf 16 (by omega),
    @putU32_drop buf 12 (by omega), @putU32_drop buf 8 (by omega)]

/-- The reserved field, which the parser never reads. -/
def tuReserved (buf : List Byte) : U16 := getU16 (buf.drop 6)

/-- A buffer of a unit is pinned by the unit and the reserved field. -/
theorem eq_of_parsed {buf' : List Byte} {tu : OryxTu} (h : ParsedFrom buf tu)
    (h' : ParsedFrom buf' tu) (hres : tuReserved buf' = tuReserved buf) : buf' = buf := by
  have hsplit (b : List Byte) (hb : 84 ≤ b.length) :
      b = b.take 6 ++ (putU16 (tuReserved b) ++ b.drop 8) := by
    rw [tuReserved, @putU16_drop b 6 (by omega), List.take_append_drop]
  have e := (serialize_of_parsed h').symm.trans (serialize_of_parsed h)
  have hhead := h.form.header
  have hhead' := h'.form.header
  obtain ⟨hfront, hrest⟩ := List.append_inj e (by simp only [List.length_take]; omega)
  rw [hsplit buf hhead, hsplit buf' hhead', hres, hfront, List.append_cancel_left hrest]

/-- **When the byte form is canonical**: an accepted buffer is given back by the serializer
exactly when its reserved field is zero, and two buffers of one unit are equal exactly when
their reserved fields are. -/
theorem canonical_iff {buf : List Byte} {tu : OryxTu} (h : oryxTuParse buf = .ok tu) :
    (oryxTuSerialize tu = buf ↔ tuReserved buf = 0) ∧
      ∀ buf', oryxTuParse buf' = .ok tu → (buf' = buf ↔ tuReserved buf' = tuReserved buf) := by
  have hp := parsedFrom_of_parse h
  have hhead := hp.form.header
  refine ⟨⟨?_, ?_⟩, fun buf' h' => ⟨congrArg tuReserved, ?_⟩⟩
  · intro e
    rw [← e, serialize_of_parsed hp, tuReserved, List.drop_left' (by rw [List.length_take]; omega),
      getU16_putU16]
  · intro hres
    have hs := parsedFrom_of_parse (oryxTuParse_serialize tu)
    apply eq_of_parsed hp hs
    rw [hres, serialize_of_parsed hp, tuReserved,
      List.drop_left' (by rw [List.length_take]; omega), getU16_putU16]
  · exact eq_of_parsed hp (parsedFrom_of_parse h')

end Canonical

/-! ### A unit with two byte forms -/

/-- A unit that is only a header. -/
def headerOnlyTu : OryxTu where
  isaId := 1
  translatorId := 1
  translatorVersion := 1
  profileId := 0
  flags := 0
  guestEntryPc := 0x1000
  guestLen := 0
  guestHash := zeroDigest
  code := .empty
  relocs := .empty
  exits := .empty

/-- Its bytes, with the reserved field set to 1. -/
def reservedBytes : List Byte := (oryxTuSerialize headerOnlyTu).set 6 1

/-- The parser takes both byte strings for the same unit. -/
theorem not_canonical_reserved :
    oryxTuParse reservedBytes = .ok headerOnlyTu ∧
      oryxTuParse (oryxTuSerialize headerOnlyTu) = .ok headerOnlyTu ∧
      oryxTuSerialize headerOnlyTu ≠ reservedBytes :=
  ⟨rfl, oryxTuParse_serialize headerOnlyTu, by decide⟩

/-- A unit of one `B.EQ`, with its relocation and the two PCs it may leave to. -/
def branchTu : OryxTu :=
  { headerOnlyTu with
    guestLen := 6
    code := ⟨[0x00, 0x00, 0x00, 0x54], Nat.le_of_ble_eq_true rfl⟩
    relocs := ⟨[⟨0, relocBranchGuestPc, 0x2000⟩], Nat.le_of_ble_eq_true rfl⟩
    exits := ⟨[0x2000, 0x1006], Nat.le_of_ble_eq_true rfl⟩ }

/-- Its bytes are given back, and with the reserved field set they are not. -/
theorem canonical_iff_branch :
    tuReserved (oryxTuSerialize branchTu) = 0 ∧
      oryxTuParse ((oryxTuSerialize branchTu).set 6 1) = .ok branchTu ∧
      oryxTuSerialize branchTu ≠ (oryxTuSerialize branchTu).set 6 1 := by
  have hset : oryxTuParse ((oryxTuSerialize branchTu).set 6 1) = .ok branchTu := by
    decide +kernel
  refine ⟨(canonical_iff (oryxTuParse_serialize branchTu)).1.mp rfl, hset, fun h => ?_⟩
  exact absurd ((canonical_iff hset).1.mp h) (by decide)

theorem oryxTu_codec_branch :
    ∃ bytes, oryxTuSerializeAt (List.replicate 120 0) branchTu = some bytes ∧
      bytes.length = 120 ∧
      oryxTuParseAt bytes (BitVec.ofNat 64 bytes.length) = some (.ok branchTu) :=
  oryxTu_codec.1 branchTu (List.replicate 120 0) (by decide)

end Oryx
