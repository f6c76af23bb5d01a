/-
Oryx/TranslationUnit.lean

Translation units and their canonical bytes: `oryx_tu`, `oryx_tu_serialize`,
`oryx_tu_parse`, and the two names computed from a unit, its logical key and
its content address.

The C structure keeps three arrays beside their 32-bit counts.  Here an array
is a list whose length fits the count field (`Counted`), so a unit whose
counts disagree with its arrays cannot be written down, and the header's
count fields are the lengths.

The main result is `oryxTuParse_serialize`: parsing undoes serializing.
-/
import Oryx.Sha256
import Oryx.Lib.Records

namespace Oryx

/-! ### Errors -/

/-- The `ORYX_ERR_*` codes of `oryxcache.h`. -/
inductive OryxErr where
  | io
  | format
  | integrity
  | notfound
  | inval
  | nomem
  deriving DecidableEq, Repr

/-! ### Little-endian fields -/

def putU16 (v : U16) : List Byte := putLe 2 v
def putU32 (v : U32) : List Byte := putLe 4 v
def putU64 (v : U64) : List Byte := putLe 8 v
def getU16 (p : List Byte) : U16 := getLe 2 p
def getU32 (p : List Byte) : U32 := getLe 4 p
def getU64 (p : List Byte) : U64 := getLe 8 p

@[simp] theorem length_putU16 (v : U16) : (putU16 v).length = 2 := length_putLe 2 v
@[simp] theorem length_putU32 (v : U32) : (putU32 v).length = 4 := length_putLe 4 v
@[simp] theorem length_putU64 (v : U64) : (putU64 v).length = 8 := length_putLe 8 v

@[simp] theorem getU16_putU16 (v : U16) (rest : List Byte) : getU16 (putU16 v ++ rest) = v :=
  getLe_putLe_append 2 v rest

@[simp] theorem getU32_putU32 (v : U32) (rest : List Byte) : getU32 (putU32 v ++ rest) = v :=
  getLe_putLe_append 4 v rest

@[simp] theorem getU64_putU64 (v : U64) (rest : List Byte) : getU64 (putU64 v ++ rest) = v :=
  getLe_putLe_append 8 v rest

theorem drop_putU16 {k : Nat} (v : U16) (rest : List Byte) (h : 2 ≤ k) :
    (putU16 v ++ rest).drop k = rest.drop (k - 2) :=
  drop_putLe_append (n := 2) v rest h

theorem drop_putU32 {k : Nat} (v : U32) (rest : List Byte) (h : 4 ≤ k) :
    (putU32 v ++ rest).drop k = rest.drop (k - 4) :=
  drop_putLe_append (n := 4) v rest h

theorem drop_putU64 {k : Nat} (v : U64) (rest : List Byte) (h : 8 ≤ k) :
    (putU64 v ++ rest).drop k = rest.drop (k - 8) :=
  drop_putLe_append (n := 8) v rest h

theorem putU32_injective {v w : U32} (h : putU32 v = putU32 w) : v = w :=
  putLe_injective (n := 4) h

theorem putU64_injective {v w : U64} (h : putU64 v = putU64 w) : v = w :=
  putLe_injective (n := 8) h

/-! ### Units -/

/-- An array with a 32-bit count. -/
@[ext] structure Counted (α : Type) where
  val : List α
  lt : val.length < 2 ^ 32
  deriving DecidableEq

/-- The count field of an array. -/
def Counted.count {α : Type} (xs : Counted α) : U32 := BitVec.ofNat 32 xs.val.length

@[simp] theorem Counted.toNat_count {α : Type} (xs : Counted α) :
    xs.count.toNat = xs.val.length := by
  rw [Counted.count, BitVec.toNat_ofNat, Nat.mod_eq_of_lt xs.lt]

theorem Counted.count_eq_iff {α : Type} {xs : Counted α} {c : U32} :
    xs.count = c ↔ xs.val.length = c.toNat := by
  rw [← toNat_count]
  exact BitVec.toNat_inj.symm

def Counted.empty {α : Type} : Counted α := ⟨[], Nat.two_pow_pos 32⟩

/-- A digest of nothing but zeros. -/
def zeroDigest : Digest := ⟨List.replicate 32 0, rfl⟩

/-- `ORYX_RELOC_*`. -/
def relocBranchGuestPc : U32 := 2

/-- `oryx_reloc`. -/
structure OryxReloc where
  offset : U32
  kind : U32
  guestTarget : U64
  deriving DecidableEq

/-- `oryx_tu`. -/
@[ext] structure OryxTu where
  isaId : U32
  translatorId : U32
  translatorVersion : U32
  profileId : U32
  flags : U32
  guestEntryPc : U64
  guestLen : U32
  guestHash : Digest
  code : Counted Byte
  relocs : Counted OryxReloc
  exits : Counted U64
  deriving DecidableEq

def oryxTuMagic : U32 := 0x3155544f
def oryxTuVersion : U16 := 1
def tuHeaderLen : Nat := 84
def tuRelocLen : Nat := 16
def tuExitLen : Nat := 8

/-! ### Serializing -/

def putReloc (r : OryxReloc) : List Byte :=
  putU32 r.offset ++ (putU32 r.kind ++ putU64 r.guestTarget)

/-- The header of `oryx_tu_serialize`, up to the guest hash at offset 52. -/
def tuHeader (tu : OryxTu) (rest : List Byte) : List Byte :=
  putU32 oryxTuMagic ++ (putU16 oryxTuVersion ++ (putU16 0 ++ (putU32 tu.isaId ++
    (putU32 tu.translatorId ++ (putU32 tu.translatorVersion ++ (putU32 tu.profileId ++
      (putU32 tu.flags ++ (putU64 tu.guestEntryPc ++ (putU32 tu.guestLen ++
        (putU32 tu.code.count ++ (putU32 tu.relocs.count ++ (putU32 tu.exits.count ++
          rest))))))))))))

/-- `oryx_tu_serialize`. -/
def oryxTuSerialize (tu : OryxTu) : List Byte :=
  tuHeader tu (tu.guestHash.val ++ (tu.code.val ++
    (tu.relocs.val.flatMap putReloc ++ tu.exits.val.flatMap putU64)))

/-! ### Parsing -/

def getReloc (p : List Byte) : OryxReloc where
  offset := getU32 p
  kind := getU32 (p.drop 4)
  guestTarget := getU64 (p.drop 8)

/-- The 32 bytes at an offset that the buffer is long enough for. -/
def digestAt (buf : List Byte) (off : Nat) (h : off + 32 ≤ buf.length) : Digest :=
  ⟨(buf.drop off).take 32, by simp; omega⟩

/-- `oryx_tu_parse`, with every allocation succeeding. -/
def oryxTuParse (buf : List Byte) : Except OryxErr OryxTu :=
  if hlen : buf.length < tuHeaderLen then .error .format
  else if getU32 buf ≠ oryxTuMagic then .error .format
  else if getU16 (buf.drop 4) ≠ oryxTuVersion then .error .format
  else
    let codeLen := getU32 (buf.drop 40)
    let relocCount := getU32 (buf.drop 44)
    let exitCount := getU32 (buf.drop 48)
    let need := tuHeaderLen + codeLen.toNat + relocCount.toNat * tuRelocLen +
      exitCount.toNat * tuExitLen
    if need ≠ buf.length then .error .format
    else
      let p := buf.drop tuHeaderLen
      let relocsAt := p.drop codeLen.toNat
      let exitsAt := relocsAt.drop (relocCount.toNat * tuRelocLen)
      .ok
        { isaId := getU32 (buf.drop 8)
          translatorId := getU32 (buf.drop 12)
          translatorVersion := getU32 (buf.drop 16)
          profileId := getU32 (buf.drop 20)
          flags := getU32 (buf.drop 24)
          guestEntryPc := getU64 (buf.drop 28)
          guestLen := getU32 (buf.drop 36)
          guestHash := digestAt buf 52 (by simp only [tuHeaderLen] at hlen; omega)
          code := ⟨p.take codeLen.toNat,
            Nat.lt_of_le_of_lt (List.length_take_le _ _) codeLen.isLt⟩
          relocs := ⟨getRecords getReloc tuRelocLen relocCount.toNat relocsAt,
            by rw [length_getRecords]; exact relocCount.isLt⟩
          exits := ⟨getRecords getU64 tuExitLen exitCount.toNat exitsAt,
            by rw [length_getRecords]; exact exitCount.isLt⟩ }

/-! ### Names computed from a unit -/

/-- `oryx_content_address`. -/
def oryxContentAddress (buf : List Byte) : List Byte := sha256Hex (sha256 buf)

/-- The 48 bytes `oryx_tu_logical_key` hashes. -/
def logicalKeyPreimage (tu : OryxTu) : List Byte :=
  tu.guestHash.val ++ (putU32 tu.translatorId ++ (putU32 tu.translatorVersion ++
    (putU32 tu.profileId ++ putU32 tu.isaId)))

/-- `oryx_tu_logical_key`. -/
def oryxTuLogicalKey (tu : OryxTu) : List Byte := sha256Hex (sha256 (logicalKeyPreimage tu))

theorem isHex64_contentAddress (buf : List Byte) : isHex64 (oryxContentAddress buf) = true :=
  isHex64_sha256Hex _

theorem isHex64_logicalKey (tu : OryxTu) : isHex64 (oryxTuLogicalKey tu) = true :=
  isHex64_sha256Hex _

/-! ### Parsing undoes serializing -/

@[simp] theorem length_putReloc (r : OryxReloc) : (putReloc r).length = 16 := by
  simp [putReloc]

theorem getReloc_putReloc (r : OryxReloc) (rest : List Byte) :
    getReloc (putReloc r ++ rest) = r := by
  simp [getReloc, putReloc, List.append_assoc, drop_putU32]

@[simp] theorem length_tuHeader (tu : OryxTu) (rest : List Byte) :
    (tuHeader tu rest).length = 52 + rest.length := by
  simp only [tuHeader, List.length_append, length_putU16, length_putU32, length_putU64]
  omega

theorem length_serialize (tu : OryxTu) :
    (oryxTuSerialize tu).length = tuHeaderLen + tu.code.val.length +
      tu.relocs.val.length * tuRelocLen + tu.exits.val.length * tuExitLen := by
  simp only [oryxTuSerialize, length_tuHeader, List.length_append, tu.guestHash.property,
    length_flatMap_of_width length_putReloc, length_flatMap_of_width length_putU64, tuHeaderLen,
    tuRelocLen, tuExitLen]
  omega

theorem drop_tuHeader (tu : OryxTu) (rest : List Byte) : (tuHeader tu rest).drop 52 = rest := by
  simp [tuHeader, drop_putU16, drop_putU32, drop_putU64]

/-- Past the header stand the code, the relocations and the exits. -/
theorem drop_serialize (tu : OryxTu) :
    (oryxTuSerialize tu).drop tuHeaderLen = tu.code.val ++
      (tu.relocs.val.flatMap putReloc ++ tu.exits.val.flatMap putU64) := by
  have h := drop_tuHeader tu (tu.guestHash.val ++ (tu.code.val ++
    (tu.relocs.val.flatMap putReloc ++ tu.exits.val.flatMap putU64)))
  rw [oryxTuSerialize, show tuHeaderLen = 52 + 32 from rfl, ← List.drop_drop, h]
  exact List.drop_left' tu.guestHash.property

/-- Each header field is read back from its offset. -/
theorem tuHeader_fields (tu : OryxTu) (rest : List Byte) :
    getU32 (tuHeader tu rest) = oryxTuMagic ∧
    getU16 ((tuHeader tu rest).drop 4) = oryxTuVersion ∧
    getU32 ((tuHeader tu rest).drop 8) = tu.isaId ∧
    getU32 ((tuHeader tu rest).drop 12) = tu.translatorId ∧
    getU32 ((tuHeader tu rest).drop 16) = tu.translatorVersion ∧
    getU32 ((tuHeader tu rest).drop 20) = tu.profileId ∧
    getU32 ((tuHeader tu rest).drop 24) = tu.flags ∧
    getU64 ((tuHeader tu rest).drop 28) = tu.guestEntryPc ∧
    getU32 ((tuHeader tu rest).drop 36) = tu.guestLen ∧
    getU32 ((tuHeader tu rest).drop 40) = tu.code.count ∧
    getU32 ((tuHeader tu rest).drop 44) = tu.relocs.count ∧
    getU32 ((tuHeader tu rest).drop 48) = tu.exits.count := by
  simp [tuHeader, drop_putU16, drop_putU32, drop_putU64]

/-- **Round trip**: a serialized unit parses to itself. -/
theorem oryxTuParse_serialize (tu : OryxTu) : oryxTuParse (oryxTuSerialize tu) = .ok tu := by
  have hlen := length_serialize tu
  have hge : ¬ (oryxTuSerialize tu).length < tuHeaderLen := by omega
  obtain ⟨h0, h4, h8, h12, h16, h20, h24, h28, h36, h40, h44, h48⟩ :=
    tuHeader_fields tu (tu.guestHash.val ++ (tu.code.val ++
      (tu.relocs.val.flatMap putReloc ++ tu.exits.val.flatMap putU64)))
  have hhash : ((oryxTuSerialize tu).drop 52).take 32 = tu.guestHash.val := by
    rw [oryxTuSerialize, drop_tuHeader]
    exact List.take_left' tu.guestHash.property
  have hrelocs : (tu.code.val ++ (tu.relocs.val.flatMap putReloc ++
      tu.exits.val.flatMap putU64)).drop tu.code.val.length =
        tu.relocs.val.flatMap putReloc ++ tu.exits.val.flatMap putU64 := List.drop_left
  have hexits : (tu.relocs.val.flatMap putReloc ++ tu.exits.val.flatMap putU64).drop
      (tu.relocs.val.length * tuRelocLen) = tu.exits.val.flatMap putU64 :=
    List.drop_left' (length_flatMap_of_width length_putReloc _)
  have hrec : getRecords getReloc tuRelocLen tu.relocs.val.length
      (tu.relocs.val.flatMap putReloc ++ tu.exits.val.flatMap putU64) = tu.relocs.val :=
    getRecords_flatMap length_putReloc getReloc_putReloc _ _
  have hex : getRecords getU64 tuExitLen tu.exits.val.length
      (tu.exits.val.flatMap putU64) = tu.exits.val := by
    have h := getRecords_flatMap length_putU64 getU64_putU64 tu.exits.val []
    rwa [List.append_nil] at h
  rw [← oryxTuSerialize] at h0 h4 h8 h12 h16 h20 h24 h28 h36 h40 h44 h48
  rw [oryxTuParse, dif_neg hge]
  simp only [h0, h4, h8, h12, h16, h20, h24, h28, h36, h40, h44, h48, Counted.toNat_count, hlen,
    ne_eq, not_true_eq_false, if_false, drop_serialize, hrelocs, hexits, hrec, hex, digestAt,
    hhash, List.take_left]

/-- Different units have different bytes. -/
theorem oryxTuSerialize_injective {t u : OryxTu} (h : oryxTuSerialize t = oryxTuSerialize u) :
    t = u := by
  have e := congrArg oryxTuParse h
  rw [oryxTuParse_serialize, oryxTuParse_serialize] at e
  exact Except.ok.inj e

end Oryx
