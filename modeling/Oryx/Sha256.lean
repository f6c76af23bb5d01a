/-
Oryx/Sha256.lean

The hash of the cache: the streaming SHA-256 of `sha256.c`, and the hex form
in which digests name files.

The context keeps the bytes that do not fill a block yet; that there are
fewer than 64 of them is a field of the type, as `sha256_update` empties the
buffer whenever it is full.  A digest is its 32 bytes, its length again part
of the type.

What the store relies on is only that the hex form is a well-formed file name
(`isHex64_sha256Hex`) and tells digests apart (`sha256Hex_injective`).
-/
import Oryx.Lib.LittleEndian

namespace Oryx

abbrev U16 := BitVec 16
abbrev U32 := BitVec 32
abbrev U64 := BitVec 64

/-! ### The compression function -/

/-- The round constants `K[64]`. -/
def sha256K : List U32 := [
  0x428a2f98, 0x71374491, 0xb5c0fbcf, 0xe9b5dba5, 0x3956c25b, 0x59f111f1, 0x923f82a4, 0xab1c5ed5,
  0xd807aa98, 0x12835b01, 0x243185be, 0x550c7dc3, 0x72be5d74, 0x80deb1fe, 0x9bdc06a7, 0xc19bf174,
  0xe49b69c1, 0xefbe4786, 0x0fc19dc6, 0x240ca1cc, 0x2de92c6f, 0x4a7484aa, 0x5cb0a9dc, 0x76f988da,
  0x983e5152, 0xa831c66d, 0xb00327c8, 0xbf597fc7, 0xc6e00bf3, 0xd5a79147, 0x06ca6351, 0x14292967,
  0x27b70a85, 0x2e1b2138, 0x4d2c6dfc, 0x53380d13, 0x650a7354, 0x766a0abb, 0x81c2c92e, 0x92722c85,
  0xa2bfe8a1, 0xa81a664b, 0xc24b8b70, 0xc76c51a3, 0xd192e819, 0xd6990624, 0xf40e3585, 0x106aa070,
  0x19a4c116, 0x1e376c08, 0x2748774c, 0x34b0bcb5, 0x391c0cb3, 0x4ed8aa4a, 0x5b9cca4f, 0x682e6ff3,
  0x748f82ee, 0x78a5636f, 0x84c87814, 0x8cc70208, 0x90befffa, 0xa4506ceb, 0xbef9a3f7, 0xc67178f2]

/-- The eight state words, also the working variables `a` to `h`. -/
structure Sha256State where
  a : U32
  b : U32
  c : U32
  d : U32
  e : U32
  f : U32
  g : U32
  h : U32
  deriving DecidableEq

/-- `ROR(x, n)`. -/
def ror (x : U32) (n : Nat) : U32 := (x >>> n) ||| (x <<< (32 - n))

/-- Big-endian word `i` of a block. -/
def blockWord (p : List Byte) (i : Nat) : U32 :=
  (p.getD (i * 4) 0).setWidth 32 <<< 24 ||| (p.getD (i * 4 + 1) 0).setWidth 32 <<< 16 |||
    (p.getD (i * 4 + 2) 0).setWidth 32 <<< 8 ||| (p.getD (i * 4 + 3) 0).setWidth 32

/-- `w[i]` for `i ≥ 16`, from the words before it. -/
def nextWord (w : List U32) : U32 :=
  let i := w.length
  let w15 := w.getD (i - 15) 0
  let w2 := w.getD (i - 2) 0
  let s0 := ror w15 7 ^^^ ror w15 18 ^^^ (w15 >>> 3)
  let s1 := ror w2 17 ^^^ ror w2 19 ^^^ (w2 >>> 10)
  w.getD (i - 16) 0 + s0 + w.getD (i - 7) 0 + s1

/-- The message schedule `w[64]` of a block. -/
def schedule (p : List Byte) : List U32 :=
  (List.range 48).foldl (fun w _ => w ++ [nextWord w]) ((List.range 16).map (blockWord p))

/-- One of the 64 rounds, with its constant and schedule word. -/
def sha256Round (s : Sha256State) (kw : U32 × U32) : Sha256State :=
  let S1 := ror s.e 6 ^^^ ror s.e 11 ^^^ ror s.e 25
  let ch := (s.e &&& s.f) ^^^ (~~~s.e &&& s.g)
  let t1 := s.h + S1 + ch + kw.1 + kw.2
  let S0 := ror s.a 2 ^^^ ror s.a 13 ^^^ ror s.a 22
  let maj := (s.a &&& s.b) ^^^ (s.a &&& s.c) ^^^ (s.b &&& s.c)
  let t2 := S0 + maj
  { a := t1 + t2, b := s.a, c := s.b, d := s.c, e := s.d + t1, f := s.e, g := s.f, h := s.g }

/-- `sha256_block`: fold a 64-byte block into the state. -/
def sha256Block (s : Sha256State) (p : List Byte) : Sha256State :=
  let r := (sha256K.zip (schedule p)).foldl sha256Round s
  { a := s.a + r.a, b := s.b + r.b, c := s.c + r.c, d := s.d + r.d
    e := s.e + r.e, f := s.f + r.f, g := s.g + r.g, h := s.h + r.h }

/-! ### The streaming interface -/

/-- `sha256_ctx`, with the buffered bytes as a list. -/
structure Sha256Ctx where
  state : Sha256State
  bitlen : U64
  buf : List Byte
  buf_lt : buf.length < 64

/-- A digest: 32 bytes. -/
abbrev Digest := { d : List Byte // d.length = 32 }

def sha256Init : Sha256Ctx where
  state :=
    { a := 0x6a09e667, b := 0xbb67ae85, c := 0x3c6ef372, d := 0xa54ff53a
      e := 0x510e527f, f := 0x9b05688c, g := 0x1f83d9ab, h := 0x5be0cd19 }
  bitlen := 0
  buf := []
  buf_lt := by decide

/-- The loop of `sha256_update`.  Every pass takes at least one byte, so as
many passes as there are bytes suffice. -/
def sha256UpdateLoop : Nat → Sha256Ctx → List Byte → Sha256Ctx
  | 0, c, _ => c
  | fuel + 1, c, data =>
      if data = [] then c
      else
        let n := min (64 - c.buf.length) data.length
        let buf := c.buf ++ data.take n
        if hfull : buf.length = 64 then
          sha256UpdateLoop fuel
            { c with state := sha256Block c.state buf, buf := [], buf_lt := by decide } (data.drop n)
        else
          have hlt : buf.length < 64 := by
            have := c.buf_lt
            simp only [buf, n, List.length_append, List.length_take] at hfull ⊢
            omega
          sha256UpdateLoop fuel { c with buf := buf, buf_lt := hlt } (data.drop n)

/-- `sha256_update`. -/
def sha256Update (c : Sha256Ctx) (data : List Byte) : Sha256Ctx :=
  sha256UpdateLoop data.length { c with bitlen := c.bitlen + BitVec.ofNat 64 data.length * 8 } data

/-- The bytes of a state word, most significant first. -/
def bigEndian (n : Nat) (v : BitVec (8 * n)) : List Byte := (putLe n v).reverse

/-- `sha256_final`: the pad byte, zeros to 56 mod 64, the bit length. -/
def sha256Final (c : Sha256Ctx) : Digest :=
  let buf := c.buf ++ [0x80]
  let (state, buf) :=
    if buf.length > 56 then
      (sha256Block c.state (buf ++ List.replicate (64 - buf.length) 0), [])
    else (c.state, buf)
  let buf := buf ++ List.replicate (56 - buf.length) 0
  let s := sha256Block state (buf ++ bigEndian 8 c.bitlen)
  ⟨bigEndian 4 s.a ++ bigEndian 4 s.b ++ bigEndian 4 s.c ++ bigEndian 4 s.d ++
      bigEndian 4 s.e ++ bigEndian 4 s.f ++ bigEndian 4 s.g ++ bigEndian 4 s.h,
    by simp [bigEndian]⟩

/-- `sha256`: the one-shot helper. -/
@[irreducible] def sha256 (data : List Byte) : Digest :=
  sha256Final (sha256Update sha256Init data)

/-! ### Hex names -/

/-- `"0123456789abcdef"[n]`. -/
def hexDigit (n : Nat) : Byte :=
  if n < 10 then BitVec.ofNat 8 (0x30 + n) else BitVec.ofNat 8 (0x61 + (n - 10))

/-- The two characters of a byte. -/
def hexByte (b : Byte) : List Byte := [hexDigit (b.toNat / 16), hexDigit (b.toNat % 16)]

/-- `sha256_hex`: the digest in lowercase hex (without the final NUL). -/
def sha256Hex (d : Digest) : List Byte := d.val.flatMap hexByte

/-- A character of lowercase hex. -/
def isHexChar (ch : Byte) : Bool :=
  (0x30 ≤ ch.toNat && ch.toNat ≤ 0x39) || (0x61 ≤ ch.toNat && ch.toNat ≤ 0x66)

/-- `is_hex64` on a C string (given without its NUL). -/
def isHex64 (s : List Byte) : Bool := s.length == 64 && s.all isHexChar

theorem isHexChar_hexDigit {n : Nat} (h : n < 16) : isHexChar (hexDigit n) = true := by
  have key : ∀ n : Fin 16, isHexChar (hexDigit n) = true := by decide
  exact key ⟨n, h⟩

theorem hexDigit_injective {m n : Nat} (hm : m < 16) (hn : n < 16)
    (h : hexDigit m = hexDigit n) : m = n := by
  have key : ∀ m n : Fin 16, hexDigit m = hexDigit n → m = n := by decide
  exact congrArg Fin.val (key ⟨m, hm⟩ ⟨n, hn⟩ h)

theorem length_sha256Hex (d : Digest) : (sha256Hex d).length = 64 := by
  have hpair : (fun b => (hexByte b).length) = fun _ => 2 := rfl
  rw [sha256Hex, List.length_flatMap, hpair, List.map_const', List.sum_replicate_nat, d.property]

/-- A digest in hex is a well-formed name. -/
theorem isHex64_sha256Hex (d : Digest) : isHex64 (sha256Hex d) = true := by
  simp only [isHex64, length_sha256Hex, beq_self_eq_true, Bool.true_and, List.all_eq_true]
  intro ch hch
  obtain ⟨b, -, hb⟩ := List.mem_flatMap.mp hch
  have hlt : b.toNat < 256 := b.isLt
  simp only [hexByte, List.mem_cons, List.not_mem_nil, or_false] at hb
  rcases hb with rfl | rfl
  · exact isHexChar_hexDigit (by omega)
  · exact isHexChar_hexDigit (by omega)

theorem flatMap_hexByte_injective {xs ys : List Byte}
    (h : xs.flatMap hexByte = ys.flatMap hexByte) : xs = ys := by
  induction xs generalizing ys with
  | nil =>
    cases ys with
    | nil => rfl
    | cons y ys => simp [hexByte] at h
  | cons x xs ih =>
    cases ys with
    | nil => simp [hexByte] at h
    | cons y ys =>
      simp only [List.flatMap_cons, hexByte, List.cons_append, List.nil_append,
        List.cons.injEq] at h
      obtain ⟨hhi, hlo, hrest⟩ := h
      have hx : x.toNat < 256 := x.isLt
      have hy : y.toNat < 256 := y.isLt
      have e1 := hexDigit_injective (by omega) (by omega) hhi
      have e2 := hexDigit_injective (by omega) (by omega) hlo
      have exy : x = y := by
        apply BitVec.eq_of_toNat_eq
        omega
      rw [exy, ih hrest]

/-- Different digests have different names. -/
theorem sha256Hex_injective {d e : Digest} (h : sha256Hex d = sha256Hex e) : d = e :=
  Subtype.ext (flatMap_hexByte_injective h)

end Oryx
