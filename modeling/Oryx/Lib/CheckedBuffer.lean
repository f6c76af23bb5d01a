/-
Oryx/Lib/CheckedBuffer.lean

Reads and writes of a byte buffer at offsets, each checked against the
buffer's bounds: `none` is an access outside it, which in C has no meaning.

A codec written with offsets is compared with its list form in two steps.
Reading: an access inside the buffer gives the bytes at its offset
(`readLe_eq`, `readRecords_eq`).  Writing: writes that stand back to back fill
the buffer from the left and lay their bytes side by side, whatever the
buffer held before (`writeAll_backToBack`).
-/
import Oryx.Lib.LittleEndian
import Oryx.Lib.Records

namespace Oryx

/-! ### Reads -/

/-- The `n` bytes from `off` on. -/
def readBytes (buf : List Byte) (off n : Nat) : Option {bs : List Byte // bs.length = n} :=
  if h : off + n ≤ buf.length then
    some ⟨(buf.drop off).take n, by rw [List.length_take, List.length_drop]; omega⟩
  else none

/-- The little-endian integer of `n` bytes at `off`. -/
def readLe (n : Nat) (buf : List Byte) (off : Nat) : Option (BitVec (8 * n)) :=
  (readBytes buf off n).map fun bs => getLe n bs.val

/-- `n` records read by `get`, the first at `off` and each `len` bytes after the last. -/
def readRecords {α : Type*} (get : Nat → Option α) (len : Nat) :
    (n : Nat) → Nat → Option {xs : List α // xs.length = n}
  | 0, _ => some ⟨[], rfl⟩
  | n + 1, off =>
      (get off).bind fun x =>
        (readRecords get len n (off + len)).map fun xs => ⟨x :: xs.val, by simp [xs.property]⟩

theorem readBytes_eq {buf : List Byte} {off n : Nat} (h : off + n ≤ buf.length) :
    readBytes buf off n =
      some ⟨(buf.drop off).take n, by rw [List.length_take, List.length_drop]; omega⟩ :=
  dif_pos h

theorem getLe_take (n : Nat) (buf : List Byte) : getLe n (buf.take n) = getLe n buf := by
  rw [getLe, getLe, List.take_take, Nat.min_self]

theorem readLe_eq {n : Nat} {buf : List Byte} {off : Nat} (h : off + n ≤ buf.length) :
    readLe n buf off = some (getLe n (buf.drop off)) := by
  rw [readLe, readBytes_eq h, Option.map_some, getLe_take]

/-- A loop of reads inside the buffer reads the records of its section. -/
theorem readRecords_eq {α : Type*} {buf : List Byte} {read : Nat → Option α}
    {get : List Byte → α} {len : Nat}
    (hread : ∀ off, off + len ≤ buf.length → read off = some (get (buf.drop off)))
    {n off : Nat} (h : off + n * len ≤ buf.length) :
    readRecords read len n off =
      some ⟨getRecords get len n (buf.drop off), length_getRecords get len n _⟩ := by
  induction n generalizing off with
  | zero => rfl
  | succ n ih =>
    rw [Nat.succ_mul] at h
    have htail := @ih (off + len) (by omega)
    simp only [readRecords, hread off (by omega), Option.bind_some, htail, Option.map_some,
      getRecords, List.drop_drop]

/-- A computation goes on with the value of an access that succeeds. -/
theorem bind_of_eq_some {α β : Type} {x : Option α} {a : α} {f : α → Option β}
    (h : x = some a) : (x >>= f) = f a := by
  rw [h]
  rfl

/-! ### Writes -/

/-- Write `bs` at `off`. -/
def writeAt (buf : List Byte) (off : Nat) (bs : List Byte) : Option (List Byte) :=
  if off + bs.length ≤ buf.length then
    some (buf.take off ++ (bs ++ buf.drop (off + bs.length)))
  else none

/-- Several writes, one after the other. -/
def writeAll (buf : List Byte) : List (Nat × List Byte) → Option (List Byte)
  | [] => some buf
  | (off, bs) :: ws => (writeAt buf off bs).bind fun buf' => writeAll buf' ws

/-- The bytes of the writes, side by side. -/
def writtenBytes (ws : List (Nat × List Byte)) : List Byte := ws.flatMap Prod.snd

/-- The writes stand back to back from `off` on. -/
def BackToBack : Nat → List (Nat × List Byte) → Prop
  | _, [] => True
  | off, (o, bs) :: ws => o = off ∧ BackToBack (off + bs.length) ws

theorem BackToBack.append {off : Nat} {ws ws' : List (Nat × List Byte)}
    (h : BackToBack off ws) (h' : BackToBack (off + (writtenBytes ws).length) ws') :
    BackToBack off (ws ++ ws') := by
  induction ws generalizing off with
  | nil => simpa [writtenBytes] using h'
  | cons w ws ih =>
    obtain ⟨o, bs⟩ := w
    obtain ⟨ho, hws⟩ := h
    refine ⟨ho, ih hws ?_⟩
    simpa [writtenBytes, Nat.add_assoc] using h'

theorem writtenBytes_append (ws ws' : List (Nat × List Byte)) :
    writtenBytes (ws ++ ws') = writtenBytes ws ++ writtenBytes ws' :=
  List.flatMap_append

/-- A write right after a prefix extends the prefix. -/
theorem writeAt_prefix {pre rest bs : List Byte} (h : bs.length ≤ rest.length) :
    writeAt (pre ++ rest) pre.length bs = some ((pre ++ bs) ++ rest.drop bs.length) := by
  rw [writeAt, if_pos (by rw [List.length_append]; omega), List.take_left,
    List.drop_length_add_append, List.append_assoc]

/-- **Writes back to back** lay their bytes side by side. -/
theorem writeAll_backToBack {ws : List (Nat × List Byte)} {pre rest : List Byte}
    (h : BackToBack pre.length ws) (hlen : (writtenBytes ws).length ≤ rest.length) :
    writeAll (pre ++ rest) ws =
      some ((pre ++ writtenBytes ws) ++ rest.drop (writtenBytes ws).length) := by
  induction ws generalizing pre rest with
  | nil => simp [writeAll, writtenBytes]
  | cons w ws ih =>
    obtain ⟨o, bs⟩ := w
    obtain ⟨rfl, hws⟩ := h
    have hcons : writtenBytes ((pre.length, bs) :: ws) = bs ++ writtenBytes ws :=
      List.flatMap_cons
    rw [hcons, List.length_append] at hlen
    have htail := @ih (pre ++ bs) (rest.drop bs.length) (by rwa [List.length_append])
      (by rw [List.length_drop]; omega)
    rw [writeAll, writeAt_prefix (by omega), Option.bind_some, htail, hcons, List.drop_drop,
      List.length_append]
    simp only [List.append_assoc]

/-- Writes back to back that fill the buffer leave only their own bytes. -/
theorem writeAll_fill {ws : List (Nat × List Byte)} {buf : List Byte}
    (h : BackToBack 0 ws) (hlen : buf.length = (writtenBytes ws).length) :
    writeAll buf ws = some (writtenBytes ws) := by
  have hall := @writeAll_backToBack ws [] buf h (Nat.le_of_eq hlen.symm)
  rw [List.drop_of_length_le (Nat.le_of_eq hlen)] at hall
  simpa using hall

end Oryx
