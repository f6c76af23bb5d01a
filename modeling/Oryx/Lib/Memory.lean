/-
Oryx/Lib/Memory.lean

A flat byte-addressed 64-bit memory and its aligned-or-not 64-bit accesses,
little-endian, with addresses that wrap.  Both instruction sets of a
translation read and write memory through these two functions, so a
simulation between them needs only that they agree on the address; what a
proof about one machine needs is that a store is seen by the load at its
address (`load64_store64_same`) and that two stores there differ when their
values do (`store64_injective`).
-/
import Oryx.Lib.LittleEndian

namespace Oryx

abbrev Addr := BitVec 64

/-- A memory: every address holds a byte. -/
abbrev Mem := Addr → Byte

/-- The eight bytes from `a` up. -/
def bytesAt (m : Mem) (a : Addr) : List Byte :=
  (List.range 8).map fun i => m (a + BitVec.ofNat 64 i)

/-- The 64-bit value at `a`. -/
def load64 (m : Mem) (a : Addr) : BitVec 64 :=
  getLe 8 (bytesAt m a)

/-- Write the 64-bit value `v` at `a`. -/
def store64 (m : Mem) (a : Addr) (v : BitVec 64) : Mem := fun b =>
  match (putLe 8 v)[(b - a).toNat]? with
  | some byte => byte
  | none => m b

theorem bytesAt_store64 (m : Mem) (a : Addr) (v : BitVec 64) :
    bytesAt (store64 m a v) a = putLe 8 v := by
  apply List.ext_getElem?
  intro i
  by_cases hi : i < 8
  · have hoff : (a + BitVec.ofNat 64 i - a).toNat = i := by
      rw [BitVec.add_comm, BitVec.add_sub_cancel, BitVec.toNat_ofNat]
      omega
    have hget : (putLe 8 v)[i]? = some ((putLe 8 v).get ⟨i, by simpa using hi⟩) :=
      List.getElem?_eq_getElem _
    simp only [bytesAt, List.getElem?_map, List.getElem?_range hi, Option.map_some, store64,
      hoff, hget]
  · rw [List.getElem?_eq_none (by simp [bytesAt]; omega),
      List.getElem?_eq_none (by simp; omega)]

/-- A load sees the store made at its address. -/
@[simp] theorem load64_store64_same (m : Mem) (a : Addr) (v : BitVec 64) :
    load64 (store64 m a v) a = v := by
  rw [load64, bytesAt_store64]
  simpa only [List.append_nil] using getLe_putLe_append 8 v []

/-- Stores of different values at one address leave different memories. -/
theorem store64_injective {m : Mem} {a : Addr} {v w : BitVec 64}
    (h : store64 m a v = store64 m a w) : v = w := by
  have e := congrArg (load64 · a) h
  simpa only [load64_store64_same] using e

end Oryx
