/-
Oryx/Lib/BlockStream.lean

Messages taken in block by block.

A state is folded over the complete blocks of a message, and what does not
fill a block waits.  `Absorbed` relates a message to the state and the waiting
cells it leaves, however it was handed over: cells that still fit wait
(`Absorbed.wait`), cells that fill the block are folded in (`Absorbed.fill`).
The state is then the fold over the blocks of the whole message
(`Absorbed.eq_foldl`).
-/
import Oryx.Lib.Records

namespace Oryx.BlockStream

variable {α σ : Type*}

/-- The complete blocks of a message. -/
def blocksOf (width : Nat) (msg : List α) : List (List α) :=
  getRecords (List.take width) width (msg.length / width) msg

theorem blocksOf_short {width : Nat} {msg : List α} (h : msg.length < width) :
    blocksOf width msg = [] := by
  rw [blocksOf, Nat.div_eq_of_lt h]
  rfl

theorem blocksOf_append {width : Nat} (hpos : 0 < width) {b : List α} (hb : b.length = width)
    (msg : List α) : blocksOf width (b ++ msg) = b :: blocksOf width msg := by
  subst hb
  rw [blocksOf, List.length_append, Nat.add_comm, Nat.add_div_right _ hpos, getRecords,
    List.take_left, List.drop_left]
  rfl

theorem blocksOf_flatten {width : Nat} (hpos : 0 < width) {blocks : List (List α)}
    (hblocks : ∀ b ∈ blocks, b.length = width) {rest : List α} (hrest : rest.length < width) :
    blocksOf width (blocks.flatten ++ rest) = blocks := by
  induction blocks with
  | nil => exact blocksOf_short hrest
  | cons b blocks ih =>
    rw [List.flatten_cons, List.append_assoc, blocksOf_append hpos (hblocks b List.mem_cons_self),
      ih fun c hc => hblocks c (List.mem_cons_of_mem b hc)]

/-! ### Absorbing -/

section Absorb

variable {width : Nat} {compress : σ → List α → σ} {init s : σ} {msg rest xs : List α}

/-- The message leaves the state `s` and the waiting cells `rest`. -/
def Absorbed (width : Nat) (compress : σ → List α → σ) (init : σ) (msg : List α) (s : σ)
    (rest : List α) : Prop :=
  ∃ blocks : List (List α), (∀ b ∈ blocks, b.length = width) ∧ msg = blocks.flatten ++ rest ∧
    s = blocks.foldl compress init

theorem Absorbed.nil : Absorbed width compress init [] init [] := ⟨[], by simp, rfl, rfl⟩

/-- Cells wait until they fill a block. -/
theorem Absorbed.wait (h : Absorbed width compress init msg s rest) (xs : List α) :
    Absorbed width compress init (msg ++ xs) s (rest ++ xs) := by
  obtain ⟨blocks, hblocks, rfl, hs⟩ := h
  exact ⟨blocks, hblocks, List.append_assoc _ _ _, hs⟩

/-- A full block is folded in. -/
theorem Absorbed.fill (h : Absorbed width compress init msg s rest) (hfull : rest.length = width) :
    Absorbed width compress init msg (compress s rest) [] := by
  obtain ⟨blocks, hblocks, rfl, rfl⟩ := h
  refine ⟨blocks ++ [rest], ?_, by simp, by simp⟩
  intro b hb
  rcases List.mem_append.mp hb with hb | hb
  · exact hblocks b hb
  · rw [List.mem_singleton.mp hb]
    exact hfull

/-- **The state is the fold over the blocks of the message.** -/
theorem Absorbed.eq_foldl (h : Absorbed width compress init msg s rest)
    (hrest : rest.length < width) : s = (blocksOf width msg).foldl compress init := by
  obtain ⟨blocks, hblocks, rfl, rfl⟩ := h
  rw [blocksOf_flatten (Nat.zero_lt_of_lt hrest) hblocks hrest]

/-- How many cells wait. -/
theorem Absorbed.length_rest (h : Absorbed width compress init msg s rest)
    (hrest : rest.length < width) : rest.length = msg.length % width := by
  obtain ⟨blocks, hblocks, rfl, -⟩ := h
  have hlen : blocks.flatten.length = blocks.length * width := by
    rw [List.length_flatten, List.map_congr_left hblocks, List.map_const', List.sum_replicate_nat]
  rw [List.length_append, hlen, Nat.add_comm, Nat.add_mul_mod_self_right,
    Nat.mod_eq_of_lt hrest]

end Absorb

end Oryx.BlockStream
