/-
Oryx/Linking.lean

Linking a unit: `oryx_exec_map_linked` copies the code, appends the exit
stubs and points the terminator's branch at its stub.

The mapping is the list of its code bytes; it always succeeds to be made
writable and then executable, and its page rounding is left out.  All writes
of the linker are 32-bit writes at 4-aligned offsets, so it is proved on words
(`wr32_words`): `linked_jmp`, `linked_br` and `linked_ret` give the linked
words of the three kinds of units the translator builds.
-/
import Oryx.Lowering

namespace Oryx

open A64

/-! ### The linker -/

def aarch64Ret : Word := 0xD65F03C0

/-- `STUB_REG` and `STUB_BYTES`. -/
def stubReg : Word := 17
def stubBytes : Nat := 20

def rd32 (m : List Byte) (off : Nat) : U32 := getU32 (m.drop off)

def wr32 (m : List Byte) (off : Nat) (v : U32) : List Byte :=
  m.take off ++ (putU32 v ++ m.drop (off + 4))

/-- `emit_setpc_ret`: `MOVZ`, three `MOVK` and `RET` at `dst`. -/
def emitSetpcRet (m : List Byte) (dst : Nat) (pc : U64) : List Byte :=
  let m := wr32 m dst ((0xD2800000 : Word) ||| (pc &&& 0xffff).setWidth 32 <<< 5 ||| stubReg)
  let m := wr32 m (dst + 4)
    ((0xF2800000 : Word) ||| (1 : Word) <<< 21 ||| ((pc >>> 16) &&& 0xffff).setWidth 32 <<< 5 |||
      stubReg)
  let m := wr32 m (dst + 8)
    ((0xF2800000 : Word) ||| (2 : Word) <<< 21 ||| ((pc >>> 32) &&& 0xffff).setWidth 32 <<< 5 |||
      stubReg)
  let m := wr32 m (dst + 12)
    ((0xF2800000 : Word) ||| (3 : Word) <<< 21 ||| ((pc >>> 48) &&& 0xffff).setWidth 32 <<< 5 |||
      stubReg)
  wr32 m (dst + 16) aarch64Ret

/-- `patch_branch`. -/
def patchBranch (m : List Byte) (siteOff toOff : U32) : List Byte :=
  let insn := rd32 m siteOff.toNat
  let imm := (toOff - siteOff).sdiv 4
  if insn &&& 0xFF000000 = 0x14000000 then
    wr32 m siteOff.toNat ((0x14000000 : Word) ||| (imm &&& 0x03FFFFFF))
  else
    wr32 m siteOff.toNat ((0x54000000 : Word) ||| (imm &&& 0x7FFFF) <<< 5 ||| (insn &&& 0xf))

/-- `oryx_exec`: the `code_len` bytes of the mapping. -/
structure OryxExec where
  code : List Byte
  deriving DecidableEq

/-- `oryx_exec_map_linked`. -/
def oryxExecMapLinked (tu : OryxTu) : Except OryxErr OryxExec :=
  let codeLen := tu.code.count
  if codeLen = 0 then .error .inval
  else if codeLen &&& 3 ≠ 0 then .error .format
  else
    match tu.relocs.val with
    | [] =>
        if rd32 tu.code.val (codeLen.toNat - 4) ≠ aarch64Ret then .error .inval
        else .ok ⟨tu.code.val⟩
    | [r] =>
        if r.kind ≠ relocBranchGuestPc ∨ r.offset + 4 ≠ codeLen then .error .format
        else
          match tu.exits.val with
          | [] => .error .format
          | [_] =>
              -- JMP: one taken stub after the body
              let m := tu.code.val ++ List.replicate stubBytes 0
              let m := emitSetpcRet m codeLen.toNat r.guestTarget
              .ok ⟨patchBranch m r.offset codeLen⟩
          | _ :: fallThrough :: _ =>
              -- BR: fall-through then taken stub
              let m := tu.code.val ++ List.replicate (2 * stubBytes) 0
              let taken := codeLen + BitVec.ofNat 32 stubBytes
              let m := emitSetpcRet m codeLen.toNat fallThrough
              let m := emitSetpcRet m taken.toNat r.guestTarget
              .ok ⟨patchBranch m r.offset taken⟩
    | _ :: _ :: _ => .error .inval

/-- The words of an executable mapping. -/
def OryxExec.words (e : OryxExec) : List Word := getRecords getU32 4 (e.code.length / 4) e.code

/-! ### Words of a mapping -/

/-- The bytes of a word list. -/
def wordBytes (ws : List Word) : List Byte := ws.flatMap putU32

theorem wordBytes_append (ws ws' : List Word) :
    wordBytes (ws ++ ws') = wordBytes ws ++ wordBytes ws' := List.flatMap_append

theorem length_wordBytes (ws : List Word) : (wordBytes ws).length = 4 * ws.length := by
  rw [wordBytes, length_flatMap_of_width length_putU32, Nat.mul_comm]

theorem words_wordBytes (ws : List Word) : OryxExec.words ⟨wordBytes ws⟩ = ws := by
  have h := getRecords_flatMap length_putU32 getU32_putU32 ws []
  rw [List.append_nil] at h
  rw [OryxExec.words]
  simp only [length_wordBytes, Nat.mul_div_cancel_left _ (show 0 < 4 by decide)]
  exact h

theorem rd32_words {ws : List Word} {k : Nat} {w : Word} (h : ws[k]? = some w) :
    rd32 (wordBytes ws) (4 * k) = w := by
  obtain ⟨hk, hw⟩ := List.getElem?_eq_some_iff.mp h
  rw [rd32, wordBytes, drop_flatMap_of_width length_putU32, List.drop_eq_getElem_cons hk, hw,
    List.flatMap_cons, getU32_putU32]

/-- A 32-bit write sets a word. -/
theorem wr32_words {ws : List Word} {k : Nat} (h : k < ws.length) (v : Word) :
    wr32 (wordBytes ws) (4 * k) v = wordBytes (ws.set k v) := by
  rw [wr32, wordBytes, take_flatMap_of_width length_putU32,
    show 4 * k + 4 = 4 * (k + 1) from rfl, drop_flatMap_of_width length_putU32,
    List.set_eq_take_append_cons_drop, if_pos h, wordBytes, List.flatMap_append, List.flatMap_cons]

theorem zeros_words (n : Nat) : List.replicate (4 * n) (0 : Byte) = wordBytes (List.replicate n 0) := by
  induction n with
  | zero => rfl
  | succ n ih =>
    rw [List.replicate_succ, wordBytes, List.flatMap_cons, ← wordBytes, ← ih]
    rfl

/-! ### Stubs -/

/-- The words of a stub that hands `pc` to the dispatcher. -/
def setpcWords (pc : U64) : List Word :=
  [encMovz oryxNextpc ((pc &&& 0xffff).setWidth 32) 0,
    encMovk oryxNextpc ((pc >>> 16 &&& 0xffff).setWidth 32) 1,
    encMovk oryxNextpc ((pc >>> 32 &&& 0xffff).setWidth 32) 2,
    encMovk oryxNextpc ((pc >>> 48 &&& 0xffff).setWidth 32) 3, aarch64Ret]

/-- The instructions of a stub. -/
def setpcInsns (pc : U64) : List Insn :=
  [.moveWide false 17 (lane pc 0) 0, .moveWide true 17 (lane pc 1) 1,
    .moveWide true 17 (lane pc 2) 2, .moveWide true 17 (lane pc 3) 3, .ret 30]

theorem decode_setpcWords (pc : U64) : DecodesTo (setpcWords pc) (setpcInsns pc) := by
  have hreg : oryxNextpc.toNat < 32 := by decide
  have h0 := decode_encMovz hreg ((pc >>> (16 * 0) &&& 0xffff).setWidth 32)
    (show (0 : CInt).toNat < 4 by decide)
  have h1 := decode_encMovk hreg ((pc >>> (16 * 1) &&& 0xffff).setWidth 32)
    (show (1 : CInt).toNat < 4 by decide)
  have h2 := decode_encMovk hreg ((pc >>> (16 * 2) &&& 0xffff).setWidth 32)
    (show (2 : CInt).toNat < 4 by decide)
  have h3 := decode_encMovk hreg ((pc >>> (16 * 3) &&& 0xffff).setWidth 32)
    (show (3 : CInt).toNat < 4 by decide)
  rw [maskedLane_setWidth] at h0 h1 h2 h3
  exact .cons h0 (.cons h1 (.cons h2 (.cons h3 (.one decode_encRet))))

/-- A lane is already masked. -/
theorem maskedLane_and (v : U64) (hw : Nat) :
    ((v >>> hw &&& 0xffff).setWidth 32 : U32) &&& 0xffff = (v >>> hw &&& 0xffff).setWidth 32 := by
  apply BitVec.eq_of_toNat_eq
  have hand : (v >>> hw &&& 0xffff).toNat = (v >>> hw).toNat % 2 ^ 16 := by
    rw [BitVec.toNat_and]
    exact Nat.and_two_pow_sub_one_eq_mod _ 16
  rw [and_ffff_toNat, BitVec.toNat_setWidth, hand]
  omega

/-- A 32-bit write behind a prefix. -/
theorem wr32_behind (ws : List Word) {old : List Word} {k off : Nat}
    (hoff : off = 4 * (ws.length + k)) (hk : k < old.length) (v : Word) :
    wr32 (wordBytes (ws ++ old)) off v = wordBytes (ws ++ old.set k v) := by
  rw [hoff, wr32_words (by rw [List.length_append]; omega),
    List.set_append_right (ws.length + k) v (Nat.le_add_right _ k), Nat.add_sub_cancel_left]

/-- The words `emit_setpc_ret` computes. -/
theorem setpcWords_eq (pc : U64) : setpcWords pc =
    [(0xD2800000 : Word) ||| (pc &&& 0xffff).setWidth 32 <<< 5 ||| stubReg,
      (0xF2800000 : Word) ||| (1 : Word) <<< 21 ||| ((pc >>> 16) &&& 0xffff).setWidth 32 <<< 5 |||
        stubReg,
      (0xF2800000 : Word) ||| (2 : Word) <<< 21 ||| ((pc >>> 32) &&& 0xffff).setWidth 32 <<< 5 |||
        stubReg,
      (0xF2800000 : Word) ||| (3 : Word) <<< 21 ||| ((pc >>> 48) &&& 0xffff).setWidth 32 <<< 5 |||
        stubReg,
      aarch64Ret] := by
  have h0 : ((pc &&& 0xffff).setWidth 32 : U32) &&& 0xffff = (pc &&& 0xffff).setWidth 32 :=
    maskedLane_and pc 0
  have h1 := maskedLane_and pc 16
  have h2 := maskedLane_and pc 32
  have h3 := maskedLane_and pc 48
  simp only [setpcWords, encMovz, encMovk, encWide, h0, h1, h2, h3]
  rfl

/-- **A stub is written as a whole.** -/
theorem emitSetpcRet_words (ws : List Word) {old rest : List Word} {dst : Nat}
    (hdst : dst = 4 * ws.length) (hold : old.length = 5) (pc : U64) :
    emitSetpcRet (wordBytes (ws ++ (old ++ rest))) dst pc =
      wordBytes (ws ++ (setpcWords pc ++ rest)) := by
  match old, hold with
  | [a, b, c, d, e], _ =>
    unfold emitSetpcRet
    dsimp only
    rw [wr32_behind ws (k := 0) hdst (by simp),
      wr32_behind ws (k := 1) (by omega) (by simp),
      wr32_behind ws (k := 2) (by omega) (by simp),
      wr32_behind ws (k := 3) (by omega) (by simp),
      wr32_behind ws (k := 4) (by omega) (by simp), setpcWords_eq]
    rfl

/-! ### Branches -/

section Patch

variable (ws rest : List Word) {site dest : U32}

theorem rd32_site (w : Word) (hsite : site.toNat = 4 * ws.length) :
    rd32 (wordBytes (ws ++ w :: rest)) site.toNat = w := by
  rw [hsite]
  exact rd32_words (by simp)

/-- The word written over the branch. -/
theorem wr32_site (w v : Word) (hsite : site.toNat = 4 * ws.length) :
    wr32 (wordBytes (ws ++ w :: rest)) site.toNat v = wordBytes (ws ++ v :: rest) :=
  wr32_behind ws (k := 0) hsite (by simp) v

/-- The word `patch_branch` writes over `w`, for a displacement of `imm` words. -/
def patchedWord (w imm : Word) : Word :=
  if w &&& 0xFF000000 = 0x14000000 then (0x14000000 : Word) ||| (imm &&& 0x03FFFFFF)
  else (0x54000000 : Word) ||| (imm &&& 0x7FFFF) <<< 5 ||| (w &&& 0xf)

theorem patchBranch_words (w : Word) (hsite : site.toNat = 4 * ws.length) :
    patchBranch (wordBytes (ws ++ w :: rest)) site dest =
      wordBytes (ws ++ patchedWord w ((dest - site).sdiv 4) :: rest) := by
  have hrd := rd32_site ws rest w hsite
  unfold patchBranch patchedWord
  dsimp only
  rw [hrd]
  split <;> rw [wr32_site ws rest w _ hsite]

/-- A conditional branch over the fall-through stub. -/
def patchedBcond (cond : CInt) : Word :=
  (0x54000000 : Word) ||| (6 &&& 0x7FFFF) <<< 5 ||| (encBcond cond &&& 0xf)

theorem armCond_cases (cc : CInt) : armCond cc = 0 ∨ armCond cc = 1 ∨ armCond cc = 10 ∨
    armCond cc = 11 ∨ armCond cc = 12 ∨ armCond cc = 13 ∨ armCond cc = 14 := by
  unfold armCond
  grind

theorem decode_patchedBcond (cc : CInt) :
    decode (patchedBcond (armCond cc)) = some (.bcond (xcond (armCond cc)) 6) := by
  rcases armCond_cases cc with h | h | h | h | h | h | h <;> rw [h] <;> decide

theorem patchedWord_bcond (cc : CInt) :
    patchedWord (encBcond (armCond cc)) 6 = patchedBcond (armCond cc) := by
  have hkind : encBcond (armCond cc) &&& 0xFF000000 ≠ (0x14000000 : Word) := by
    rcases armCond_cases cc with h | h | h | h | h | h | h <;> rw [h] <;> decide
  exact if_neg hkind

end Patch

/-! ### Linked units -/

section Link

variable {tu : OryxTu} {r : OryxReloc} {ws : List Word} {w : Word} {tgt : U64}

/-- The length checks of a unit made of words. -/
theorem codeLen_ok (hcode : tu.code.val = wordBytes (ws ++ [w])) :
    tu.code.count.toNat = 4 * (ws.length + 1) ∧ tu.code.count ≠ 0 ∧ tu.code.count &&& 3 = 0 := by
  have hlen : tu.code.count.toNat = 4 * (ws.length + 1) := by
    rw [Counted.toNat_count, hcode, length_wordBytes, List.length_append, List.length_singleton]
  refine ⟨hlen, ?_, ?_⟩
  · intro h0
    rw [h0] at hlen
    simp at hlen
  · apply BitVec.eq_of_toNat_eq
    have hand : (tu.code.count &&& 3).toNat = tu.code.count.toNat % 2 ^ 2 := by
      rw [BitVec.toNat_and]
      exact Nat.and_two_pow_sub_one_eq_mod _ 2
    rw [hand, hlen]
    show 4 * (ws.length + 1) % 4 = 0
    omega

/-- The relocation the translator records for its branch passes the check. -/
theorem reloc_ok (hcode : tu.code.val = wordBytes (ws ++ [w])) :
    (BitVec.ofNat 32 (4 * ws.length)).toNat = 4 * ws.length ∧
      BitVec.ofNat 32 (4 * ws.length) + 4 = tu.code.count := by
  have hlen := (codeLen_ok hcode).1
  have hlt := tu.code.count.isLt
  have hsite : (BitVec.ofNat 32 (4 * ws.length)).toNat = 4 * ws.length := by
    rw [BitVec.toNat_ofNat]
    omega
  refine ⟨hsite, ?_⟩
  apply BitVec.eq_of_toNat_eq
  rw [BitVec.toNat_add, hsite, hlen]
  show (4 * ws.length + 4) % 2 ^ 32 = _
  omega

/-- The checks of the linker on a unit with the one relocation `r`. -/
structure OneBranch (tu : OryxTu) (r : OryxReloc) : Prop where
  nonempty : tu.code.count ≠ 0
  aligned : tu.code.count &&& 3 = 0
  relocs : tu.relocs.val = [r]
  kind : r.kind = relocBranchGuestPc
  site : r.offset + 4 = tu.code.count
  exits : tu.exits.val ≠ []

theorem OneBranch.checks (h : OneBranch tu r) :
    ¬ (r.kind ≠ relocBranchGuestPc ∨ r.offset + 4 ≠ tu.code.count) := by
  rintro (hno | hno)
  · exact hno h.kind
  · exact hno h.site

/-- The relocation is at the last word. -/
theorem OneBranch.site_eq (h : OneBranch tu r) (hcode : tu.code.val = wordBytes (ws ++ [w])) :
    r.offset = BitVec.ofNat 32 (4 * ws.length) ∧ r.offset.toNat = 4 * ws.length := by
  obtain ⟨hsite, hend⟩ := reloc_ok hcode
  have hoff : r.offset = BitVec.ofNat 32 (4 * ws.length) :=
    (BitVec.add_left_inj _).mp (h.site.trans hend.symm)
  exact ⟨hoff, hoff ▸ hsite⟩

/-- One exit: a stub for the guest target behind the branch. -/
theorem OneBranch.linked_one (h : OneBranch tu r) (hcode : tu.code.val = wordBytes (ws ++ [w]))
    {e : U64} (hexits : tu.exits.val = [e]) :
    oryxExecMapLinked tu =
      .ok ⟨wordBytes (ws ++ patchedWord w 1 :: setpcWords r.guestTarget)⟩ := by
  obtain ⟨hlen, -, -⟩ := codeLen_ok hcode
  obtain ⟨hoff, hsite⟩ := h.site_eq hcode
  have hstub : emitSetpcRet (tu.code.val ++ List.replicate stubBytes 0) tu.code.count.toNat
      r.guestTarget = wordBytes (ws ++ w :: setpcWords r.guestTarget) := by
    have hzero : List.replicate stubBytes (0 : Byte) = wordBytes (List.replicate 5 0) :=
      zeros_words 5
    have hw := @emitSetpcRet_words (ws ++ [w]) (List.replicate 5 0) [] tu.code.count.toNat
      (by rw [hlen]; simp) List.length_replicate r.guestTarget
    rw [hcode, hzero, ← wordBytes_append]
    simpa using hw
  -- the branch is repointed to the next word
  have hto : tu.code.count - r.offset = 4 := by
    rw [← h.site, BitVec.add_comm, BitVec.add_sub_cancel]
  unfold oryxExecMapLinked
  rw [if_neg h.nonempty, if_neg (not_not_intro h.aligned), h.relocs]
  dsimp only
  rw [if_neg h.checks, hexits]
  dsimp only
  rw [hstub, patchBranch_words ws _ w hsite, hto]
  rfl

/-- The taken stub stands behind the fall-through stub when its offset fits in 32 bits; otherwise
the offset wraps into the first words of the code. -/
theorem taken_stub {len : U32} (hlen : len.toNat = 4 * (ws.length + 1)) (ft tgt : U64) :
    ∃ front back, emitSetpcRet (wordBytes (ws ++ w :: (setpcWords ft ++ List.replicate 5 0)))
        (len + BitVec.ofNat 32 stubBytes).toNat tgt =
        wordBytes (front ++ w :: (setpcWords ft ++ back)) ∧ front.length = ws.length ∧
      (len.toNat + 20 < 2 ^ 32 → front = ws ∧ back = setpcWords tgt) ∧
      (2 ^ 32 ≤ len.toNat + 20 → back = List.replicate 5 0) := by
  have htaken : (len + BitVec.ofNat 32 stubBytes).toNat = (len.toNat + 20) % 2 ^ 32 := by
    rw [BitVec.toNat_add]
    rfl
  by_cases hroom : len.toNat + 20 < 2 ^ 32
  · -- the stub stands behind the other one
    refine ⟨ws, setpcWords tgt, ?_, rfl, fun _ => ⟨rfl, rfl⟩, fun hno => by omega⟩
    have hw := @emitSetpcRet_words (ws ++ [w] ++ setpcWords ft) (List.replicate 5 0) []
      (len + BitVec.ofNat 32 stubBytes).toNat
      (by rw [htaken, Nat.mod_eq_of_lt hroom, hlen]; simp [setpcWords]; omega)
      List.length_replicate tgt
    simpa using hw
  · -- the offset wraps, and the stub overwrites code
    have hlt := len.isLt
    obtain ⟨k, hk⟩ : ∃ k, len.toNat + 20 = 2 ^ 32 + 4 * k := ⟨ws.length + 6 - 2 ^ 30, by omega⟩
    have hsplit : ws = ws.take k ++ ((ws.drop k).take 5 ++ ws.drop (k + 5)) := by
      rw [← List.drop_drop, List.take_append_drop, List.take_append_drop]
    refine ⟨ws.take k ++ (setpcWords tgt ++ ws.drop (k + 5)), List.replicate 5 0, ?_, ?_,
      fun hno => absurd hno hroom, fun _ => rfl⟩
    · have hw := @emitSetpcRet_words (ws.take k) ((ws.drop k).take 5)
        (ws.drop (k + 5) ++ w :: (setpcWords ft ++ List.replicate 5 0))
        (len + BitVec.ofNat 32 stubBytes).toNat
        (by rw [htaken, hk, List.length_take]; omega)
        (by rw [List.length_take, List.length_drop]; omega) tgt
      have hcode : ws ++ w :: (setpcWords ft ++ List.replicate 5 0) = ws.take k ++
          ((ws.drop k).take 5 ++ (ws.drop (k + 5) ++ w :: (setpcWords ft ++ List.replicate 5 0))) := by
        conv_lhs => rw [hsplit]
        simp only [List.append_assoc]
      rw [hcode, hw]
      simp only [List.append_assoc]
    · simp [setpcWords]
      omega

/-- Two exits: the branch, the stub of the fall-through exit, and five words in which the taken
stub stands when its offset fits in 32 bits. -/
theorem OneBranch.linked_two (h : OneBranch tu r) (hcode : tu.code.val = wordBytes (ws ++ [w]))
    {e ft : U64} {rest : List U64} (hexits : tu.exits.val = e :: ft :: rest) :
    ∃ front back, oryxExecMapLinked tu =
        .ok ⟨wordBytes (front ++ patchedWord w 6 :: (setpcWords ft ++ back))⟩ ∧
      front.length = ws.length ∧
      (tu.code.count.toNat + 20 < 2 ^ 32 → front = ws ∧ back = setpcWords r.guestTarget) ∧
      (2 ^ 32 ≤ tu.code.count.toNat + 20 → back = List.replicate 5 0) := by
  obtain ⟨hlen, -, -⟩ := codeLen_ok hcode
  obtain ⟨hoff, hsite⟩ := h.site_eq hcode
  have hft : emitSetpcRet (tu.code.val ++ List.replicate (2 * stubBytes) 0) tu.code.count.toNat ft =
      wordBytes (ws ++ w :: (setpcWords ft ++ List.replicate 5 0)) := by
    have hzero : List.replicate (2 * stubBytes) (0 : Byte) =
        wordBytes (List.replicate 5 0 ++ List.replicate 5 0) := zeros_words 10
    have hw := @emitSetpcRet_words (ws ++ [w]) (List.replicate 5 0) (List.replicate 5 0)
      tu.code.count.toNat (by rw [hlen]; simp) List.length_replicate ft
    rw [hcode, hzero, ← wordBytes_append]
    simpa using hw
  -- the branch is repointed over the fall-through stub
  have hto : tu.code.count + BitVec.ofNat 32 stubBytes - r.offset = 24 := by
    rw [← h.site, BitVec.add_assoc, BitVec.add_comm, BitVec.add_sub_cancel]
    rfl
  obtain ⟨front, back, hw, hfront, hback⟩ := taken_stub hlen ft r.guestTarget
  refine ⟨front, back, ?_, hfront, hback⟩
  unfold oryxExecMapLinked
  rw [if_neg h.nonempty, if_neg (not_not_intro h.aligned), h.relocs]
  dsimp only
  rw [if_neg h.checks, hexits]
  dsimp only
  rw [hft, hw, patchBranch_words front _ w (hsite.trans (by rw [hfront])), hto]
  rfl

/-- A relocation of the translator passes the checks. -/
theorem oneBranch_of_code (hcode : tu.code.val = wordBytes (ws ++ [w]))
    (hreloc : tu.relocs.val = [⟨BitVec.ofNat 32 (4 * ws.length), relocBranchGuestPc, tgt⟩])
    (hexits : tu.exits.val ≠ []) :
    OneBranch tu ⟨BitVec.ofNat 32 (4 * ws.length), relocBranchGuestPc, tgt⟩ := by
  obtain ⟨-, hne, hand⟩ := codeLen_ok hcode
  exact ⟨hne, hand, hreloc, rfl, (reloc_ok hcode).2, hexits⟩

/-- JMP and CALL: the branch goes to the stub behind it. -/
theorem linked_jmp {e : U64} (hcode : tu.code.val = wordBytes (ws ++ [encB]))
    (hreloc : tu.relocs.val = [⟨BitVec.ofNat 32 (4 * ws.length), relocBranchGuestPc, tgt⟩])
    (hexit : tu.exits.val = [e]) :
    oryxExecMapLinked tu =
      .ok ⟨wordBytes (ws ++ (0x14000001 : Word) :: setpcWords tgt)⟩ := by
  have hone := oneBranch_of_code hcode hreloc (by rw [hexit]; exact List.cons_ne_nil _ _)
  exact hone.linked_one hcode hexit

/-- BR: the fall-through stub behind the branch, and the taken stub behind it. -/
theorem linked_br {cc : CInt} {e fallThrough : U64} (hroom : 4 * ws.length + 24 < 2 ^ 32)
    (hcode : tu.code.val = wordBytes (ws ++ [encBcond (armCond cc)]))
    (hreloc : tu.relocs.val = [⟨BitVec.ofNat 32 (4 * ws.length), relocBranchGuestPc, tgt⟩])
    (hexit : tu.exits.val = [e, fallThrough]) :
    oryxExecMapLinked tu = .ok ⟨wordBytes (ws ++
      patchedBcond (armCond cc) :: (setpcWords fallThrough ++ setpcWords tgt))⟩ := by
  have hone := oneBranch_of_code hcode hreloc (by rw [hexit]; exact List.cons_ne_nil _ _)
  obtain ⟨front, back, hlink, -, hback, -⟩ := hone.linked_two hcode hexit
  have hlen := (codeLen_ok hcode).1
  obtain ⟨rfl, rfl⟩ := hback (by omega)
  rw [hlink, patchedWord_bcond]

/-- RET: the code as it is. -/
theorem linked_ret (hcode : tu.code.val = wordBytes (ws ++ [encRet]))
    (hreloc : tu.relocs.val = []) :
    oryxExecMapLinked tu = .ok ⟨wordBytes (ws ++ [encRet])⟩ := by
  obtain ⟨hlen, hne, hand⟩ := codeLen_ok hcode
  have hlast : rd32 (wordBytes (ws ++ [encRet])) (tu.code.count.toNat - 4) = aarch64Ret := by
    have hoff : tu.code.count.toNat - 4 = 4 * ws.length := by omega
    rw [hoff]
    exact rd32_words (by simp; rfl)
  unfold oryxExecMapLinked
  simp only [hreloc, hne, hand, ne_eq, not_true_eq_false, if_false, hcode, hlast]

end Link

end Oryx
