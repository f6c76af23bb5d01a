/-
Oryx/BranchLinking.lean

Linking a unit that is not the translator's own.

A unit may come from another producer or from the cache: its code bytes, its
relocation and its exits are unrelated data.  `oryx_exec_map_linked` checks
their shape (`OneBranch`) but never looks at the word it patches; what it
writes there is a `B` when the top byte is `0x14` and a `B.cond` otherwise.
`linksRight_iff` says for which units the branch is kept.
-/
import Oryx.BlockRun

namespace Oryx

open A64

/-! ### Units with one relocation -/

theorem oneBranch_iff {tu : OryxTu} {r : OryxReloc} :
    OneBranch tu r ↔ tu.relocs.val = [r] ∧ ∃ exe, oryxExecMapLinked tu = .ok exe := by
  constructor
  · intro h
    refine ⟨h.relocs, ?_⟩
    unfold oryxExecMapLinked
    rw [if_neg h.nonempty, if_neg (not_not_intro h.aligned), h.relocs]
    dsimp only
    rw [if_neg h.checks]
    rcases he : tu.exits.val with - | ⟨e, - | ⟨ft, rest⟩⟩
    · exact absurd he h.exits
    · exact ⟨_, rfl⟩
    · exact ⟨_, rfl⟩
  · -- each check of the linker that was passed is a field
    rintro ⟨hrelocs, exe, hok⟩
    unfold oryxExecMapLinked at hok
    dsimp only at hok
    rw [hrelocs] at hok
    split at hok
    · cases hok
    next hne =>
    split at hok
    · cases hok
    next hand =>
    dsimp only at hok
    split at hok
    · cases hok
    next hchecks =>
    rw [not_or] at hchecks
    refine ⟨hne, not_not.mp hand, hrelocs, not_not.mp hchecks.1, not_not.mp hchecks.2, ?_⟩
    intro hnil
    rw [hnil] at hok
    cases hok

/-- Code of a positive whole number of words ends in a word. -/
theorem code_eq_words {tu : OryxTu} (hne : tu.code.count ≠ 0) (hand : tu.code.count &&& 3 = 0) :
    ∃ ws w, tu.code.val = wordBytes (ws ++ [w]) := by
  have hlen : tu.code.val.length % 4 = 0 := by
    have h := congrArg BitVec.toNat hand
    rw [BitVec.toNat_and, Counted.toNat_count] at h
    have hmod := Nat.and_two_pow_sub_one_eq_mod tu.code.val.length 2
    exact hmod.symm.trans h
  have hpos : tu.code.val.length ≠ 0 := by
    intro h0
    apply hne
    apply BitVec.eq_of_toNat_eq
    rw [Counted.toNat_count, h0]
    rfl
  -- read as words and written back, the code is the same
  have hcode : tu.code.val = wordBytes (codeWords tu) := by
    have hput : ∀ p : List Byte, 4 ≤ p.length → putU32 (getU32 p) = p.take 4 :=
      fun _ => putLe_getLe
    have h := flatMap_getRecords hput (show tu.code.val.length / 4 * 4 ≤ tu.code.val.length by omega)
    rw [wordBytes, codeWords, h, List.take_of_length_le (by omega)]
  have hwords : codeWords tu ≠ [] := by
    intro hnil
    rw [hnil] at hcode
    exact hpos (congrArg List.length hcode)
  refine ⟨(codeWords tu).dropLast, (codeWords tu).getLast hwords, ?_⟩
  rw [List.dropLast_append_getLast, hcode]

/-! ### Patching -/

/-- The code looks at the top byte. -/
theorem and_topByte (w : Word) : w &&& 0xFF000000 = 0x14000000 ↔ bits w 24 8 = 0x14 := by
  have hlt := w.isLt
  have hmask : ∀ k : Fin 32, (0xFF000000 : Word).getLsbD k.val = decide (24 ≤ k.val) := by decide
  have hshift : w &&& (0xFF000000 : Word) = (w >>> 24) <<< 24 := by
    apply BitVec.eq_of_getLsbD_eq
    intro k hk
    rw [BitVec.getLsbD_and, hmask ⟨k, hk⟩, BitVec.getLsbD_shiftLeft, BitVec.getLsbD_ushiftRight]
    by_cases hlow : 24 ≤ k
    · simp [hk, hlow]
    · simp [hk, hlow]
  rw [hshift, ← BitVec.toNat_inj, BitVec.toNat_shiftLeft, BitVec.toNat_ushiftRight,
    Nat.shiftLeft_eq, Nat.shiftRight_eq_div_pow, bits]
  show _ = 335544320 ↔ _
  omega

theorem and_lowNibble (w : Word) : w &&& 0xf = BitVec.ofNat 32 (bits w 0 4) := by
  apply BitVec.eq_of_toNat_eq
  have hand : (w &&& 0xf).toNat = w.toNat % 2 ^ 4 := by
    rw [BitVec.toNat_and]
    exact Nat.and_two_pow_sub_one_eq_mod _ 4
  rw [hand, BitVec.toNat_ofNat, bits]
  omega

/-- The displacements of the linker: to the word behind the branch, or over the five words of the
fall-through stub. -/
theorem decode_patchedWord {w imm : Word} (himm : imm = 1 ∨ imm = 6) :
    decode (patchedWord w imm) = if bits w 24 8 = 0x14 then some (.b (imm.setWidth 26))
      else some (.bcond ⟨bits w 0 4, cond_lt w⟩ (imm.setWidth 19)) := by
  have hcond : ∀ c : Fin 16, ∀ imm : Word, imm = 1 ∨ imm = 6 →
      decode ((0x54000000 : Word) ||| (imm &&& 0x7FFFF) <<< 5 ||| BitVec.ofNat 32 c.val) =
        some (.bcond c (imm.setWidth 19)) := by
    rintro c imm (rfl | rfl) <;> revert c <;> decide
  unfold patchedWord
  by_cases htop : bits w 24 8 = 0x14
  · rw [if_pos ((and_topByte w).mpr htop), if_pos htop]
    rcases himm with rfl | rfl <;> rfl
  · rw [if_neg fun h => htop ((and_topByte w).mp h), if_neg htop, and_lowNibble]
    exact hcond ⟨bits w 0 4, cond_lt w⟩ imm himm

/-- What decodes to a conditional branch. -/
theorem decode_eq_bcond {w : Word} {cond : Fin 16} {off : BitVec 19}
    (h : decode w = some (.bcond cond off)) :
    bits w 24 8 = 0x54 ∧ bits w 4 1 = 0 ∧ cond.val = bits w 0 4 := by
  unfold decode at h
  split at h
  case h_22 htop =>
    unfold decodeCondBranch at h
    split at h
    · next hbit =>
      cases h
      exact ⟨htop, hbit, rfl⟩
    · cases h
  case h_18 | h_19 | h_20 | h_21 | h_24 => cases h
  -- no other class has a conditional branch
  all_goals
    simp only [decodeAddSubImm, decodeReg3, decodeMoveWide, decodeLoadStore, decodeOrdered,
      decodeAtomic, decodeBarrier, decodeCondSelect, decodeRet] at h
    repeat' split at h
    all_goals cases h

/-! ### Linked code -/

theorem OneBranch.rd32_site {tu : OryxTu} {r : OryxReloc} {ws : List Word} {w : Word}
    (h : OneBranch tu r) (hcode : tu.code.val = wordBytes (ws ++ [w])) :
    rd32 tu.code.val r.offset.toNat = w := by
  rw [(h.site_eq hcode).2, hcode]
  exact rd32_words (by simp)

/-! ### What linking keeps -/

/-- From the branch, the linked code hands `pc` to the dispatcher. -/
def HandsOver (exe : OryxExec) (r : OryxReloc) (s : A64.State) (pc : U64) : Prop :=
  Returns exe.words (r.offset.toNat / 4) s (s.x 30) (s.setX 17 pc)

/-- The branch at the relocation is the branch it was, and goes where the unit says. -/
inductive BranchKept (tu : OryxTu) (r : OryxReloc) (exe : OryxExec) : Prop
  | b (off off' : BitVec 26) (old : decode (rd32 tu.code.val r.offset.toNat) = some (.b off))
      (new : decode (rd32 exe.code r.offset.toNat) = some (.b off'))
      (reaches : ∀ s, HandsOver exe r s r.guestTarget)
  | bcond (cond : Fin 16) (off off' : BitVec 19)
      (old : decode (rd32 tu.code.val r.offset.toNat) = some (.bcond cond off))
      (new : decode (rd32 exe.code r.offset.toNat) = some (.bcond cond off'))
      (taken : ∀ s, condHolds cond s.flags = true → HandsOver exe r s r.guestTarget)
      (falls : ∀ s, condHolds cond s.flags = false →
        ∃ ft, tu.exits.val[1]? = some ft ∧ HandsOver exe r s ft)

/-- Linking keeps the branch of a unit with a relocation; a unit without one is linked as it is
when it ends in `RET`, and one with more is refused. -/
structure LinksRight (tu : OryxTu) : Prop where
  kept : ∀ r exe, tu.relocs.val = [r] → oryxExecMapLinked tu = .ok exe → BranchKept tu r exe
  plain : tu.relocs.val = [] → ∀ exe, oryxExecMapLinked tu = .ok exe →
    rd32 tu.code.val (tu.code.count.toNat - 4) = aarch64Ret ∧ exe.code = tu.code.val
  refused : 1 < tu.relocs.val.length → ∃ e, oryxExecMapLinked tu = .error e

/-- A site word, a number of exits and a code length that go together: a `B` without its two top
displacement bits, or a `B.cond` with a second exit unless it is always taken; and room for the
offset of a second stub. -/
def SiteFits (w : Word) (exitCount codeLen : Nat) : Prop :=
  (bits w 24 8 = 0x14 ∧ (exitCount = 1 ∨ codeLen + 20 < 2 ^ 32)) ∨
    (bits w 24 8 = 0x54 ∧ bits w 4 1 = 0 ∧
      if exitCount = 1 then 14 ≤ bits w 0 4 else codeLen + 20 < 2 ^ 32)

/-! ### Runs from the branch -/

section Runs

variable {front back : List Word} {w imm : Word}

/-- The patched branch is taken. -/
def Taken (w : Word) (s : A64.State) : Prop :=
  bits w 24 8 = 0x14 ∨ condHolds ⟨bits w 0 4, cond_lt w⟩ s.flags = true

instance (w : Word) (s : A64.State) : Decidable (Taken w s) := inferInstanceAs (Decidable (_ ∨ _))

theorem step_patched (tail : List Word) (himm : imm = 1 ∨ imm = 6) (s : A64.State) :
    step (front ++ patchedWord w imm :: tail) front.length s =
      some (.next (front.length + if Taken w s then imm.toNat else 1) s) := by
  have hword : (front ++ patchedWord w imm :: tail)[front.length]? = some (patchedWord w imm) := by
    simp
  -- a short branch forwards, in 26 bits or in 19
  have hb : branchTo front.length (imm.setWidth 26).toInt s =
      some (.next (front.length + imm.toNat) s) := by
    rcases himm with rfl | rfl <;> rfl
  have hc : branchTo front.length (imm.setWidth 19).toInt s =
      some (.next (front.length + imm.toNat) s) := by
    rcases himm with rfl | rfl <;> rfl
  unfold step
  rw [hword, Option.bind_some, decode_patchedWord himm]
  by_cases htop : bits w 24 8 = 0x14
  · have htaken : Taken w s := Or.inl htop
    rw [if_pos htop, if_pos htaken]
    exact hb
  · rw [if_neg htop]
    dsimp only
    by_cases hcond : condHolds ⟨bits w 0 4, cond_lt w⟩ s.flags = true
    · have htaken : Taken w s := Or.inr hcond
      rw [if_pos hcond, if_pos htaken]
      exact hc
    · have hnot : ¬ Taken w s := not_or.mpr ⟨htop, hcond⟩
      rw [if_neg hcond, if_neg hnot]

/-- A run from the branch is a run from where the branch leads. -/
theorem returns_patched_iff (tail : List Word) (himm : imm = 1 ∨ imm = 6) {s u : A64.State}
    {t : U64} :
    Returns (front ++ patchedWord w imm :: tail) front.length s t u ↔
      Returns (front ++ patchedWord w imm :: tail)
        (front.length + if Taken w s then imm.toNat else 1) s t u :=
  ⟨fun h => h.next (step_patched tail himm s), Returns.of_step (step_patched tail himm s)⟩

theorem codeAt_append {ws : List Word} {is : List Insn} (rest : List Word) (h : DecodesTo ws is) :
    CodeAt (front ++ (ws ++ rest)) front.length is := by
  intro k i hk
  obtain ⟨v, hv, hd⟩ := codeAt_of_decodes h k i hk
  rw [Nat.zero_add] at hv
  refine ⟨v, ?_, hd⟩
  rw [List.getElem?_append_right (Nat.le_add_right _ k), Nat.add_sub_cancel_left,
    List.getElem?_append_left (List.getElem?_eq_some_iff.mp hv).1, hv]

/-- The stub behind the branch. -/
theorem returns_near (s : A64.State) (pc : U64) :
    Returns (front ++ w :: (setpcWords pc ++ back)) (front.length + 1) s (s.x 30)
      (s.setX 17 pc) := by
  have h := @codeAt_append (front ++ [w]) _ _ back (decode_setpcWords pc)
  rw [List.length_append, List.length_singleton, List.append_assoc, List.singleton_append] at h
  exact returns_setpc s h

/-- The stub behind that one. -/
theorem returns_far (s : A64.State) (ft pc : U64) :
    Returns (front ++ w :: (setpcWords ft ++ setpcWords pc)) (front.length + 6) s (s.x 30)
      (s.setX 17 pc) := by
  have h := @codeAt_append (front ++ w :: setpcWords ft) _ _ [] (decode_setpcWords pc)
  have hlen : (front ++ w :: setpcWords ft).length = front.length + 6 := by simp [setpcWords]
  rw [hlen, List.append_nil, List.append_assoc, List.cons_append] at h
  exact returns_setpc s h

/-- Where no stub has been written, the machine stops. -/
theorem not_returns_far (s u : A64.State) (ft t : U64) :
    ¬ Returns (front ++ w :: (setpcWords ft ++ List.replicate 5 0)) (front.length + 6) s t u := by
  refine @not_returns _ _ _ _ _ 0 ?_ (by decide)
  rw [List.getElem?_append_right (Nat.le_add_right _ 6), Nat.add_sub_cancel_left]
  rfl

/-- Every condition can hold, and all but the last two can fail. -/
theorem exists_flags_true (c : Fin 16) : ∃ f, condHolds c f = true := by
  have h : ∀ c : Fin 16, condHolds c ⟨false, false, false, false⟩ = true ∨
      condHolds c ⟨false, true, true, false⟩ = true ∨
      condHolds c ⟨true, false, true, false⟩ = true ∨
      condHolds c ⟨true, true, true, true⟩ = true := by decide
  rcases h c with h | h | h | h <;> exact ⟨_, h⟩

theorem exists_flags_false {c : Fin 16} (hc : c.val < 14) : ∃ f, condHolds c f = false := by
  have h : ∀ c : Fin 16, c.val < 14 → condHolds c ⟨false, false, false, false⟩ = false ∨
      condHolds c ⟨false, true, true, false⟩ = false ∨
      condHolds c ⟨true, false, true, false⟩ = false ∨
      condHolds c ⟨false, false, true, false⟩ = false ∨
      condHolds c ⟨true, true, true, true⟩ = false := by decide
  rcases h c hc with h | h | h | h | h <;> exact ⟨_, h⟩

end Runs

/-! ### When the branch is kept -/

section Kept

variable {tu : OryxTu} {r : OryxReloc} {exe : OryxExec} {front tail : List Word} {w imm : Word}

/-- Linked code, by its words. -/
structure LinkedAs (r : OryxReloc) (exe : OryxExec) (front : List Word) (w imm : Word)
    (tail : List Word) : Prop where
  code : exe.code = wordBytes (front ++ patchedWord w imm :: tail)
  site : r.offset.toNat = 4 * front.length
  imm : imm = 1 ∨ imm = 6

theorem LinkedAs.words (h : LinkedAs r exe front w imm tail) :
    exe.words = front ++ patchedWord w imm :: tail := by
  obtain ⟨code⟩ := exe
  cases h.code
  exact words_wordBytes _

theorem LinkedAs.new (h : LinkedAs r exe front w imm tail) :
    decode (rd32 exe.code r.offset.toNat) = decode (patchedWord w imm) := by
  have hword : (front ++ patchedWord w imm :: tail)[front.length]? = some (patchedWord w imm) := by
    simp
  rw [h.code, h.site, rd32_words hword]

theorem LinkedAs.new_b (h : LinkedAs r exe front w imm tail) (htop : bits w 24 8 = 0x14) :
    decode (rd32 exe.code r.offset.toNat) = some (.b (imm.setWidth 26)) := by
  rw [h.new, decode_patchedWord h.imm, if_pos htop]

theorem LinkedAs.new_bcond (h : LinkedAs r exe front w imm tail) (htop : bits w 24 8 ≠ 0x14) :
    decode (rd32 exe.code r.offset.toNat) =
      some (.bcond ⟨bits w 0 4, cond_lt w⟩ (imm.setWidth 19)) := by
  rw [h.new, decode_patchedWord h.imm, if_neg htop]

theorem LinkedAs.handsOver_iff (h : LinkedAs r exe front w imm tail) {s : A64.State} {pc : U64} :
    HandsOver exe r s pc ↔ Returns (front ++ patchedWord w imm :: tail)
      (front.length + if Taken w s then imm.toNat else 1) s (s.x 30) (s.setX 17 pc) := by
  rw [HandsOver, h.words, h.site, Nat.mul_div_cancel_left _ (by decide)]
  exact returns_patched_iff tail h.imm

/-- The linked code of a unit with one exit, and of one with two. -/
theorem OneBranch.linkedAs (h : OneBranch tu r) (hok : oryxExecMapLinked tu = .ok exe) :
    (∃ front, tu.exits.val.length = 1 ∧
      LinkedAs r exe front (rd32 tu.code.val r.offset.toNat) 1 (setpcWords r.guestTarget)) ∨
    ∃ front ft back, tu.exits.val.length ≠ 1 ∧ tu.exits.val[1]? = some ft ∧
      LinkedAs r exe front (rd32 tu.code.val r.offset.toNat) 6 (setpcWords ft ++ back) ∧
      (tu.code.count.toNat + 20 < 2 ^ 32 → back = setpcWords r.guestTarget) ∧
      (2 ^ 32 ≤ tu.code.count.toNat + 20 → back = List.replicate 5 0) := by
  obtain ⟨ws, w, hcode⟩ := code_eq_words h.nonempty h.aligned
  obtain ⟨-, hsite⟩ := h.site_eq hcode
  rw [h.rd32_site hcode]
  rcases he : tu.exits.val with - | ⟨e, - | ⟨ft, rest⟩⟩
  · exact absurd he h.exits
  · rw [h.linked_one hcode he] at hok
    cases hok
    exact Or.inl ⟨ws, rfl, rfl, hsite, Or.inl rfl⟩
  · obtain ⟨front, back, hlink, hfront, hroom, hback⟩ := h.linked_two hcode he
    rw [hlink] at hok
    cases hok
    refine Or.inr ⟨front, ft, back, ?_, rfl, ⟨rfl, ?_, Or.inr rfl⟩,
      fun hlt => (hroom hlt).2, hback⟩
    · simp
    · rw [hsite, hfront]

/-- Where the branch leads. -/
theorem LinkedAs.taken_one {pc : U64} (h : LinkedAs r exe front w 1 (setpcWords pc))
    (s : A64.State) : HandsOver exe r s pc := by
  rw [h.handsOver_iff]
  have hnear := @returns_near front [] (patchedWord w 1) s pc
  rw [List.append_nil] at hnear
  split
  · exact hnear
  · exact hnear

theorem LinkedAs.taken_two {ft pc : U64}
    (h : LinkedAs r exe front w 6 (setpcWords ft ++ setpcWords pc)) {s : A64.State}
    (ht : Taken w s) : HandsOver exe r s pc := by
  rw [h.handsOver_iff, if_pos ht]
  exact returns_far s ft pc

theorem LinkedAs.falls_two {ft : U64} {back : List Word}
    (h : LinkedAs r exe front w 6 (setpcWords ft ++ back)) {s : A64.State}
    (ht : ¬ Taken w s) : HandsOver exe r s ft := by
  rw [h.handsOver_iff, if_neg ht]
  exact returns_near s ft

theorem LinkedAs.lost_two {ft pc : U64}
    (h : LinkedAs r exe front w 6 (setpcWords ft ++ List.replicate 5 0)) {s : A64.State}
    (ht : Taken w s) : ¬ HandsOver exe r s pc := by
  rw [h.handsOver_iff, if_pos ht]
  exact not_returns_far s _ ft _

/-- A `B.cond` word. -/
theorem decode_bcond (htop : bits w 24 8 = 0x54) (hbit : bits w 4 1 = 0) :
    decode w = some (.bcond ⟨bits w 0 4, cond_lt w⟩ (immAt w 5 19)) := by
  unfold decode
  rw [htop]
  exact if_pos hbit

theorem decode_b (htop : bits w 24 8 = 0x14) : decode w = some (.b (immAt w 0 26)) := by
  unfold decode
  rw [htop]
  rfl

/-- The last two conditions always hold. -/
theorem condHolds_always : ∀ c : Fin 16, 14 ≤ c.val → ∀ f, condHolds c f = true := by
  intro c hc f
  have h : c = 14 ∨ c = 15 := by omega
  rcases h with rfl | rfl <;> rfl

theorem OneBranch.kept (h : OneBranch tu r) (hok : oryxExecMapLinked tu = .ok exe)
    (hfits : SiteFits (rd32 tu.code.val r.offset.toNat) tu.exits.val.length
      tu.code.count.toNat) : BranchKept tu r exe := by
  rcases hfits with ⟨htop, hroom⟩ | ⟨htop, hbit, hroom⟩
  · rcases h.linkedAs hok with ⟨front, hone, hl⟩ | ⟨front, ft, back, htwo, hft, hl, hback, -⟩
    · exact .b _ _ (decode_b htop) (hl.new_b htop) fun s => hl.taken_one s
    · cases hback (hroom.resolve_left htwo)
      exact .b _ _ (decode_b htop) (hl.new_b htop) fun s => hl.taken_two (Or.inl htop)
  · -- a B.cond keeps its kind; with one stub it must always hold
    have hne : bits (rd32 tu.code.val r.offset.toNat) 24 8 ≠ 0x14 := by omega
    rcases h.linkedAs hok with ⟨front, hone, hl⟩ | ⟨front, ft, back, htwo, hft, hl, hback, -⟩
    · rw [if_pos hone] at hroom
      refine .bcond _ _ _ (decode_bcond htop hbit) (hl.new_bcond hne) (fun s _ => hl.taken_one s)
        fun s hno => ?_
      rw [condHolds_always _ hroom] at hno
      cases hno
    · rw [if_neg htwo] at hroom
      cases hback hroom
      refine .bcond _ _ _ (decode_bcond htop hbit) (hl.new_bcond hne)
        (fun s hs => hl.taken_two (Or.inr hs)) fun s hno => ⟨ft, hft, hl.falls_two ?_⟩
      rintro (hyes | hyes)
      · exact hne hyes
      · rw [hno] at hyes
        cases hyes

/-- A machine with the flags `f`. -/
def machineWith (f : Flags) : A64.State := ⟨fun _ => 0, 0, f, fun _ => 0⟩

theorem OneBranch.siteFits (h : OneBranch tu r) (hok : oryxExecMapLinked tu = .ok exe)
    (hkept : BranchKept tu r exe) :
    SiteFits (rd32 tu.code.val r.offset.toNat) tu.exits.val.length tu.code.count.toNat := by
  rcases h.linkedAs hok with ⟨front, hone, hl⟩ | ⟨front, ft, back, htwo, hft, hl, -, hback⟩
  · cases hkept with
    | b off off' old new reaches =>
      refine Or.inl ⟨?_, Or.inl hone⟩
      by_contra htop
      cases (hl.new_bcond htop).symm.trans new
    | bcond cond off off' old new taken falls =>
      obtain ⟨htop, hbit, hcond⟩ := decode_eq_bcond old
      refine Or.inr ⟨htop, hbit, ?_⟩
      rw [if_pos hone, ← hcond]
      -- a condition that can fail has no exit to fall to
      by_contra hlt
      obtain ⟨f, hf⟩ := exists_flags_false (Nat.lt_of_not_le hlt)
      obtain ⟨ft, hft, -⟩ := falls (machineWith f) hf
      have hlen := (List.getElem?_eq_some_iff.mp hft).1
      omega
  · cases hkept with
    | b off off' old new reaches =>
      have htop : bits (rd32 tu.code.val r.offset.toNat) 24 8 = 0x14 := by
        by_contra htop
        cases (hl.new_bcond htop).symm.trans new
      refine Or.inl ⟨htop, Or.inr ?_⟩
      by_contra hroom
      cases hback (Nat.le_of_not_lt hroom)
      exact hl.lost_two (Or.inl htop) (reaches (machineWith ⟨false, false, false, false⟩))
    | bcond cond off off' old new taken falls =>
      obtain ⟨htop, hbit, hcond⟩ := decode_eq_bcond old
      refine Or.inr ⟨htop, hbit, ?_⟩
      rw [if_neg htwo]
      by_contra hroom
      cases hback (Nat.le_of_not_lt hroom)
      obtain ⟨f, hf⟩ := exists_flags_true cond
      have htaken : Taken (rd32 tu.code.val r.offset.toNat) (machineWith f) := by
        apply Or.inr
        have he : (⟨_, bits_lt _ 0 4⟩ : Fin 16) = cond := Fin.ext hcond.symm
        rw [he]
        exact hf
      exact hl.lost_two htaken (taken (machineWith f) hf)

end Kept

/-- **When linking keeps the branch.** -/
theorem linksRight_iff (tu : OryxTu) :
    LinksRight tu ↔ ∀ r, OneBranch tu r →
      SiteFits (rd32 tu.code.val r.offset.toNat) tu.exits.val.length tu.code.count.toNat := by
  constructor
  · intro h r hone
    obtain ⟨exe, hok⟩ := (oneBranch_iff.mp hone).2
    exact hone.siteFits hok (h.kept r exe hone.relocs hok)
  · intro h
    refine ⟨fun r exe hrelocs hok => ?_, fun hnil exe hok => ?_, fun hmany => ?_⟩
    · have hone := oneBranch_iff.mpr ⟨hrelocs, exe, hok⟩
      exact hone.kept hok (h r hone)
    · -- without a relocation the unit is accepted as it is
      unfold oryxExecMapLinked at hok
      dsimp only at hok
      rw [hnil] at hok
      split at hok
      · cases hok
      split at hok
      · cases hok
      dsimp only at hok
      split at hok
      · cases hok
      next hret =>
      cases hok
      exact ⟨not_not.mp hret, rfl⟩
    · -- more than one relocation is refused
      obtain ⟨r, r', rest, hrelocs⟩ : ∃ r r' rest, tu.relocs.val = r :: r' :: rest := by
        rcases hr : tu.relocs.val with - | ⟨r, - | ⟨r', rest⟩⟩
        · rw [hr] at hmany
          cases hmany
        · rw [hr] at hmany
          exact absurd hmany (Nat.lt_irrefl 1)
        · exact ⟨r, r', rest, rfl⟩
      unfold oryxExecMapLinked
      dsimp only
      rw [hrelocs]
      split
      · exact ⟨_, rfl⟩
      split <;> exact ⟨_, rfl⟩

/-- A unit of the one word `w`, with a relocation to `0x2000`. -/
def oneWordUnit (w : Word) (exits : Counted U64) : OryxTu where
  isaId := 0
  translatorId := 0
  translatorVersion := 0
  profileId := 0
  flags := 0
  guestEntryPc := 0x1000
  guestLen := 4
  guestHash := zeroDigest
  code := ⟨putU32 w, by rw [length_putU32]; decide⟩
  relocs := ⟨[⟨0, relocBranchGuestPc, 0x2000⟩], by decide⟩
  exits := exits

/-- Three units that are linked to other code than they hold: `B .-4`, a `NOP`, and a `B.NE`
without a fall-through exit. -/
theorem not_linksRight_oneWord :
    ¬ LinksRight (oneWordUnit 0x17FFFFFF ⟨[0x2000], by decide⟩) ∧
      ¬ LinksRight (oneWordUnit 0xD503201F ⟨[0x2000], by decide⟩) ∧
      ¬ LinksRight (oneWordUnit 0x54000001 ⟨[0x2000], by decide⟩) := by
  have hlinked : ∀ w, OneBranch (oneWordUnit w ⟨[0x2000], by decide⟩)
      ⟨0, relocBranchGuestPc, 0x2000⟩ := by
    intro w
    have hcount : (oneWordUnit w ⟨[0x2000], by decide⟩).code.count = 4 := by
      apply BitVec.eq_of_toNat_eq
      rw [Counted.toNat_count]
      exact length_putU32 w
    exact ⟨by rw [hcount]; decide, by rw [hcount]; decide, rfl, rfl, by rw [hcount]; rfl,
      List.cons_ne_nil _ _⟩
  have key : ∀ w, LinksRight (oneWordUnit w ⟨[0x2000], by decide⟩) → SiteFits w 1 4 := by
    intro w h
    have hone := hlinked w
    obtain ⟨exe, hok⟩ := (oneBranch_iff.mp hone).2
    have hfits := hone.siteFits hok (h.kept _ exe rfl hok)
    have hword : rd32 (oneWordUnit w ⟨[0x2000], by decide⟩).code.val 0 = w := by
      have hget := getU32_putU32 w []
      rwa [List.append_nil] at hget
    have hcount : (oneWordUnit w ⟨[0x2000], by decide⟩).code.count.toNat = 4 := by
      rw [Counted.toNat_count]
      exact length_putU32 w
    rw [hcount] at hfits
    exact hword ▸ hfits
  -- no word of the three fits its site
  unfold SiteFits at key
  exact ⟨fun h => absurd (key _ h) (by decide), fun h => absurd (key _ h) (by decide),
    fun h => absurd (key _ h) (by decide)⟩

end Oryx
