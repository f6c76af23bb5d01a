/-
Oryx/DecodeBlock.lean

Whole blocks of the decoder.

The loop goes through a run of encoded instructions and stops after the first
terminator.  Its invariant is that the bytes from the start to the cursor are
a run, whose ops have been written.  From it follow what is accepted
(`decodeBlock_ok_iff`), what happens when the image ends inside a block
(`truncated_iff`), and that the decoder is safe on any bytes
(`decodes_safely`).
-/
import Oryx.DecodeStep
import Oryx.Acceptance

namespace Oryx

open Decoder X86

/-! ### The ops of a run -/

/-- The ops of a run of instructions that starts at `pc`. -/
def runOps (pc : U64) : List Encoded → List OryxGinsn
  | [] => []
  | e :: run =>
      let next := pc + BitVec.ofNat 64 e.bytes.length
      (insnIr next e.insn).toList ++ runOps next run

theorem insnIr_terminates {next : U64} {i : X86.Insn} {g : OryxGinsn}
    (h : insnIr next i = some g) : g.terminates = i.isTerminator := by
  cases i with
  | endbr64 => cases h
  | alu op dst src =>
    cases h
    cases op <;> rfl
  | aluImm op dst imm =>
    cases h
    cases op <;> rfl
  | _ =>
    cases h
    rfl

/-- Only `ENDBR64` has no op. -/
theorem insnIr_eq_none_iff {next : U64} {i : X86.Insn} : insnIr next i = none ↔ i = .endbr64 := by
  cases i with
  | endbr64 => exact iff_of_true rfl rfl
  | _ => exact iff_of_false (fun h => nomatch h) fun h => nomatch h

theorem length_runOps_le (pc : U64) (run : List Encoded) :
    (runOps pc run).length ≤ (codeBytes run).length := by
  induction run generalizing pc with
  | nil => exact Nat.le_refl 0
  | cons e run ih =>
    have hpos := e.encodes.length_pos
    have hop : (insnIr (pc + BitVec.ofNat 64 e.bytes.length) e.insn).toList.length ≤ 1 :=
      Option.length_toList_le
    have hrest := ih (pc + BitVec.ofNat 64 e.bytes.length)
    rw [runOps, codeBytes_cons, List.length_append, List.length_append]
    omega

/-- The ops of a block end with its only terminator. -/
theorem runOps_eq_append {run : List Encoded} (h : IsBlock run) (pc : U64) :
    ∃ body last, runOps pc run = body ++ [last] ∧ (∀ i ∈ body, i.terminates = false) ∧
      last.terminates = true := by
  induction run generalizing pc with
  | nil =>
    obtain ⟨body, last, hnil, -⟩ := h
    exact absurd hnil.symm (List.append_ne_nil_of_right_ne_nil _ (List.cons_ne_nil _ _))
  | cons e run ih =>
    have hops : ∀ g ∈ (insnIr (pc + BitVec.ofNat 64 e.bytes.length) e.insn).toList,
        g.terminates = e.insn.isTerminator := fun g hg =>
      insnIr_terminates (Option.mem_toList.mp hg)
    rcases h.cases with ⟨_, heq, hterm⟩ | ⟨_, _, heq, hopen, hrest⟩
    · -- the last instruction is no `endbr64`, so it gives the last op
      cases heq
      cases hir : insnIr (pc + BitVec.ofNat 64 e.bytes.length) e.insn with
      | none =>
        rw [insnIr_eq_none_iff.mp hir] at hterm
        cases hterm
      | some g =>
        refine ⟨[], g, ?_, fun _ hm => (nomatch hm), ?_⟩
        · rw [runOps, hir]
          rfl
        · rw [insnIr_terminates hir, hterm]
    · cases heq
      obtain ⟨body, last, heq, hbody, hlast⟩ := ih hrest (pc + BitVec.ofNat 64 e.bytes.length)
      refine ⟨(insnIr (pc + BitVec.ofNat 64 e.bytes.length) e.insn).toList ++ body, last, ?_, ?_,
        hlast⟩
      · rw [runOps, heq, List.append_assoc]
      · rw [List.forall_mem_append]
        exact ⟨fun g hg => (hops g hg).trans hopen, hbody⟩

/-! ### The loop -/

section Loop

variable {bytes : List Byte} {cap turns : Nat} {start : U64} {c c' : Cursor}
  {ops : List OryxGinsn}

/-- A turn that takes an instruction writes its op, if there is room. -/
theorem decodeLoop_turn {i : X86.Insn} (hstep : decodeStep bytes c = .ok (actionOf c'.pc i, c'))
    (hcap : ops.length ≤ cap) :
    decodeLoop bytes cap start (turns + 1) c ops =
      if cap < (ops ++ (insnIr c'.pc i).toList).length then .error .inval ops
      else if i.isTerminator = true then
        .ok (ops ++ (insnIr c'.pc i).toList) ((c'.pc - start).setWidth 32)
      else decodeLoop bytes cap start turns c' (ops ++ (insnIr c'.pc i).toList) := by
  rw [decodeLoop, hstep, actionOf]
  cases hir : insnIr c'.pc i with
  | none =>
    cases insnIr_eq_none_iff.mp hir
    rw [Option.toList_none, List.append_nil, if_neg (Nat.not_lt.mpr hcap)]
    exact (if_neg Bool.false_ne_true).symm
  | some g =>
    dsimp only
    have hlen : (ops ++ (some g).toList).length = ops.length + 1 := List.length_append
    rw [hlen]
    by_cases hfull : ops.length ≥ cap
    · rw [if_pos hfull, if_pos (Nat.lt_succ_of_le hfull)]
    · rw [if_neg hfull, if_neg (c := cap < ops.length + 1) (by omega)]
      rfl

/-- What the loop accepts is a block. -/
theorem decodeLoop_sound {ops' : List OryxGinsn} {len : U32} (hc : c.off ≤ bytes.length)
    (hcap : ops.length ≤ cap) (h : decodeLoop bytes cap start turns c ops = .ok ops' len) :
    ∃ run c', IsBlock run ∧ Span bytes c c' (codeBytes run) ∧ ops' = ops ++ runOps c.pc run ∧
      ops'.length ≤ cap ∧ len = (c'.pc - start).setWidth 32 := by
  induction turns generalizing c ops with
  | zero => cases h
  | succ turns ih =>
    cases hstep : decodeStep bytes c with
    -- the turn ends the call, without success
    | error e =>
      rw [decodeLoop, hstep] at h
      cases e <;> cases h
    | ok r =>
      obtain ⟨a, c₁⟩ := r
      obtain ⟨e, hspan, rfl⟩ := decodeStep_sound hc hstep
      have hpc : c₁.pc = c.pc + BitVec.ofNat 64 e.bytes.length := by
        rw [hspan.end_eq]
        rfl
      rw [decodeLoop_turn hstep hcap] at h
      split at h
      · cases h
      next hroom =>
      split at h
      · -- the first terminator ends the run
        next hterm =>
        cases h
        refine ⟨[e], c₁, isBlock_singleton hterm, ?_, ?_, Nat.le_of_not_lt hroom, rfl⟩
        · rw [codeBytes_cons, codeBytes_nil, List.append_nil]
          exact hspan
        · rw [runOps, ← hpc, runOps, List.append_nil]
      · -- the instruction goes before the run of the later turns
        next hopen =>
        obtain ⟨run, c₂, hrun, hrest, rfl, hlen, rfl⟩ := ih hspan.le (Nat.le_of_not_lt hroom) h
        refine ⟨e :: run, c₂, hrun.cons (Bool.eq_false_of_not_eq_true hopen), ?_, ?_, hlen, rfl⟩
        · rw [codeBytes_cons]
          exact hspan.trans hrest
        · rw [runOps, ← hpc, List.append_assoc]

/-- The turn that takes the first instruction of a run whose ops fit, and what it leaves of bytes
and room. -/
theorem decodeLoop_whole (e : Encoded) (run : List Encoded) {rest : List Byte}
    (hc : c.off ≤ bytes.length) (hdrop : bytes.drop c.off = e.bytes ++ rest)
    (hcap : (ops ++ runOps c.pc (e :: run)).length ≤ cap) :
    ∃ ops₁ c₁, c₁ = c.advance e.bytes.length ∧ c₁.off ≤ bytes.length ∧
      bytes.drop c₁.off = rest ∧ ops ++ runOps c.pc (e :: run) = ops₁ ++ runOps c₁.pc run ∧
      decodeLoop bytes cap start (turns + 1) c ops =
        if e.insn.isTerminator = true then .ok ops₁ ((c₁.pc - start).setWidth 32)
        else decodeLoop bytes cap start turns c₁ ops₁ := by
  have hlen := congrArg List.length hdrop
  rw [List.length_drop, List.length_append] at hlen
  have hpos := e.encodes.length_pos
  have hops : ops ++ runOps c.pc (e :: run) =
      ops ++ (insnIr (c.advance e.bytes.length).pc e.insn).toList ++
        runOps (c.advance e.bytes.length).pc run := (List.append_assoc _ _ _).symm
  rw [hops] at hcap ⊢
  have hroom : ¬ cap < (ops ++ (insnIr (c.advance e.bytes.length).pc e.insn).toList).length := by
    rw [List.length_append] at hcap
    omega
  have hfits : ops.length ≤ cap := by
    rw [List.length_append] at hroom
    omega
  refine ⟨_, _, rfl, by rw [Cursor.advance_off]; omega, ?_, rfl, ?_⟩
  · rw [Cursor.advance_off, ← List.drop_drop, hdrop, List.drop_left]
  · rw [decodeLoop_turn (decodeStep_whole e hc hdrop) hfits, if_neg hroom]

/-- **A block is accepted** when its ops fit. -/
theorem decodeLoop_block {run : List Encoded} {rest : List Byte} (hrun : IsBlock run)
    (hc : c.off ≤ bytes.length) (hdrop : bytes.drop c.off = codeBytes run ++ rest)
    (hcap : (ops ++ runOps c.pc run).length ≤ cap) (hturns : bytes.length < turns + c.off) :
    decodeLoop bytes cap start turns c ops =
      .ok (ops ++ runOps c.pc run) (((c.advance (codeBytes run).length).pc - start).setWidth 32) := by
  induction run generalizing c ops turns with
  | nil =>
    obtain ⟨body, last, hnil, -⟩ := hrun
    exact absurd hnil.symm (List.append_ne_nil_of_right_ne_nil _ (List.cons_ne_nil _ _))
  | cons e run ih =>
    obtain ⟨turns, rfl⟩ : ∃ t, turns = t + 1 := ⟨turns - 1, by omega⟩
    have hpos := e.encodes.length_pos
    rw [codeBytes_cons, List.append_assoc] at hdrop
    obtain ⟨ops₁, c₁, hc₁, hle, hrest, hops, hloop⟩ := decodeLoop_whole e run hc hdrop hcap
    rw [hloop, hops]
    rcases hrun.cases with ⟨_, heq, hterm⟩ | ⟨_, _, heq, hopen, hblock⟩
    · -- the terminator
      cases heq
      rw [if_pos hterm, runOps, List.append_nil, codeBytes_cons, codeBytes_nil, List.append_nil, hc₁]
    · cases heq
      have hoff : c₁.off = c.off + e.bytes.length := by rw [hc₁, Cursor.advance_off]
      rw [if_neg (by rw [hopen]; exact Bool.false_ne_true),
        ih hblock hle hrest (hops ▸ hcap) (by omega), hc₁, Cursor.advance_advance, codeBytes_cons,
        List.length_append]

/-- The place `k` lies strictly inside an `ENDBR64` of the run. -/
def splitsEndbr64 : List Encoded → Nat → Bool
  | [], _ => false
  | e :: run, k =>
      if k < e.bytes.length then decide (e.insn = .endbr64 ∧ k ≠ 0)
      else splitsEndbr64 run (k - e.bytes.length)

/-- **A block cut short**, at the end of the image. -/
theorem decodeLoop_cut {run : List Encoded} {u : List Byte} (hrun : IsBlock run)
    (hc : c.off ≤ bytes.length) (hu : u ≠ []) (hbs : codeBytes run = bytes.drop c.off ++ u)
    (hcap : (ops ++ runOps c.pc run).length ≤ cap) (hturns : bytes.length < turns + c.off) :
    ∃ ops', decodeLoop bytes cap start turns c ops = .error
      (if splitsEndbr64 run (bytes.drop c.off).length = true then .unsupported else .format) ops' := by
  induction run generalizing c ops turns with
  | nil =>
    obtain ⟨body, last, hnil, -⟩ := hrun
    exact absurd hnil.symm (List.append_ne_nil_of_right_ne_nil _ (List.cons_ne_nil _ _))
  | cons e run ih =>
    obtain ⟨turns, rfl⟩ : ∃ t, turns = t + 1 := ⟨turns - 1, by omega⟩
    have hpos := e.encodes.length_pos
    rw [codeBytes_cons] at hbs
    have hleft : bytes.drop c.off <+: e.bytes ++ codeBytes run := ⟨u, hbs.symm⟩
    unfold splitsEndbr64
    by_cases hinside : (bytes.drop c.off).length < e.bytes.length
    · -- the image ends inside this instruction
      obtain ⟨t, ht⟩ :=
        List.prefix_of_prefix_length_le hleft (List.prefix_append _ _) (Nat.le_of_lt hinside)
      have hne : t ≠ [] := by
        rintro rfl
        rw [List.append_nil] at ht
        rw [ht] at hinside
        exact Nat.lt_irrefl _ hinside
      refine ⟨ops, ?_⟩
      rw [decodeLoop, decodeStep_cut e hc hne ht.symm]
      dsimp only
      rw [if_pos hinside, cutError]
      simp only [ne_eq, List.length_eq_zero_iff, decide_eq_true_eq]
    · -- this instruction is whole, and the rest of the run is cut
      obtain ⟨t, hdrop⟩ :=
        List.prefix_of_prefix_length_le (List.prefix_append _ _) hleft (Nat.le_of_not_lt hinside)
      have htail : codeBytes run = t ++ u := by
        rw [← hdrop, List.append_assoc] at hbs
        exact List.append_cancel_left hbs
      have hopen : e.insn.isTerminator = false ∧ IsBlock run := by
        rcases hrun.cases with ⟨_, heq, -⟩ | ⟨_, _, heq, hopen, hrest⟩
        · cases heq
          exact absurd (List.append_eq_nil_iff.mp htail.symm).2 hu
        · cases heq
          exact ⟨hopen, hrest⟩
      obtain ⟨ops₁, c₁, hc₁, hle, hrest, hops, hloop⟩ :=
        decodeLoop_whole e run hc hdrop.symm hcap
      have hoff : c₁.off = c.off + e.bytes.length := by rw [hc₁, Cursor.advance_off]
      have hk : (bytes.drop c.off).length - e.bytes.length = (bytes.drop c₁.off).length := by
        rw [hrest, ← hdrop, List.length_append, Nat.add_sub_cancel_left]
      rw [hloop, if_neg (by rw [hopen.1]; exact Bool.false_ne_true), if_neg hinside, hk]
      exact ih hopen.2 hle (by rw [hrest, htail]) (hops ▸ hcap) (by omega)

/-- **The loop is safe**: it ends, reads inside the image and writes below `cap`. -/
theorem decodeLoop_safe (hc : c.off ≤ bytes.length) (hcap : ops.length ≤ cap)
    (hturns : bytes.length < turns + c.off) :
    (∀ w, decodeLoop bytes cap start turns c ops ≠ .fault w ∧
      decodeLoop bytes cap start turns c ops ≠ .running w) ∧
      (decodeLoop bytes cap start turns c ops).written.length ≤ cap := by
  induction turns generalizing c ops with
  | zero => omega
  | succ turns ih =>
    cases hstep : decodeStep bytes c with
    | error e =>
      rw [decodeLoop, hstep]
      cases e with
      | fault => exact absurd hstep (noFault_decodeStep bytes c)
      | err e => exact ⟨fun w => ⟨fun h => (nomatch h), fun h => nomatch h⟩, hcap⟩
    | ok r =>
      obtain ⟨a, c₁⟩ := r
      obtain ⟨e, hspan, rfl⟩ := decodeStep_sound hc hstep
      -- every turn advances, so the turns suffice
      have hpos := e.encodes.length_pos
      have hoff : c₁.off = c.off + e.bytes.length := by
        rw [hspan.end_eq]
        rfl
      rw [decodeLoop_turn hstep hcap]
      split
      · exact ⟨fun w => ⟨fun h => (nomatch h), fun h => nomatch h⟩, hcap⟩
      next hroom =>
      split
      · exact ⟨fun w => ⟨fun h => (nomatch h), fun h => nomatch h⟩, Nat.le_of_not_lt hroom⟩
      · exact ih hspan.le (Nat.le_of_not_lt hroom) (by omega)

end Loop

/-! ### Blocks of an image -/

section Image

variable {img : OryxX86Image} {pc : U64} {cap : Nat} {ops : List OryxGinsn} {len : U32}

/-- The image has fewer than `2 ^ 32` bytes and does not reach the end of the address space. -/
structure OryxX86Image.Small (img : OryxX86Image) : Prop where
  length_lt : img.bytes.length < 2 ^ 32
  end_lt : img.base.toNat + img.bytes.length < 2 ^ 64

/-- The address is that of a byte of the image. -/
structure OryxX86Image.Inside (img : OryxX86Image) (pc : U64) : Prop where
  base_le : img.base.toNat ≤ pc.toNat
  lt_end : pc.toNat < img.base.toNat + img.bytes.length

/-- The offset of an address. -/
def OryxX86Image.offset (img : OryxX86Image) (pc : U64) : Nat := (pc - img.base).toNat

/-- The instructions `run` stand at `pc`, are a block and make at most `cap` ops. -/
structure OryxX86Image.BlockAt (img : OryxX86Image) (pc : U64) (cap : Nat) (run : List Encoded) :
    Prop where
  isBlock : IsBlock run
  bytes : codeBytes run <+: img.bytes.drop (img.offset pc)
  fits : (runOps pc run).length ≤ cap

theorem OryxX86Image.Inside.offset_eq (h : img.Inside pc) :
    img.base.toNat + img.offset pc = pc.toNat := by
  have hle := h.base_le
  rw [offset, BitVec.toNat_sub_of_le (BitVec.le_def.mpr hle)]
  omega

/-- The test at the start. -/
theorem notfound_iff (hend : img.base.toNat + img.bytes.length < 2 ^ 64) :
    (pc < img.base ∨ pc ≥ img.base + BitVec.ofNat 64 img.bytes.length) ↔ ¬ img.Inside pc := by
  have hsum : (img.base + BitVec.ofNat 64 img.bytes.length).toNat =
      img.base.toNat + img.bytes.length := by
    rw [BitVec.toNat_add, BitVec.toNat_ofNat, Nat.mod_eq_of_lt (by omega : img.bytes.length < 2 ^ 64),
      Nat.mod_eq_of_lt hend]
  rw [BitVec.lt_def, ge_iff_le, BitVec.le_def, hsum]
  constructor
  · rintro h ⟨h1, h2⟩
    omega
  · intro h
    by_contra hno
    rw [not_or] at hno
    exact h ⟨by omega, by omega⟩

theorem decodeBlock_eq (hend : img.base.toNat + img.bytes.length < 2 ^ 64) (h : img.Inside pc) :
    oryxX86DecodeBlock img pc cap =
      decodeLoop img.bytes cap pc (img.bytes.length + 1) ⟨img.offset pc, pc⟩ [] :=
  if_neg fun hno => (notfound_iff hend).mp hno h

/-- A block is found inside an image that ends before the address space does. -/
theorem inside_of_ok (h : oryxX86DecodeBlock img pc cap = .ok ops len) :
    img.base.toNat + img.bytes.length < 2 ^ 64 ∧ img.Inside pc := by
  unfold oryxX86DecodeBlock at h
  split at h
  · cases h
  next htest =>
  rw [not_or, BitVec.lt_def, ge_iff_le, BitVec.le_def, BitVec.toNat_add, BitVec.toNat_ofNat] at htest
  have hlt := img.lt
  have hbase := img.base.isLt
  have hend : img.base.toNat + img.bytes.length < 2 ^ 64 := by omega
  exact ⟨hend, by omega, by omega⟩

/-- What is accepted is a block. -/
theorem blockAt_of_ok (h : oryxX86DecodeBlock img pc cap = .ok ops len) :
    ∃ run, img.BlockAt pc cap run ∧ ops = runOps pc run ∧
      len = BitVec.ofNat 32 (codeBytes run).length := by
  obtain ⟨hend, hin⟩ := inside_of_ok h
  have hoff := hin.offset_eq
  have hlt := hin.lt_end
  rw [decodeBlock_eq hend hin] at h
  obtain ⟨run, c', hrun, hspan, hops, hfits, hlen⟩ :=
    decodeLoop_sound (show img.offset pc ≤ img.bytes.length by omega) (Nat.zero_le cap) h
  rw [List.nil_append] at hops
  refine ⟨run, ⟨hrun, ⟨_, hspan.bytes.symm⟩, hops ▸ hfits⟩, hops, ?_⟩
  rw [hlen, hspan.end_eq]
  show (pc + BitVec.ofNat 64 (codeBytes run).length - pc).setWidth 32 = _
  rw [BitVec.add_comm, BitVec.add_sub_cancel]
  apply BitVec.eq_of_toNat_eq
  rw [BitVec.toNat_setWidth, BitVec.toNat_ofNat, BitVec.toNat_ofNat]
  omega

/-- The bytes of a block are bytes of the image. -/
theorem OryxX86Image.BlockAt.length_le {run : List Encoded} (h : img.BlockAt pc cap run) :
    (codeBytes run).length ≤ img.bytes.length - img.offset pc := by
  have hle := h.bytes.length_le
  rwa [List.length_drop] at hle

/-- In an image of fewer than 2^32 bytes the length reported is the one of the block. -/
theorem exactBlockAt_of_ok (himg : img.Small) (h : oryxX86DecodeBlock img pc cap = .ok ops len) :
    ∃ run, img.BlockAt pc cap run ∧ ops = runOps pc run ∧ len.toNat = (codeBytes run).length := by
  obtain ⟨run, hrun, hops, hlen⟩ := blockAt_of_ok h
  have hle := hrun.length_le
  have hlt := himg.length_lt
  refine ⟨run, hrun, hops, ?_⟩
  rw [hlen, BitVec.toNat_ofNat]
  exact Nat.mod_eq_of_lt (by omega)

/-- **The decoder is exact**: inside the image it accepts the blocks that fit, and gives their ops
and their length. -/
theorem decodeBlock_ok_iff (himg : img.Small) (hin : img.Inside pc) :
    oryxX86DecodeBlock img pc cap = .ok ops len ↔
      ∃ run, img.BlockAt pc cap run ∧ ops = runOps pc run ∧ len.toNat = (codeBytes run).length := by
  constructor
  · exact fun h => exactBlockAt_of_ok himg h
  · rintro ⟨run, hrun, rfl, hlen⟩
    have hoff := hin.offset_eq
    have hlt := hin.lt_end
    obtain ⟨rest, hrest⟩ := hrun.bytes
    have hblock := @decodeLoop_block img.bytes cap (img.bytes.length + 1) pc ⟨img.offset pc, pc⟩ []
      run rest hrun.isBlock (show img.offset pc ≤ img.bytes.length by omega) hrest.symm hrun.fits
      (by omega)
    rw [decodeBlock_eq himg.end_lt hin, hblock, List.nil_append, Outcome.ok.injEq]
    refine ⟨rfl, ?_⟩
    show (pc + BitVec.ofNat 64 (codeBytes run).length - pc).setWidth 32 = len
    have hlen' := len.isLt
    rw [BitVec.add_comm, BitVec.add_sub_cancel]
    apply BitVec.eq_of_toNat_eq
    rw [BitVec.toNat_setWidth, BitVec.toNat_ofNat]
    omega

/-! ### Truncated images -/

/-- The image cut to end `k` bytes after `pc`. -/
def OryxX86Image.cut (img : OryxX86Image) (pc : U64) (k : Nat) : OryxX86Image where
  bytes := img.bytes.take (img.offset pc + k)
  base := img.base
  lt := Nat.lt_of_le_of_lt (List.length_take_le' _ _) img.lt

/-- The cut is reported as such. -/
def ReportsTruncation (img : OryxX86Image) (pc : U64) (cap k : Nat) : Prop :=
  ∃ w, oryxX86DecodeBlock (img.cut pc k) pc cap = .error .format w

/-- What a block that is cut short comes to. -/
theorem decodeBlock_cut {run : List Encoded} {k : Nat}
    (hend : img.base.toNat + img.bytes.length < 2 ^ 64) (hin : img.Inside pc)
    (hrun : img.BlockAt pc cap run) (hk : 0 < k) (hlt : k < (codeBytes run).length) :
    ∃ w, oryxX86DecodeBlock (img.cut pc k) pc cap =
      .error (if splitsEndbr64 run k = true then .unsupported else .format) w := by
  have hoff := hin.offset_eq
  have hle := hrun.length_le
  have hlen : (img.cut pc k).bytes.length = img.offset pc + k := by
    show (img.bytes.take (img.offset pc + k)).length = _
    rw [List.length_take]
    omega
  have hbase : (img.cut pc k).base = img.base := rfl
  have hoff' : (img.cut pc k).offset pc = img.offset pc := rfl
  have hin' : (img.cut pc k).Inside pc := ⟨hin.base_le, by rw [hbase, hlen]; omega⟩
  -- what is left at the start of the block
  have hdrop : (img.cut pc k).bytes.drop (img.offset pc) = (codeBytes run).take k := by
    obtain ⟨rest, hrest⟩ := hrun.bytes
    show (img.bytes.take (img.offset pc + k)).drop (img.offset pc) = _
    rw [List.drop_take, Nat.add_sub_cancel_left, ← hrest, List.take_append_of_le_length (by omega)]
  have hsplit : codeBytes run =
      (img.cut pc k).bytes.drop (img.offset pc) ++ (codeBytes run).drop k := by
    rw [hdrop, List.take_append_drop]
  have hne : (codeBytes run).drop k ≠ [] := by
    intro hnil
    have hzero := congrArg List.length hnil
    rw [List.length_drop, List.length_nil] at hzero
    omega
  have hcut := @decodeLoop_cut (img.cut pc k).bytes cap ((img.cut pc k).bytes.length + 1) pc
    ⟨img.offset pc, pc⟩ [] run ((codeBytes run).drop k) hrun.isBlock
    (show img.offset pc ≤ _ by rw [hlen]; omega) hne hsplit hrun.fits (by omega)
  have hkeep : ((img.cut pc k).bytes.drop (img.offset pc)).length = k := by
    rw [hdrop, List.length_take]
    omega
  rw [decodeBlock_eq (by rw [hbase, hlen]; omega) hin', hoff']
  dsimp only at hcut
  rwa [hkeep] at hcut

/-- **When a truncated block is reported as truncated**: when the image does not end inside an
`ENDBR64` of it. -/
theorem reportsTruncation_iff (h : oryxX86DecodeBlock img pc cap = .ok ops len) :
    ∃ run, img.BlockAt pc cap run ∧ ops = runOps pc run ∧ ∀ k, 0 < k → k < len.toNat →
      (ReportsTruncation img pc cap k ↔ splitsEndbr64 run k = false) := by
  obtain ⟨hend, hin⟩ := inside_of_ok h
  obtain ⟨run, hrun, hops, hlen⟩ := blockAt_of_ok h
  refine ⟨run, hrun, hops, fun k hk hlt => ?_⟩
  have hshort : k < (codeBytes run).length := by
    rw [hlen, BitVec.toNat_ofNat] at hlt
    exact Nat.lt_of_lt_of_le hlt (Nat.mod_le _ _)
  obtain ⟨w, hcut⟩ := decodeBlock_cut hend hin hrun hk hshort
  constructor
  · rintro ⟨w', hformat⟩
    rw [hcut] at hformat
    by_contra hsplit
    rw [if_pos (Bool.eq_true_of_not_eq_false hsplit)] at hformat
    cases hformat
  · intro hsplit
    rw [if_neg (by rw [hsplit]; exact Bool.false_ne_true)] at hcut
    exact ⟨w, hcut⟩

/-! ### Any bytes -/

/-- What a call that returns `ORYX_OK` guarantees. -/
structure DecodedBlock (img : OryxX86Image) (pc : U64) (cap : Nat) (ops : List OryxGinsn)
    (len : U32) : Prop where
  nonempty : 1 ≤ ops.length
  fits : ops.length ≤ cap
  start : img.base.toNat ≤ pc.toNat
  span : pc.toNat + len.toNat ≤ img.base.toNat + img.bytes.length
  terminator : ∃ body last, ops = body ++ [last] ∧ (∀ i ∈ body, i.terminates = false) ∧
    last.terminates = true
  dense : ops.length ≤ len.toNat

/-- The call ends, reads inside the image and writes below `cap`, and what it accepts is a
block. -/
structure DecodesSafely (img : OryxX86Image) (pc : U64) (cap : Nat) : Prop where
  ends : ∀ w, oryxX86DecodeBlock img pc cap ≠ .running w
  reads : ∀ w, oryxX86DecodeBlock img pc cap ≠ .fault w
  writes : (oryxX86DecodeBlock img pc cap).written.length ≤ cap
  accepted : ∀ ops len, oryxX86DecodeBlock img pc cap = .ok ops len →
    DecodedBlock img pc cap ops len

/-- **The decoder is safe** on any bytes. -/
theorem decodes_safely (himg : img.Small) (pc : U64) (cap : Nat) : DecodesSafely img pc cap := by
  -- whatever the call returns
  have hcall : (∀ w, oryxX86DecodeBlock img pc cap ≠ .fault w ∧
      oryxX86DecodeBlock img pc cap ≠ .running w) ∧
      (oryxX86DecodeBlock img pc cap).written.length ≤ cap := by
    by_cases hin : img.Inside pc
    · have hoff := hin.offset_eq
      have hlt := hin.lt_end
      rw [decodeBlock_eq himg.end_lt hin]
      exact decodeLoop_safe (show img.offset pc ≤ _ by omega) (Nat.zero_le cap)
        (show _ < img.bytes.length + 1 + img.offset pc by omega)
    · have hno : oryxX86DecodeBlock img pc cap = .error .notfound [] :=
        if_pos ((notfound_iff himg.end_lt).mpr hin)
      rw [hno]
      exact ⟨fun w => ⟨fun h => (nomatch h), fun h => nomatch h⟩, Nat.zero_le cap⟩
  refine ⟨fun w => (hcall.1 w).2, fun w => (hcall.1 w).1, hcall.2, fun ops len h => ?_⟩
  have hin := (inside_of_ok h).2
  obtain ⟨run, hrun, rfl, hlen⟩ := exactBlockAt_of_ok himg h
  obtain ⟨body, last, heq, hbody, hlast⟩ := runOps_eq_append hrun.isBlock pc
  have hoff := hin.offset_eq
  have hlt := hin.lt_end
  have hle := hrun.length_le
  refine ⟨?_, hrun.fits, hin.base_le, by omega, ⟨body, last, heq, hbody, hlast⟩, ?_⟩
  · rw [heq, List.length_append, List.length_singleton]
    omega
  · rw [hlen]
    exact length_runOps_le pc run

end Image

/-! ### `endbr64; test rdi, rdi; jle` -/

/-- The entry block of `sum_to_n`. -/
def entryImage : OryxX86Image where
  bytes := [0xf3, 0x0f, 0x1e, 0xfa, 0x48, 0x85, 0xff, 0x7e, 0x1e]
  base := 0x400000
  lt := by decide

theorem decodeBlock_ok_iff_entry :
    ∃ run, entryImage.BlockAt 0x400000 16 run ∧
      [ginsn .testRr 7 7 0, { ginsn .br 0 0 0 with cc := gccLe, target := 0x400027 }] =
        runOps 0x400000 run ∧ (9 : U32).toNat = (codeBytes run).length :=
  (decodeBlock_ok_iff ⟨by decide, by decide⟩ ⟨by decide, by decide⟩).mp (by decide)

theorem decodes_safely_entry : DecodesSafely entryImage 0x400004 1 :=
  decodes_safely ⟨by decide, by decide⟩ 0x400004 1

theorem reportsTruncation_entry :
    ∃ run, entryImage.BlockAt 0x400000 16 run ∧
      [ginsn .testRr 7 7 0, { ginsn .br 0 0 0 with cc := gccLe, target := 0x400027 }] =
        runOps 0x400000 run ∧ ∀ k, 0 < k → k < (9 : U32).toNat →
        (ReportsTruncation entryImage 0x400000 16 k ↔ splitsEndbr64 run k = false) :=
  reportsTruncation_iff (by decide)

/-- Cut after its first byte, the block is answered with `ORYX_ERR_UNSUPPORTED`. -/
theorem not_reportsTruncation_entry :
    (∃ ops, oryxX86DecodeBlock entryImage 0x400000 16 = .ok ops 9) ∧
      oryxX86DecodeBlock (entryImage.cut 0x400000 1) 0x400000 16 = .error .unsupported [] ∧
      ¬ ReportsTruncation entryImage 0x400000 16 1 := by
  have hcut : oryxX86DecodeBlock (entryImage.cut 0x400000 1) 0x400000 16 =
      .error .unsupported [] := by decide
  refine ⟨⟨_, rfl⟩, hcut, ?_⟩
  rintro ⟨w, hw⟩
  rw [hcut] at hw
  cases hw

end Oryx
