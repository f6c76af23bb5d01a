/-
Oryx/FlagRuns.lean

The guest's flags along a run of the dispatcher.

The emitted code keeps the guest's flags in the host's NZCV.  Between two
blocks the dispatcher's own C code runs, `oryx_guest` has no flags and the
trampoline neither saves nor restores them, so on entry to a block the host
flags are arbitrary.  A run (`ProgramRun`) is the list of the blocks run, each
with the machine state it was entered in.

Beside the run a ghost carries the x86 flags of the last flag-writing
instruction executed (`flagsAfterOps`), and `FlagsKept` says that every
`GOP_BR` and `GOP_SETCC` of the run evaluates its condition on them.  That
holds when no condition looks across the entry of its block (`RunCovered`,
`flagsKept_of_covered`), and fails for some host flags as soon as one does
(`flags_lost_across_blocks`).
-/
import Oryx.Dispatch
import Oryx.Preservation

namespace Oryx

open A64

/-! ### Runs -/

/-- A block that is run, and the machine on entry to it. -/
structure BlockEntry where
  pc : U64
  host : A64.State

/-- A machine that `oryx_tramp` may enter a block with: the guest's registers and memory, the
halt sentinel in `x17`, and anything in the rest, NZCV included. -/
structure Enters (g : X86State) (s : A64.State) : Prop where
  regs : (guestOf s).regs = g.regs
  mem : (guestOf s).mem = g.mem
  x17 : s.x 17 = oryxHaltPc

/-- The blocks that `oryx_run_program` runs from a PC and guest state on. -/
inductive ProgramRun (fetch : U64 → FetchAnswer) (policy : MmPolicy) (strength : OrderStrength) :
    U64 → X86State → List BlockEntry → Prop
  | stop (pc : U64) (g : X86State) : ProgramRun fetch policy strength pc g []
  | turn {pc : U64} {g : X86State} {exe : OryxExec} {s s' : A64.State} {t : U64}
      {bs : List BlockEntry} (hpc : pc ≠ oryxHaltPc)
      (hbuild : oryxBuildBlock fetch policy strength pc = .ok exe) (henter : Enters g s)
      (hret : Returns exe.words 0 s t s')
      (hrest : ProgramRun fetch policy strength (s'.x 17) (guestOf s') bs) :
      ProgramRun fetch policy strength pc g (⟨pc, s⟩ :: bs)

variable {fetch : U64 → FetchAnswer} {policy : MmPolicy} {strength : OrderStrength}

/-- The translator's parameters for the block at a PC. -/
def blockAt (fetch : U64 → FetchAnswer) (policy : MmPolicy) (strength : OrderStrength)
    (pc : U64) : TransCfg :=
  ⟨policy, strength, pc, (fetch pc).len⟩

/-- A block that is built is a linked block of the ops fetched. -/
theorem linkedBlock_of_build {pc : U64} {exe : OryxExec}
    (h : oryxBuildBlock fetch policy strength pc = .ok exe) :
    ∃ body last op, LinkedBlock (blockAt fetch policy strength pc) (fetch pc).ops exe.words
      body last op := by
  rw [oryxBuildBlock] at h
  split at h
  · cases h
  split at h
  · cases h
  split at h
  · cases h
  · next tu st htrans =>
    split at h
    · cases h
    · next e hlink =>
      cases h
      obtain ⟨exe', body, last, op, hlink', hblock⟩ := linked_translated htrans
      rw [hlink] at hlink'
      cases hlink'
      exact ⟨body, last, op, hblock⟩

/-! ### The flags of x86 along a run -/

/-- The ops whose x86 instruction writes the status flags. -/
def GuestOp.writesFlags : GuestOp → Bool
  | .addRr | .subRr | .cmpRr | .atomicAdd | .atomicCas | .addRi | .subRi | .cmpRi | .testRr
  | .xorRr | .andRr | .orRr => true
  | _ => false

def OryxGinsn.writesFlags (i : OryxGinsn) : Bool := i.opcode.any GuestOp.writesFlags

/-- The ops that evaluate a condition. -/
def OryxGinsn.readsFlags (i : OryxGinsn) : Bool :=
  i.opcode == some .br || i.opcode == some .setcc

/-- The flags of the last flag-writing instruction, after one more instruction is executed in
`g`. -/
def flagsAfter (f : Option X86.Flags) (g : X86State) (i : OryxGinsn) : Option X86.Flags :=
  match i.opcode with
  | some op => if op.writesFlags then some (x86Exec i op g).flags else f
  | none => f

/-- The same after several ops, each executed in the guest state the machine is in
(`LinkedBlock.prefix`). -/
def flagsAfterOps : List OryxGinsn → X86State → Option X86.Flags → Option X86.Flags
  | [], _, f => f
  | i :: is, g, f => flagsAfterOps is (emittedStep g i) (flagsAfter f g i)

/-- The conditions of a block entered in `s`, the last flags before it being `f`: where the
code of an op that reads flags starts, the machine's condition is the one x86 evaluates. -/
def BlockKeepsFlags (cfg : TransCfg) (ops : List OryxGinsn) (ws : List Word) (s : A64.State)
    (f : Option X86.Flags) : Prop :=
  ∀ k i c, ops[k]? = some i → i.readsFlags = true → gccCond i.cc = some c →
    ∀ x86, flagsAfterOps (ops.take k) (guestOf s) f = some x86 →
      ∀ u, iterate ws (opStart cfg ops k) 0 s = some (opStart cfg ops k, u) →
        condHolds (xcond (armCond i.cc)) u.flags = c.holds x86

/-- **The flags are kept** along a run. -/
def FlagsKept (fetch : U64 → FetchAnswer) (policy : MmPolicy) (strength : OrderStrength) :
    Option X86.Flags → List BlockEntry → Prop
  | _, [] => True
  | f, b :: bs =>
      (∀ exe, oryxBuildBlock fetch policy strength b.pc = .ok exe →
        BlockKeepsFlags (blockAt fetch policy strength b.pc) (fetch b.pc).ops exe.words b.host f) ∧
      FlagsKept fetch policy strength
        (flagsAfterOps (fetch b.pc).ops (guestOf b.host) f) bs

/-! ### The condition -/

/-- The last flag-writing op of a list. -/
def lastWriter (ops : List OryxGinsn) : Option OryxGinsn :=
  (ops.filter OryxGinsn.writesFlags).getLast?

/-- The code emitted for a flag-writing op leaves the x86 value of the condition `cc`: LOCK ops
leave NZCV alone, and `SUB_RI` of the smallest number gets OF wrong. -/
def LeavesCondition (w : OryxGinsn) (cc : CInt) : Prop :=
  w.opcode ≠ some .atomicAdd ∧ w.opcode ≠ some .atomicCas ∧
    (w.opcode = some .subRi → w.imm = BitVec.intMin 64 → cc = gccEq ∨ cc = gccNe)

/-- Every condition of a block is decided by an op of the block, or no flag-writing op has
executed at all; `ran` says that one has before the block. -/
def BlockCovered (ran : Bool) (ops : List OryxGinsn) : Prop :=
  ∀ k i, ops[k]? = some i → i.readsFlags = true →
    (ran = false ∧ lastWriter (ops.take k) = none) ∨
      ∃ w, lastWriter (ops.take k) = some w ∧ LeavesCondition w i.cc

/-- No condition of the run looks across the entry of its block. -/
def RunCovered (fetch : U64 → FetchAnswer) : Bool → List BlockEntry → Prop
  | _, [] => True
  | ran, b :: bs =>
      BlockCovered ran (fetch b.pc).ops ∧
        RunCovered fetch (ran || (fetch b.pc).ops.any OryxGinsn.writesFlags) bs

/-! ### One op -/

theorem flags_of_not_writes {i : OryxGinsn} (h : i.writesFlags = false) (g : X86State)
    (f : Option X86.Flags) :
    (emittedStep g i).flags = g.flags ∧ flagsAfter f g i = f := by
  unfold OryxGinsn.writesFlags at h
  unfold emittedStep flagsAfter
  cases hop : i.opcode with
  | none => exact ⟨rfl, rfl⟩
  | some op =>
    rw [hop] at h
    have hw : op.writesFlags = false := h
    refine ⟨?_, if_neg (by rw [hw]; exact Bool.false_ne_true)⟩
    cases op <;> first | (cases hw; done) | rfl

/-- A flag-writing op leaves its x86 flags, as far as the condition goes. -/
theorem flags_of_writes {w : OryxGinsn} {cc : CInt} {c : X86.Cond} (h : w.writesFlags = true)
    (hleaves : LeavesCondition w cc) (hc : gccCond cc = some c) (g : X86State)
    (f : Option X86.Flags) :
    ∃ x86, flagsAfter f g w = some x86 ∧ c.holds (emittedStep g w).flags = c.holds x86 := by
  obtain ⟨hadd, hcas, hsub⟩ := hleaves
  unfold OryxGinsn.writesFlags at h
  unfold emittedStep flagsAfter
  cases hop : w.opcode with
  | none =>
    rw [hop] at h
    cases h
  | some op =>
    rw [hop] at h hadd hcas hsub
    have hw : op.writesFlags = true := h
    refine ⟨(x86Exec w op g).flags, if_pos hw, ?_⟩
    cases op with
    | atomicAdd => exact absurd rfl hadd
    | atomicCas => exact absurd rfl hcas
    | subRi =>
      by_cases hmin : w.imm = BitVec.intMin 64
      · -- only ZF is right, and only it is read
        have hzf : (emittedExec w .subRi g).flags.zf = (x86Exec w .subRi g).flags.zf := by
          show (g.regs (greg w.rd) + -w.imm == 0) = (g.regs (greg w.rd) - w.imm == 0)
          rw [BitVec.sub_eq_add_neg]
        rcases hsub rfl hmin with rfl | rfl
        · cases hc
          exact hzf
        · cases hc
          exact congrArg (!·) hzf
      · have hfaithful : Faithful w .subRi := by
          refine ⟨by decide, by decide, ?_, fun _ => hmin⟩
          rintro (hstack | hstack) <;> cases hstack
        exact congrArg (fun g' => c.holds (X86State.flags g')) (emittedExec_eq hfaithful g)
    | _ => first | (cases hw; done) | rfl

/-! ### One block -/

theorem flagsAfterOps_append (ops : List OryxGinsn) (i : OryxGinsn) (g : X86State)
    (f : Option X86.Flags) :
    flagsAfterOps (ops ++ [i]) g f = flagsAfter (flagsAfterOps ops g f) (emittedRun ops g) i := by
  induction ops generalizing g f with
  | nil => rfl
  | cons j ops ih => exact ih _ _

theorem lastWriter_append (ops : List OryxGinsn) (i : OryxGinsn) :
    lastWriter (ops ++ [i]) = if i.writesFlags = true then some i else lastWriter ops := by
  rw [lastWriter, List.filter_append]
  cases hw : i.writesFlags with
  | true => rw [List.filter_cons_of_pos hw, List.filter_nil, List.getLast?_concat, if_pos rfl]
  | false =>
    rw [List.filter_cons_of_neg (by rw [hw]; exact Bool.false_ne_true), List.filter_nil,
      List.append_nil, if_neg Bool.false_ne_true]
    rfl

theorem emittedRun_append (ops : List OryxGinsn) (i : OryxGinsn) (g : X86State) :
    emittedRun (ops ++ [i]) g = emittedStep (emittedRun ops g) i := by
  rw [emittedRun, List.foldl_append]
  rfl

/-- Without a flag-writing op the flags stand. -/
theorem flagsAfterOps_of_no_writer {ops : List OryxGinsn} (h : lastWriter ops = none)
    (g : X86State) (f : Option X86.Flags) : flagsAfterOps ops g f = f := by
  induction ops using List.reverseRecOn with
  | nil => rfl
  | append_singleton ops i ih =>
    rw [lastWriter_append] at h
    cases hw : i.writesFlags with
    | true =>
      rw [hw, if_pos rfl] at h
      cases h
    | false =>
      rw [hw, if_neg Bool.false_ne_true] at h
      rw [flagsAfterOps_append, (flags_of_not_writes hw _ _).2, ih h]

/-- After the last flag-writing op the condition is the one of its x86 flags. -/
theorem flagsAfterOps_of_writer {ops : List OryxGinsn} {w : OryxGinsn} {cc : CInt}
    {c : X86.Cond} (h : lastWriter ops = some w) (hleaves : LeavesCondition w cc)
    (hc : gccCond cc = some c) (g : X86State) (f : Option X86.Flags) :
    ∃ x86, flagsAfterOps ops g f = some x86 ∧
      c.holds (emittedRun ops g).flags = c.holds x86 := by
  induction ops using List.reverseRecOn with
  | nil => cases h
  | append_singleton ops i ih =>
    rw [lastWriter_append] at h
    rw [flagsAfterOps_append, emittedRun_append]
    cases hw : i.writesFlags with
    | true =>
      rw [hw, if_pos rfl] at h
      cases h
      exact flags_of_writes hw hleaves hc _ _
    | false =>
      rw [hw, if_neg Bool.false_ne_true] at h
      obtain ⟨hflags, hstay⟩ := flags_of_not_writes hw (emittedRun ops g) (flagsAfterOps ops g f)
      rw [hstay, hflags]
      exact ih h

theorem any_writesFlags_iff (ops : List OryxGinsn) :
    ops.any OryxGinsn.writesFlags = false ↔ lastWriter ops = none := by
  rw [lastWriter, List.getLast?_eq_none_iff, List.filter_eq_nil_iff, List.any_eq_false]

/-- An index that names an op of a linked block is within its body, or the terminator's. -/
theorem LinkedBlock.index_le {cfg : TransCfg} {ops body : List OryxGinsn} {ws : List Word}
    {last i : OryxGinsn} {op : GuestOp} (h : LinkedBlock cfg ops ws body last op) {k : Nat}
    (hk : ops[k]? = some i) : k ≤ body.length := by
  have hlt := (List.getElem?_eq_some_iff.mp hk).1
  rw [h.ops_eq, List.length_append, List.length_singleton] at hlt
  omega

/-- The machine's condition at an op is the condition of the guest flags there. -/
theorem LinkedBlock.condHolds_at {cfg : TransCfg} {ops body : List OryxGinsn} {ws : List Word}
    {last i : OryxGinsn} {op : GuestOp} (h : LinkedBlock cfg ops ws body last op) {k : Nat}
    (hk : ops[k]? = some i) {c : X86.Cond} (hc : gccCond i.cc = some c) {s u : A64.State}
    (hu : iterate ws (opStart cfg ops k) 0 s = some (opStart cfg ops k, u)) :
    condHolds (xcond (armCond i.cc)) u.flags =
      c.holds (emittedRun (ops.take k) (guestOf s)).flags := by
  obtain ⟨u', hu', hg⟩ := h.prefix (h.index_le hk) s
  rw [hu] at hu'
  cases hu'
  have hcond := (condHolds_armCond (by rw [hc]; rfl) u.flags).1
  rw [hcond, gccHolds, hc, ← hg]
  rfl

/-- A covered block keeps the flags. -/
theorem BlockCovered.keepsFlags {cfg : TransCfg} {ops body : List OryxGinsn} {ws : List Word}
    {last : OryxGinsn} {op : GuestOp} (hblock : LinkedBlock cfg ops ws body last op) {ran : Bool}
    (h : BlockCovered ran ops) {f : Option X86.Flags} (hf : ran = false → f = none)
    (s : A64.State) : BlockKeepsFlags cfg ops ws s f := by
  intro k i c hk hreads hc x86 hx86 u hu
  rw [hblock.condHolds_at hk hc hu]
  rcases h k i hk hreads with ⟨hran, hnone⟩ | ⟨w, hw, hleaves⟩
  · -- no flag-writing op has executed
    rw [flagsAfterOps_of_no_writer hnone, hf hran] at hx86
    cases hx86
  · obtain ⟨x, hx, hholds⟩ := flagsAfterOps_of_writer hw hleaves hc (guestOf s) f
    rw [hx] at hx86
    cases hx86
    exact hholds

/-! ### Runs -/

theorem flagsKept_from {pc : U64} {g : X86State} {bs : List BlockEntry}
    (hrun : ProgramRun fetch policy strength pc g bs) {ran : Bool} {f : Option X86.Flags}
    (hf : ran = false → f = none) (hcov : RunCovered fetch ran bs) :
    FlagsKept fetch policy strength f bs := by
  induction hrun generalizing ran f with
  | stop => trivial
  | @turn pc g exe s s' t bs hpc hbuild henter hret hrest ih =>
    obtain ⟨hblockCov, hrestCov⟩ := hcov
    constructor
    · intro exe' hbuild'
      obtain ⟨body, last, op, hblock⟩ := linkedBlock_of_build hbuild'
      exact hblockCov.keepsFlags hblock hf s
    · refine ih (fun hnone => ?_) hrestCov
      rw [Bool.or_eq_false_iff] at hnone
      rw [flagsAfterOps_of_no_writer ((any_writesFlags_iff _).mp hnone.2), hf hnone.1]

/-- **Covered runs keep the flags**: every condition of the run is the x86 condition of the
flags the last flag-writing instruction executed before it left. -/
theorem flagsKept_of_covered {pc : U64} {g : X86State} {bs : List BlockEntry}
    (hrun : ProgramRun fetch policy strength pc g bs) (hcov : RunCovered fetch false bs) :
    FlagsKept fetch policy strength none bs :=
  flagsKept_from hrun (fun _ => rfl) hcov

/-! ### Conditions that look across the entry of their block -/

/-- A machine that the trampoline may enter a block with, for any host flags. -/
def entryState (g : X86State) (fl : A64.Flags) : A64.State where
  x r := if h : r.val < 16 then g.regs ⟨r.val, h⟩ else oryxHaltPc
  sp := 0
  flags := fl
  mem := g.mem

theorem enters_entryState (g : X86State) (fl : A64.Flags) : Enters g (entryState g fl) where
  regs := by
    funext r
    exact dif_pos r.isLt
  mem := rfl
  x17 := rfl

/-- Every condition takes both values on host flags. -/
theorem exists_flags_holds (c : X86.Cond) (b : Bool) :
    ∃ fl : A64.Flags, c.holds (guestFlags fl) = b := by
  cases b with
  | true =>
    cases c with
    | e | le => exact ⟨⟨false, true, false, false⟩, rfl⟩
    | ne | ge | g => exact ⟨⟨false, false, false, false⟩, rfl⟩
    | l => exact ⟨⟨true, false, false, false⟩, rfl⟩
  | false =>
    cases c with
    | e | l | le => exact ⟨⟨false, false, false, false⟩, rfl⟩
    | ne | g => exact ⟨⟨false, true, false, false⟩, rfl⟩
    | ge => exact ⟨⟨true, false, false, false⟩, rfl⟩

/-- Without a flag-writing op the flags are those on entry. -/
theorem emittedRun_flags {ops : List OryxGinsn} (h : lastWriter ops = none) (g : X86State) :
    (emittedRun ops g).flags = g.flags := by
  induction ops using List.reverseRecOn with
  | nil => rfl
  | append_singleton ops i ih =>
    rw [lastWriter_append] at h
    cases hw : i.writesFlags with
    | true =>
      rw [hw, if_pos rfl] at h
      cases h
    | false =>
      rw [hw, if_neg Bool.false_ne_true] at h
      rw [emittedRun_append, (flags_of_not_writes hw _ none).1, ih h]

/-- **Flags are lost between blocks**: a condition that no op of its block decides is wrong for
some host flags on entry, whatever flags the guest has. -/
theorem flags_lost_across_blocks {cfg : TransCfg} {ops body : List OryxGinsn} {ws : List Word}
    {last i : OryxGinsn} {op : GuestOp} (hblock : LinkedBlock cfg ops ws body last op) {k : Nat}
    (hk : ops[k]? = some i) (hreads : i.readsFlags = true) {c : X86.Cond}
    (hc : gccCond i.cc = some c) (hnone : lastWriter (ops.take k) = none) (g : X86State)
    (x86 : X86.Flags) :
    ∃ fl, ¬ BlockKeepsFlags cfg ops ws (entryState g fl) (some x86) := by
  obtain ⟨fl, hfl⟩ := exists_flags_holds c (!c.holds x86)
  refine ⟨fl, fun hkeeps => ?_⟩
  obtain ⟨u, hu, hg⟩ := hblock.prefix (hblock.index_le hk) (entryState g fl)
  have hmachine := hblock.condHolds_at hk hc hu
  rw [emittedRun_flags hnone] at hmachine
  have hx86 := hkeeps k i c hk hreads hc x86 (flagsAfterOps_of_no_writer hnone _ _) u hu
  have hcond : c.holds (guestOf (entryState g fl)).flags = c.holds x86 := hmachine.symm.trans hx86
  have hflip : c.holds (guestOf (entryState g fl)).flags = !c.holds x86 := hfl
  rw [hcond] at hflip
  cases hh : c.holds x86 with
  | true => rw [hh] at hflip; cases hflip
  | false => rw [hh] at hflip; cases hflip

/-! ### `cmp; je A`, falling through to `jl B` -/

/-- A block that is fetched and translated is built. -/
theorem oryxBuildBlock_ok {pc : U64} {tu : OryxTu} {st : OryxMmStats}
    (hrc : (fetch pc).rc = oryxOk)
    (hlen : ¬ ((fetch pc).ops.length = 0 ∨ oryxMaxBlockOps < (fetch pc).ops.length))
    (htrans : oryxTranslateEx (fetch pc).ops (blockAt fetch policy strength pc) 0 = .ok (tu, st)) :
    ∃ exe body last op, oryxBuildBlock fetch policy strength pc = .ok exe ∧
      LinkedBlock (blockAt fetch policy strength pc) (fetch pc).ops exe.words body last op := by
  obtain ⟨exe, body, last, op, hlink, hblock⟩ := linked_translated htrans
  refine ⟨exe, body, last, op, ?_, hblock⟩
  rw [oryxBuildBlock, if_neg (not_not.mpr hrc), if_neg hlen]
  rw [blockAt] at htrans
  rw [htrans]
  dsimp only
  rw [hlink]

/-- `cmp rax, rbx; je 0x3000` at `0x1000`, and `jl 0x4000` where it falls through. -/
def cmpJeJl : U64 → FetchAnswer := fun pc =>
  if pc = 0x1000 then
    ⟨oryxOk, [ginsn .cmpRr 0 3 0, { ginsn .br 0 0 0 with target := 0x3000, cc := gccEq }], 5⟩
  else ⟨oryxOk, [{ ginsn .br 0 0 0 with target := 0x4000, cc := gccLt }], 2⟩

/-- `rax` is 1 and `rbx` is 2. -/
def oneAndTwo : X86State where
  regs r := if r = 0 then 1 else if r = 3 then 2 else 0
  flags := ⟨false, false, false⟩
  mem := fun _ => 0

/-- The same, with a `cmp rax, rbx` before the `jl`. -/
def cmpJeCmpJl : U64 → FetchAnswer := fun pc =>
  if pc = 0x1000 then
    ⟨oryxOk, [ginsn .cmpRr 0 3 0, { ginsn .br 0 0 0 with target := 0x3000, cc := gccEq }], 5⟩
  else ⟨oryxOk, [ginsn .cmpRr 0 3 0, { ginsn .br 0 0 0 with target := 0x4000, cc := gccLt }], 5⟩

/-- A block `cmp; jcc` covers itself. -/
theorem blockCovered_cmpBr (ran : Bool) {i : OryxGinsn} :
    BlockCovered ran [ginsn .cmpRr 0 3 0, i] := by
  intro k j hk hreads
  match k with
  | 0 =>
    cases hk
    cases hreads
  | 1 => exact Or.inr ⟨ginsn .cmpRr 0 3 0, rfl, by decide, by decide, fun h => by cases h⟩
  | k + 2 => cases hk

/-- Both blocks cover themselves, and the run from the one into the other keeps the flags: the
second is entered with others than the first has left. -/
theorem flagsKept_of_covered_twoBlocks :
    ∃ s₀ s₁, s₁.flags = ⟨false, true, false, true⟩ ∧ ProgramRun cmpJeCmpJl .conservative .sc 0x1000 oneAndTwo
        [⟨0x1000, s₀⟩, ⟨0x1005, s₁⟩] ∧
      FlagsKept cmpJeCmpJl .conservative .sc none [⟨0x1000, s₀⟩, ⟨0x1005, s₁⟩] := by
  obtain ⟨exe₀, body₀, last₀, op₀, hbuild₀, hblock₀⟩ :=
    @oryxBuildBlock_ok cmpJeCmpJl .conservative .sc 0x1000 _ _ rfl (by decide) rfl
  obtain ⟨exe₁, body₁, last₁, op₁, hbuild₁, hblock₁⟩ :=
    @oryxBuildBlock_ok cmpJeCmpJl .conservative .sc 0x1005 _ _ rfl (by decide) rfl
  obtain ⟨hbody₀, hlast₀⟩ :=
    List.append_inj' (show [_] ++ [_] = body₀ ++ [last₀] from hblock₀.ops_eq) rfl
  cases hbody₀
  cases hlast₀
  obtain ⟨s₀', hret₀, -, hpc₀⟩ := hblock₀.returns (fun _ => by decide)
    (entryState oneAndTwo ⟨false, false, false, false⟩) rfl
  have hnext : s₀'.x 17 = 0x1005 := hpc₀.trans (by decide)
  obtain ⟨hbody₁, hlast₁⟩ :=
    List.append_inj' (show [_] ++ [_] = body₁ ++ [last₁] from hblock₁.ops_eq) rfl
  cases hlast₁
  obtain ⟨s₁', hret₁, -, -⟩ := hblock₁.returns (fun _ => by decide)
    (entryState (guestOf s₀') ⟨false, true, false, true⟩) rfl
  have hrun : ProgramRun cmpJeCmpJl .conservative .sc 0x1000 oneAndTwo
      [⟨0x1000, entryState oneAndTwo ⟨false, false, false, false⟩⟩,
        ⟨0x1005, entryState (guestOf s₀') ⟨false, true, false, true⟩⟩] := by
    refine .turn (by decide) hbuild₀ (enters_entryState _ _) hret₀ ?_
    rw [hnext]
    exact .turn (by decide) hbuild₁ (enters_entryState _ _) hret₁ (.stop _ _)
  exact ⟨_, _, rfl, hrun, flagsKept_of_covered hrun
    ⟨blockCovered_cmpBr false, blockCovered_cmpBr true, trivial⟩⟩

/-- `cmp; je` falls through, and the `jl` of the next block may go wrong. -/
theorem not_flagsKept_cmpJeJl :
    ∃ s₀ s₁, ProgramRun cmpJeJl .conservative .sc 0x1000 oneAndTwo
        [⟨0x1000, s₀⟩, ⟨0x1005, s₁⟩] ∧
      ¬ FlagsKept cmpJeJl .conservative .sc none [⟨0x1000, s₀⟩, ⟨0x1005, s₁⟩] := by
  obtain ⟨exe₀, body₀, last₀, op₀, hbuild₀, hblock₀⟩ :=
    @oryxBuildBlock_ok cmpJeJl .conservative .sc 0x1000 _ _ rfl (by decide) rfl
  obtain ⟨exe₁, body₁, last₁, op₁, hbuild₁, hblock₁⟩ :=
    @oryxBuildBlock_ok cmpJeJl .conservative .sc 0x1005 _ _ rfl (by decide) rfl
  -- the first block returns with the PC behind it
  obtain ⟨hbody₀, hlast₀⟩ :=
    List.append_inj' (show [_] ++ [_] = body₀ ++ [last₀] from hblock₀.ops_eq) rfl
  cases hbody₀
  cases hlast₀
  obtain ⟨s₀', hret₀, -, hpc₀⟩ := hblock₀.returns (fun _ => by decide)
    (entryState oneAndTwo ⟨false, false, false, false⟩) rfl
  have hnext : s₀'.x 17 = 0x1005 := hpc₀.trans (by decide)
  -- the second is entered with flags that turn its condition around
  obtain ⟨fl, hlost⟩ := flags_lost_across_blocks (k := 0) hblock₁ rfl rfl rfl rfl (guestOf s₀')
    (X86.subFlags 1 2)
  obtain ⟨hbody₁, hlast₁⟩ :=
    List.append_inj' (show [] ++ [_] = body₁ ++ [last₁] from hblock₁.ops_eq) rfl
  cases hlast₁
  obtain ⟨s₁', hret₁, -, -⟩ := hblock₁.returns (fun _ => by decide)
    (entryState (guestOf s₀') fl) rfl
  refine ⟨entryState oneAndTwo ⟨false, false, false, false⟩, entryState (guestOf s₀') fl,
    ?_, fun hkept => ?_⟩
  · refine .turn (by decide) hbuild₀ (enters_entryState _ _) hret₀ ?_
    rw [hnext]
    exact .turn (by decide) hbuild₁ (enters_entryState _ _) hret₁ (.stop _ _)
  · exact hlost (hkept.2.1 exe₁ hbuild₁)

end Oryx
