/-
Oryx/Preservation.lean

Translation preserves meaning.

A block of register, memory and branch ops, translated, linked and run, has
its x86 meaning (`translation_preserves`).  With stack ops added this holds
op by op exactly when no PUSH or POP names `RSP` (`stackOps_iff`): both write
`RSP` before they use their operand.
-/
import Oryx.BlockRun
import Oryx.OrderedForms

namespace Oryx

open A64

/-! ### The ops in scope -/

/-- The immediate is a sign-extended 32-bit number. -/
def Imm32 (i : OryxGinsn) : Prop := i.imm = (i.imm.setWidth 32).signExtend 64

instance (i : OryxGinsn) : Decidable (Imm32 i) := inferInstanceAs (Decidable (_ = _))

/-- Register, memory and branch ops. -/
def plainOps : List GuestOp :=
  [.movRr, .movRi, .addRr, .subRr, .andRr, .orRr, .xorRr, .cmpRr, .testRr, .addRi, .subRi, .cmpRi,
    .lea, .setcc, .load, .store, .br, .jmp, .ret]

/-- Stack ops. -/
def stackOps : List GuestOp := [.push, .pop, .call, .x86ret]

/-- The record has one of the opcodes, its arithmetic immediate is a
sign-extended 32-bit one and its `cc` field one of the six conditions. -/
def InScope (opcodes : List GuestOp) (i : OryxGinsn) : Prop :=
  ∃ op ∈ opcodes, i.opcode = some op ∧
    (op = .addRi ∨ op = .subRi ∨ op = .cmpRi → Imm32 i) ∧
    (op = .setcc ∨ op = .br → i.cc ∈ [gccEq, gccNe, gccLt, gccGe, gccLe, gccGt])

theorem Imm32.ne_intMin {i : OryxGinsn} (h : Imm32 i) : i.imm ≠ BitVec.intMin 64 := by
  intro e
  rw [Imm32, e] at h
  exact absurd h (by decide)

theorem gccCond_isSome {cc : CInt} (h : cc ∈ [gccEq, gccNe, gccLt, gccGe, gccLe, gccGt]) :
    (gccCond cc).isSome = true := by
  simp only [List.mem_cons, List.not_mem_nil, or_false] at h
  rcases h with rfl | rfl | rfl | rfl | rfl | rfl <;> rfl

/-! ### The emitted run is the x86 run -/

variable {cfg : TransCfg} {ops : List OryxGinsn}

/-- The instruction means what x86 says. -/
def MeansX86 (i : OryxGinsn) : Prop := ∀ op, i.opcode = some op → Faithful i op

theorem emittedStep_eq {i : OryxGinsn} (h : MeansX86 i) (g : X86State) :
    emittedStep g i = x86Step g i := by
  unfold emittedStep x86Step
  cases hop : i.opcode with
  | none => rfl
  | some op => exact emittedExec_eq (h op hop) g

theorem emittedRun_eq (h : ∀ i ∈ ops, MeansX86 i) (g : X86State) :
    emittedRun ops g = x86Run ops g := by
  induction ops generalizing g with
  | nil => rfl
  | cons i ops ih =>
    rw [emittedRun, x86Run, List.foldl_cons, List.foldl_cons,
      emittedStep_eq (h i List.mem_cons_self)]
    exact ih (fun j hj => h j (List.mem_cons_of_mem i hj)) _

/-- The instructions in scope that name no `RSP` on the stack mean what x86 says. -/
theorem InScope.meansX86 {i : OryxGinsn} (h : InScope (plainOps ++ stackOps) i)
    (hstack : i.opcode = some .push ∨ i.opcode = some .pop → greg i.rd ≠ rsp) : MeansX86 i := by
  intro op hop
  obtain ⟨op', hmem, hop', himm, -⟩ := h
  cases hop.symm.trans hop'
  refine ⟨?_, ?_, ?_, ?_⟩
  · rintro rfl
    exact absurd hmem (by decide)
  · rintro rfl
    exact absurd hmem (by decide)
  · rintro (rfl | rfl)
    · exact hstack (Or.inl hop)
    · exact hstack (Or.inr hop)
  · rintro rfl
    exact (himm (Or.inr (Or.inl rfl))).ne_intMin

theorem InScope.mono {l l' : List GuestOp} (hl : l ⊆ l') {i : OryxGinsn} (h : InScope l i) :
    InScope l' i := by
  obtain ⟨op, hmem, hrest⟩ := h
  exact ⟨op, hl hmem, hrest⟩

theorem InScope.branch_cc {l : List GuestOp} {i : OryxGinsn} {op : GuestOp} (h : InScope l i)
    (hop : i.opcode = some op) (hbr : op = .br) : (gccCond i.cc).isSome = true := by
  obtain ⟨op', -, hop', -, hcc⟩ := h
  cases hop.symm.trans hop'
  exact gccCond_isSome (hcc (Or.inr hbr))

/-- A linked block whose instructions mean what x86 says returns with its x86
meaning. -/
theorem LinkedBlock.returns_x86 {ws : List Word} {body : List OryxGinsn} {last : OryxGinsn}
    {op : GuestOp} (h : LinkedBlock cfg ops ws body last op) (hx86 : ∀ i ∈ body, MeansX86 i)
    (hcc : op = .br → (gccCond last.cc).isSome = true) (s : A64.State)
    (h17 : s.x 17 = oryxHaltPc) :
    ∃ s', Returns ws 0 s (s.x 30) s' ∧
      (guestOf s', s'.x 17) = x86Block cfg.guestPc cfg.guestLen ops (guestOf s) := by
  obtain ⟨s', hret, hg, hpc⟩ := h.returns hcc s h17
  refine ⟨s', hret, ?_⟩
  rw [h.ops_eq, x86Block_append, hg, hpc, emittedRun_eq hx86, x86Step, h.last_op]

/-- **Translation preserves meaning**: translated, linked and run from any
registers, flags and memory, a block of plain ops returns to the dispatcher with
its x86 registers, flags and memory, and the next guest PC in `x17`. -/
theorem translation_preserves {profileId : U32} {tu : OryxTu} {st : OryxMmStats}
    (h : oryxTranslateEx ops cfg profileId = .ok (tu, st))
    (hscope : ∀ i ∈ ops, InScope plainOps i) :
    ∃ exe, oryxExecMapLinked tu = .ok exe ∧
      ∀ s : A64.State, s.x 17 = oryxHaltPc → ∃ s', Returns exe.words 0 s (s.x 30) s' ∧
        (guestOf s', s'.x 17) = x86Block cfg.guestPc cfg.guestLen ops (guestOf s) := by
  obtain ⟨exe, body, last, op, hlink, hblock⟩ := linked_translated h
  have hmem : ∀ i ∈ body, i ∈ ops := fun i hi => by
    rw [hblock.ops_eq]
    exact List.mem_append_left _ hi
  have hlast : last ∈ ops := by
    rw [hblock.ops_eq]
    exact List.mem_append_right _ List.mem_cons_self
  -- the plain ops have no PUSH and no POP
  have hx86 : ∀ i ∈ body, MeansX86 i := by
    intro i hi
    apply ((hscope i (hmem i hi)).mono (List.subset_append_left _ _)).meansX86
    obtain ⟨op', hop', hopc, -⟩ := hscope i (hmem i hi)
    rintro (hpush | hpop)
    · cases hpush.symm.trans hopc
      exact absurd hop' (by decide)
    · cases hpop.symm.trans hopc
      exact absurd hop' (by decide)
  exact ⟨exe, hlink, fun s hs =>
    hblock.returns_x86 hx86 ((hscope last hlast).branch_cc hblock.last_op) s hs⟩

/-- `cmp rax, 5; jl 0x2000`. -/
def cmpBranch : List OryxGinsn :=
  [ginsn .cmpRi 0 0 5, { ginsn .br 0 0 0 with target := 0x2000, cc := gccLt }]

theorem translation_preserves_cmpBranch :
    ∃ tu st exe, oryxTranslateEx cmpBranch (blockCfg .drf .rcpc) 0 = .ok (tu, st) ∧
      oryxExecMapLinked tu = .ok exe ∧
      ∀ s : A64.State, s.x 17 = oryxHaltPc → ∃ s', Returns exe.words 0 s (s.x 30) s' ∧
        (guestOf s', s'.x 17) = x86Block 0x1000 4 cmpBranch (guestOf s) := by
  obtain ⟨exe, hlink, hrun⟩ :=
    @translation_preserves (blockCfg .drf .rcpc) cmpBranch 0 _ _ rfl (by
      intro i hi
      rcases List.mem_cons.mp hi with rfl | hi
      · refine ⟨.cmpRi, by decide, rfl, fun _ => by decide, ?_⟩
        rintro (h | h) <;> cases h
      · rw [List.mem_singleton.mp hi]
        refine ⟨.br, by decide, rfl, ?_, fun _ => by decide⟩
        rintro (h | h | h) <;> cases h)
  exact ⟨_, _, exe, rfl, hlink, hrun⟩

/-! ### Stack ops -/

/-- Run from `s`, the linked block means what x86 says: after each op of its body
the guest state is the x86 state, and it returns with its x86 meaning. -/
def RunsAsX86 (cfg : TransCfg) (ops : List OryxGinsn) (ws : List Word) (s : A64.State) : Prop :=
  (∀ k < ops.length, ∃ u, iterate ws (opStart cfg ops k) 0 s = some (opStart cfg ops k, u) ∧
    guestOf u = x86Run (ops.take k) (guestOf s)) ∧
  ∃ s', Returns ws 0 s (s.x 30) s' ∧
    (guestOf s', s'.x 17) = x86Block cfg.guestPc cfg.guestLen ops (guestOf s)

/-- A PUSH or POP of `RSP`. -/
def StacksRsp (i : OryxGinsn) : Prop :=
  (i.opcode = some .push ∨ i.opcode = some .pop) ∧ greg i.rd = rsp

theorem emittedStep_ne {i : OryxGinsn} (h : StacksRsp i) (g : X86State) :
    emittedStep g i ≠ x86Step g i := by
  obtain ⟨hop | hop, hrd⟩ := h
  · rw [emittedStep, x86Step, hop]
    exact emittedExec_push_rsp hrd g
  · rw [emittedStep, x86Step, hop]
    exact emittedExec_pop_rsp hrd g

theorem foldl_take_succ {α β : Type} (f : β → α → β) (b : β) {l : List α} {k : Nat} {a : α}
    (h : l[k]? = some a) : (l.take (k + 1)).foldl f b = f ((l.take k).foldl f b) a := by
  rw [List.take_add_one, h, List.foldl_append]
  rfl

/-- Runs op by op as x86, no PUSH or POP names `RSP`. -/
theorem LinkedBlock.not_stacksRsp {ws : List Word} {body : List OryxGinsn} {last : OryxGinsn}
    {op : GuestOp} (h : LinkedBlock cfg ops ws body last op) {s : A64.State}
    (hrun : RunsAsX86 cfg ops ws s) : ∀ i ∈ ops, ¬ StacksRsp i := by
  obtain ⟨hsteps, -⟩ := hrun
  have hlen : ops.length = body.length + 1 := by
    rw [h.ops_eq, List.length_append, List.length_singleton]
  -- as long as the run is right, emitted and x86 state agree
  have hagree : ∀ k ≤ body.length,
      emittedRun (ops.take k) (guestOf s) = x86Run (ops.take k) (guestOf s) := by
    intro k hk
    obtain ⟨u, hu, hg⟩ := hsteps k (by omega)
    obtain ⟨u', hu', hg'⟩ := h.prefix hk s
    rw [hu] at hu'
    cases hu'
    rw [← hg', hg]
  intro i hi hrsp
  obtain ⟨k, hk⟩ := List.getElem?_of_mem hi
  have hklt := (List.getElem?_eq_some_iff.mp hk).1
  by_cases hlast : k = body.length
  · -- a terminator is no PUSH or POP
    rw [h.ops_eq, hlast, List.getElem?_append_right (Nat.le_refl _), Nat.sub_self] at hk
    cases hk
    have hterm := h.terminates
    rcases hrsp.1 with hop | hop
    · cases hop.symm.trans h.last_op
      cases hterm
    · cases hop.symm.trans h.last_op
      cases hterm
  · -- PUSH or POP of RSP would part them
    have hnext := hagree (k + 1) (by omega)
    rw [emittedRun, x86Run, foldl_take_succ _ _ hk, foldl_take_succ _ _ hk, ← emittedRun,
      ← x86Run, hagree k (by omega)] at hnext
    exact emittedStep_ne hrsp _ hnext

/-- **When stack ops mean what x86 says**: exactly when no PUSH or POP of the
block names `RSP`. -/
theorem stackOps_iff {profileId : U32} {tu : OryxTu} {st : OryxMmStats}
    (h : oryxTranslateEx ops cfg profileId = .ok (tu, st))
    (hscope : ∀ i ∈ ops, InScope (plainOps ++ stackOps) i) :
    ∃ exe, oryxExecMapLinked tu = .ok exe ∧
      ∀ s : A64.State, s.x 17 = oryxHaltPc →
        (RunsAsX86 cfg ops exe.words s ↔ ∀ i ∈ ops, ¬ StacksRsp i) := by
  obtain ⟨exe, body, last, op, hlink, hblock⟩ := linked_translated h
  refine ⟨exe, hlink, fun s hs => ⟨hblock.not_stacksRsp, fun hno => ⟨?_, ?_⟩⟩⟩
  all_goals
    have hx86 : ∀ i ∈ ops, MeansX86 i := fun i hi =>
      (hscope i hi).meansX86 fun hop hrd => hno i hi ⟨hop, hrd⟩
  · intro k hk
    have hlen : ops.length = body.length + 1 := by
      rw [hblock.ops_eq, List.length_append, List.length_singleton]
    obtain ⟨u, hu, hg⟩ := hblock.prefix (show k ≤ body.length by omega) s
    refine ⟨u, hu, ?_⟩
    rw [hg, emittedRun_eq fun i hi => hx86 i (List.mem_of_mem_take hi)]
  · have hsub : ∀ i ∈ body, MeansX86 i := fun i hi => hx86 i (by
      rw [hblock.ops_eq]
      exact List.mem_append_left _ hi)
    have hlast : last ∈ ops := by
      rw [hblock.ops_eq]
      exact List.mem_append_right _ List.mem_cons_self
    exact hblock.returns_x86 hsub ((hscope last hlast).branch_cc hblock.last_op) s hs

/-- `push rbx; pop rbp; ret` through the guest stack. -/
def pushPopRet : List OryxGinsn :=
  [ginsn .push 3 0 0, ginsn .pop 5 0 0, ginsn .x86ret 0 0 0]

theorem stackOps_iff_pushPopRet :
    ∃ tu st exe, oryxTranslateEx pushPopRet (blockCfg .conservative .sc) 0 = .ok (tu, st) ∧
      oryxExecMapLinked tu = .ok exe ∧ ∀ s : A64.State, s.x 17 = oryxHaltPc →
        RunsAsX86 (blockCfg .conservative .sc) pushPopRet exe.words s := by
  have hscope : ∀ i ∈ pushPopRet, InScope (plainOps ++ stackOps) i := by
    intro i hi
    have hop : ∃ op ∈ stackOps, i.opcode = some op := by
      simp only [pushPopRet, List.mem_cons, List.not_mem_nil, or_false] at hi
      rcases hi with rfl | rfl | rfl
      · exact ⟨.push, by decide, rfl⟩
      · exact ⟨.pop, by decide, rfl⟩
      · exact ⟨.x86ret, by decide, rfl⟩
    obtain ⟨op, hmem, hop⟩ := hop
    refine ⟨op, List.mem_append_right _ hmem, hop, ?_, ?_⟩
    · rintro (rfl | rfl | rfl) <;> exact absurd hmem (by decide)
    · rintro (rfl | rfl) <;> exact absurd hmem (by decide)
  obtain ⟨exe, hlink, hrun⟩ :=
    @stackOps_iff (blockCfg .conservative .sc) pushPopRet 0 _ _ rfl hscope
  refine ⟨_, _, exe, rfl, hlink, fun s hs => (hrun s hs).mpr ?_⟩
  rintro i hi ⟨-, hrd⟩
  simp only [pushPopRet, List.mem_cons, List.not_mem_nil, or_false] at hi
  rcases hi with rfl | rfl | rfl <;> exact absurd hrd (by decide)

/-- The block is accepted and linked, and run from anywhere it does not end in
its x86 state. -/
def NeverX86 (cfg : TransCfg) (ops : List OryxGinsn) : Prop :=
  ∃ tu st exe, oryxTranslateEx ops cfg 0 = .ok (tu, st) ∧ oryxExecMapLinked tu = .ok exe ∧
    ∀ s s' : A64.State, s.x 17 = oryxHaltPc → Returns exe.words 0 s (s.x 30) s' →
      guestOf s' ≠ (x86Block cfg.guestPc cfg.guestLen ops (guestOf s)).1

theorem neverX86_stacksRsp {i : OryxGinsn} (hrsp : StacksRsp i) {tu : OryxTu} {st : OryxMmStats}
    (h : oryxTranslateEx [i, ginsn .ret 0 0 0] cfg 0 = .ok (tu, st)) :
    NeverX86 cfg [i, ginsn .ret 0 0 0] := by
  obtain ⟨exe, body, last, op, hlink, hblock⟩ := linked_translated h
  refine ⟨tu, st, exe, h, hlink, ?_⟩
  intro s s' hs hret
  obtain ⟨hbody, hlast⟩ : body = [i] ∧ last = ginsn .ret 0 0 0 := by
    have hops : [i] ++ [ginsn .ret 0 0 0] = body ++ [last] := hblock.ops_eq
    obtain ⟨hb, hl⟩ := List.append_inj' hops rfl
    exact ⟨hb.symm, (List.cons.inj hl).1.symm⟩
  subst hbody hlast
  have hop : op = .ret := Option.some.inj (hblock.last_op.symm.trans rfl)
  subst hop
  obtain ⟨u, hu, hg, -⟩ := hblock.returns GuestOp.noConfusion s hs
  rw [(hret.unique hu).2, hg]
  exact emittedStep_ne hrsp (guestOf s)

/-- `push rsp` and `pop rsp` do not mean what x86 says. -/
theorem not_x86_push_pop_rsp :
    NeverX86 (blockCfg .drf .sc) [ginsn .push 4 0 0, ginsn .ret 0 0 0] ∧
      NeverX86 (blockCfg .drf .sc) [ginsn .pop 4 0 0, ginsn .ret 0 0 0] :=
  ⟨neverX86_stacksRsp ⟨Or.inl rfl, rfl⟩ rfl, neverX86_stacksRsp ⟨Or.inr rfl, rfl⟩ rfl⟩

end Oryx
