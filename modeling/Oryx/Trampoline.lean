/-
Oryx/Trampoline.lean

Running one block: `oryx_tramp`, `oryx_exec_map`, `oryx_exec_run` and
`oryx_run` of `oryxrun.c`.

The trampoline puts the halt sentinel in `x17`, loads the sixteen guest
registers in pairs, calls the block and stores the pairs back.  The C code
around it leaves guest memory alone and may leave anything in the other host
registers and in NZCV, so a call starts from any machine with that memory
(`TrampRuns`).  The register file lies outside guest memory, where the source
asks the caller to keep it.

`oryx_run` maps a unit as it is, without stubs, so it takes the blocks
that end in a return and no others (`oryxExecMap_translated`); these it runs to
their x86 meaning (`oryxRun_x86`).
-/
import Mathlib.Tactic.FinCases
import Oryx.FlagRuns

namespace Oryx

open A64

/-! ### The register file -/

/-- `struct oryx_guest`. -/
structure OryxGuest where
  regs : GReg → U64

/-- The 64-bit entry at a byte offset of the register file. -/
def trampEntry (off : Nat) : GReg := Fin.ofNat 16 (off / 8)

/-- The register pairs of the trampoline, with their offsets. -/
def trampPairs : List (A64.Reg × A64.Reg × Nat) :=
  [(0, 1, 0), (2, 3, 16), (4, 5, 32), (6, 7, 48), (8, 9, 64), (10, 11, 80), (12, 13, 96),
    (14, 15, 112)]

/-- `ldp` of a pair. -/
def trampLdp (g : OryxGuest) (s : A64.State) (p : A64.Reg × A64.Reg × Nat) : A64.State :=
  (s.setX p.1 (g.regs (trampEntry p.2.2))).setX p.2.1 (g.regs (trampEntry (p.2.2 + 8)))

/-- `stp` of a pair. -/
def trampStp (s : A64.State) (g : OryxGuest) (p : A64.Reg × A64.Reg × Nat) : OryxGuest where
  regs := Function.update (Function.update g.regs (trampEntry p.2.2) (s.x p.1)) (trampEntry (p.2.2 + 8))
    (s.x p.2.1)

/-- Up to the `blr`: `movn x17, #0`, the loads, and the return address in the link register. -/
def trampEnter (g : OryxGuest) (ra : U64) (s : A64.State) : A64.State :=
  (trampPairs.foldl (trampLdp g) (s.setX 17 (~~~0))).setX 30 ra

/-- Behind the `blr`: the stores. -/
def trampLeave (s : A64.State) (g : OryxGuest) : OryxGuest := trampPairs.foldl (trampStp s) g

theorem trampEnter_hostReg (g : OryxGuest) (ra : U64) (s : A64.State) (r : GReg) :
    (trampEnter g ra s).x (hostReg r) = g.regs r := by
  fin_cases r <;> rfl

theorem trampLeave_regs (s : A64.State) (g : OryxGuest) :
    (trampLeave s g).regs = (guestOf s).regs := by
  funext r
  fin_cases r <;> rfl

theorem trampEnter_x30 (g : OryxGuest) (ra : U64) (s : A64.State) :
    (trampEnter g ra s).x 30 = ra := rfl

/-! ### Calls -/

/-- The register file, and the machine as the C code around the trampoline leaves it. -/
structure Host where
  guest : OryxGuest
  cpu : A64.State

/-- `oryx_tramp`: a call from some machine with the guest's memory, its next guest PC and what it
leaves. -/
inductive TrampRuns (e : OryxExec) (h : Host) : U64 → Host → Prop
  | call (s : A64.State) (ra : U64) (s' : A64.State) (hmem : s.mem = h.cpu.mem)
      (hret : Returns e.words 0 (trampEnter h.guest ra s) ra s') :
      TrampRuns e h (s'.x 17) ⟨trampLeave s' h.guest, s'⟩

/-- Whatever the C code has left, the block returns. -/
def TrampReturns (e : OryxExec) (h : Host) : Prop :=
  ∀ s ra, s.mem = h.cpu.mem → ∃ s', Returns e.words 0 (trampEnter h.guest ra s) ra s'

/-- `oryx_exec_run` ignores the next PC. -/
def OryxExecRun (e : OryxExec) (h h' : Host) : Prop := ∃ pc, TrampRuns e h pc h'

/-! ### Mapping without stubs -/

/-- `oryx_exec_map`, with every mapping made. -/
def oryxExecMap (tu : OryxTu) : Except OryxErr OryxExec :=
  if tu.code.count = 0 then .error .inval
  else if tu.relocs.count ≠ 0 then .error .inval
  else if tu.code.count &&& 3 ≠ 0 then .error .format
  else if rd32 tu.code.val (tu.code.count.toNat - 4) ≠ aarch64Ret then .error .inval
  else .ok ⟨tu.code.val⟩

/-- `oryx_run`: map, run and free. -/
def OryxRun (tu : OryxTu) (h h' : Host) : Prop :=
  ∃ e, oryxExecMap tu = .ok e ∧ OryxExecRun e h h'

/-- Without relocations the two mappings agree. -/
theorem oryxExecMap_eq_linked {tu : OryxTu} (h : tu.relocs.val = []) :
    oryxExecMap tu = oryxExecMapLinked tu := by
  have hcount : ¬ tu.relocs.count ≠ 0 := by
    rw [not_not, Counted.count, h]
    rfl
  unfold oryxExecMap oryxExecMapLinked
  dsimp only
  rw [h, if_neg hcount]

/-- A unit with a relocation is refused. -/
theorem oryxExecMap_of_reloc {tu : OryxTu} {r : OryxReloc} (h : tu.relocs.val = [r]) :
    oryxExecMap tu = .error .inval := by
  have hcount : tu.relocs.count ≠ 0 := by
    rw [Counted.count, h, List.length_singleton]
    decide
  unfold oryxExecMap
  rw [if_pos hcount, ite_self]

/-- The block ends in a return of the guest. -/
def EndsInReturn (ops : List OryxGinsn) : Prop :=
  ∃ body last, ops = body ++ [last] ∧
    (last.opcode = some .ret ∨ last.opcode = some .x86ret)

section Run

variable {cfg : TransCfg} {profileId : U32} {ops : List OryxGinsn} {tu : OryxTu}
  {st : OryxMmStats}

/-- **Which translated units `oryx_exec_map` takes**: those of blocks that end in a return, and
it maps them as the linker does. -/
theorem oryxExecMap_translated (htrans : oryxTranslateEx ops cfg profileId = .ok (tu, st)) :
    (EndsInReturn ops → oryxExecMap tu = oryxExecMapLinked tu) ∧
      (¬ EndsInReturn ops → oryxExecMap tu = .error .inval) := by
  obtain ⟨body, last, ds, dl, h⟩ := oryxTranslateEx_ok htrans
  obtain ⟨op, hop, -, hterm, -⟩ := h.last_op
  have hlast : ∀ {body' last'}, ops = body' ++ [last'] → last'.opcode = some op := by
    intro body' last' heq
    have hsplit := h.ops_eq.symm.trans heq
    obtain ⟨-, hl⟩ := List.append_inj' hsplit rfl
    cases hl
    exact hop
  cases h.unitForm htrans hop hterm with
  | br code relocs exits =>
    refine ⟨fun hret => ?_, fun _ => oryxExecMap_of_reloc relocs⟩
    obtain ⟨body', last', heq, hret | hret⟩ := hret
    · cases (hlast heq).symm.trans hret
    · cases (hlast heq).symm.trans hret
  | jump kind code relocs exits =>
    refine ⟨fun hret => ?_, fun _ => oryxExecMap_of_reloc relocs⟩
    obtain ⟨body', last', heq, hret⟩ := hret
    rw [hlast heq, Option.some.injEq, Option.some.injEq] at hret
    rcases kind with rfl | rfl <;> rcases hret with hret | hret <;> cases hret
  | ret kind code relocs =>
    refine ⟨fun _ => oryxExecMap_eq_linked relocs, fun hno => absurd ?_ hno⟩
    refine ⟨body, last, h.ops_eq, ?_⟩
    rcases kind with rfl | rfl
    · exact Or.inr hop
    · exact Or.inl hop

/-- A call of a linked block: it returns, and whatever the host flags were, it leaves what the
emitted ops and the terminator make of the guest's registers and memory. -/
theorem LinkedBlock.tramp_emitted {e : OryxExec} {body : List OryxGinsn} {last : OryxGinsn}
    {op : GuestOp} (h : LinkedBlock cfg ops e.words body last op)
    (hcc : op = .br → (gccCond last.cc).isSome = true) (host : Host) :
    TrampReturns e host ∧ ∀ pc host', TrampRuns e host pc host' →
      ∃ f g, g = emittedRun body ⟨host.guest.regs, f, host.cpu.mem⟩ ∧
        pc = x86NextPc cfg.guestPc cfg.guestLen last g ∧
        host'.guest.regs = (x86Exec last op g).regs ∧
        host'.cpu.mem = (x86Exec last op g).mem := by
  have hentry : ∀ s ra, s.mem = host.cpu.mem →
      guestOf (trampEnter host.guest ra s) =
        ⟨host.guest.regs, guestFlags s.flags, host.cpu.mem⟩ := by
    intro s ra hmem
    rw [← hmem]
    exact X86State.ext (funext (trampEnter_hostReg host.guest ra s)) rfl rfl
  constructor
  · intro s ra hmem
    obtain ⟨s', hret, -⟩ := h.returns hcc (trampEnter host.guest ra s) rfl
    exact ⟨s', hret⟩
  · rintro _ _ ⟨s, ra, s', hmem, hret⟩
    obtain ⟨u, hu, hguest, hpc⟩ := h.returns hcc (trampEnter host.guest ra s) rfl
    rw [trampEnter_x30] at hu
    obtain ⟨-, rfl⟩ := hret.unique hu
    rw [hentry s ra hmem] at hguest hpc
    refine ⟨guestFlags s.flags, _, rfl, hpc, ?_, ?_⟩
    · rw [← hguest]
      exact trampLeave_regs s' host.guest
    · rw [← hguest]
      rfl

/-- A call of a linked block whose instructions mean what x86 says: it returns, and whatever the
host flags were, it leaves the block's x86 registers, memory and next PC. -/
theorem LinkedBlock.tramp_x86 {e : OryxExec} {body : List OryxGinsn} {last : OryxGinsn}
    {op : GuestOp} (h : LinkedBlock cfg ops e.words body last op)
    (hx86 : ∀ i ∈ body, MeansX86 i) (hcc : op = .br → (gccCond last.cc).isSome = true)
    (host : Host) :
    TrampReturns e host ∧ ∀ pc host', TrampRuns e host pc host' →
      ∃ f g, x86Block cfg.guestPc cfg.guestLen ops ⟨host.guest.regs, f, host.cpu.mem⟩ = (g, pc) ∧
        host'.guest.regs = g.regs ∧ host'.cpu.mem = g.mem := by
  obtain ⟨hreturns, hruns⟩ := h.tramp_emitted hcc host
  refine ⟨hreturns, fun pc host' hrun => ?_⟩
  obtain ⟨f, g, hg, hpc, hregs, hmem⟩ := hruns pc host' hrun
  refine ⟨f, x86Exec last op g, ?_, hregs, hmem⟩
  rw [h.ops_eq, x86Block_append, ← emittedRun_eq hx86, ← hg, ← hpc, x86Step, h.last_op]

/-- **`oryx_run` runs the blocks that end in a return** to their x86 registers and memory,
whatever flags the host had, and refuses every other block. -/
theorem oryxRun_x86 (htrans : oryxTranslateEx ops cfg profileId = .ok (tu, st))
    (hscope : ∀ i ∈ ops, InScope (plainOps ++ stackOps) i) (hrsp : ∀ i ∈ ops, ¬ StacksRsp i)
    (host : Host) :
    (EndsInReturn ops → (∃ host', OryxRun tu host host') ∧ ∀ host', OryxRun tu host host' →
      ∃ f g pc, x86Block cfg.guestPc cfg.guestLen ops ⟨host.guest.regs, f, host.cpu.mem⟩ =
          (g, pc) ∧ host'.guest.regs = g.regs ∧ host'.cpu.mem = g.mem) ∧
      (¬ EndsInReturn ops → oryxExecMap tu = .error .inval ∧ ∀ host', ¬ OryxRun tu host host') := by
  obtain ⟨hmap, hrefuse⟩ := oryxExecMap_translated htrans
  constructor
  · intro hret
    obtain ⟨e, body, last, op, hlink, hblock⟩ := linked_translated htrans
    have hx86 : ∀ i ∈ body, MeansX86 i := by
      intro i hi
      have hmem : i ∈ ops := hblock.ops_eq ▸ List.mem_append_left _ hi
      exact (hscope i hmem).meansX86 fun hop hrd => hrsp i hmem ⟨hop, hrd⟩
    have hlast : last ∈ ops := hblock.ops_eq ▸ List.mem_append_right _ List.mem_cons_self
    obtain ⟨hreturns, hruns⟩ :=
      hblock.tramp_x86 hx86 ((hscope last hlast).branch_cc hblock.last_op) host
    refine ⟨?_, ?_⟩
    · obtain ⟨s', hs'⟩ := hreturns host.cpu 0 rfl
      exact ⟨_, e, (hmap hret).trans hlink, _, .call host.cpu 0 s' rfl hs'⟩
    · rintro host' ⟨e', he', pc, hrun⟩
      rw [hmap hret, hlink] at he'
      cases he'
      obtain ⟨f, g, hg, hregs, hmem⟩ := hruns pc host' hrun
      exact ⟨f, g, pc, hg, hregs, hmem⟩
  · intro hno
    refine ⟨hrefuse hno, ?_⟩
    rintro host' ⟨e, he, -⟩
    rw [hrefuse hno] at he
    cases he

end Run

/-! ### `push rbx; pop rbp; ret` -/

/-- An op that has no constraint on its fields is in scope. -/
theorem inScope_of_op {l : List GuestOp} {i : OryxGinsn} {op : GuestOp} (hmem : op ∈ l)
    (hop : i.opcode = some op) (hfree : op ∉ [GuestOp.addRi, .subRi, .cmpRi, .setcc, .br]) :
    InScope l i := by
  refine ⟨op, hmem, hop, ?_, ?_⟩
  · rintro (rfl | rfl | rfl) <;> exact absurd (by decide) hfree
  · rintro (rfl | rfl) <;> exact absurd (by decide) hfree

theorem pushPopRet_ops : ∀ i ∈ pushPopRet, ∃ op ∈ [GuestOp.push, .pop, .x86ret],
    i.opcode = some op ∧ greg i.rd ≠ rsp := by
  intro i hi
  simp only [pushPopRet, List.mem_cons, List.not_mem_nil, or_false] at hi
  rcases hi with rfl | rfl | rfl
  · exact ⟨.push, by decide, rfl, by decide⟩
  · exact ⟨.pop, by decide, rfl, by decide⟩
  · exact ⟨.x86ret, by decide, rfl, by decide⟩

theorem oryxRun_x86_pushPopRet :
    ∃ tu st, oryxTranslateEx pushPopRet (blockCfg .conservative .sc) 0 = .ok (tu, st) ∧
      ∀ host, ∃ host', OryxRun tu host host' := by
  refine ⟨_, _, rfl, fun host => ?_⟩
  refine ((@oryxRun_x86 (blockCfg .conservative .sc) 0 pushPopRet _ _ rfl ?_ ?_ host).1 ?_).1
  · intro i hi
    obtain ⟨op, hmem, hop, -⟩ := pushPopRet_ops i hi
    simp only [List.mem_cons, List.not_mem_nil, or_false] at hmem
    rcases hmem with rfl | rfl | rfl <;> exact inScope_of_op (by decide) hop (by decide)
  · rintro i hi ⟨-, hrd⟩
    obtain ⟨_, -, -, hne⟩ := pushPopRet_ops i hi
    exact hne hrd
  · exact ⟨[ginsn .push 3 0 0, ginsn .pop 5 0 0], ginsn .x86ret 0 0 0, rfl, Or.inr rfl⟩

end Oryx
