/-
Oryx/Immediates.lean

Operations with a constant: `GOP_LEA`, `GOP_ADD_RI`, `GOP_SUB_RI` and
`GOP_CMP_RI`.

The constant chooses between an immediate form, its mirror image on the
negated constant, and a register form.  Each leaves what x86 leaves, for
every constant but one (`immediateRight_iff`): `GOP_SUB_RI` negates its
constant first, and the smallest number has no negation.
-/
import Oryx.Simulation

namespace Oryx

open A64

/-! ### The operations -/

/-- The operations with a constant. -/
def constOps : List GuestOp := [.lea, .addRi, .subRi, .cmpRi]

/-- The operands of the unary minus that the translator computes in `int64_t` for an operation
with a constant. -/
def negations (i : OryxGinsn) (op : GuestOp) : List U64 :=
  -- the mirrored form is chosen for small negative numbers
  let mirrored (d : U64) : List U64 := if d.toInt < 0 ∧ d.toInt ≥ -0xFFF then [d] else []
  match op with
  | .subRi => i.imm :: mirrored (-i.imm)
  | .lea | .addRi | .cmpRi => mirrored i.imm
  | _ => []

/-- The loop, in state `s`, emits for `i` code that leaves what x86 leaves, from every machine
state. -/
def EmitsX86 (cfg : TransCfg) (s : TransState) (i : OryxGinsn) : Prop :=
  ∃ s' ws is, lowerInsn cfg s i = .ok s' ∧ s'.code = s.code ++ ws ∧ DecodesTo ws is ∧
    ∀ m : A64.State, ∃ m', execSeq is m = some m' ∧ guestOf m' = x86Step (guestOf m) i

/-- The emitted code is right, and no negation overflows. -/
structure ImmediateRight (cfg : TransCfg) (s : TransState) (i : OryxGinsn) (op : GuestOp) :
    Prop where
  means : EmitsX86 cfg s i
  fits : ∀ d ∈ negations i op, (-d).toInt = -d.toInt

/-! ### The negations -/

/-- Only the smallest number has no negation. -/
theorem toInt_neg_iff (d : U64) : (-d).toInt = -d.toInt ↔ d ≠ BitVec.intMin 64 := by
  constructor
  · rintro h rfl
    exact absurd h (by decide)
  · exact BitVec.toInt_neg_of_ne_intMin

theorem negations_fit_iff {i : OryxGinsn} {op : GuestOp} (hop : op ∈ constOps) :
    (∀ d ∈ negations i op, (-d).toInt = -d.toInt) ↔
      ¬ (op = .subRi ∧ i.imm = BitVec.intMin 64) := by
  -- a mirrored constant is small
  have hmirror : ∀ d : U64, ∀ e ∈ (if d.toInt < 0 ∧ d.toInt ≥ -0xFFF then [d] else []),
      (-e).toInt = -e.toInt := by
    intro d e he
    split at he
    · next hsmall =>
      rw [List.mem_singleton] at he
      subst he
      rw [toInt_neg_iff]
      rintro rfl
      exact absurd hsmall (by decide)
    · cases he
  constructor
  · rintro h ⟨rfl, hmin⟩
    exact (toInt_neg_iff i.imm).mp (h _ List.mem_cons_self) hmin
  · intro hno d hd
    simp only [constOps, List.mem_cons, List.not_mem_nil, or_false] at hop
    rcases hop with rfl | rfl | rfl | rfl
    · exact hmirror _ d hd
    · exact hmirror _ d hd
    · rcases List.mem_cons.mp hd with rfl | hd
      · exact (toInt_neg_iff _).mpr fun hmin => hno ⟨rfl, hmin⟩
      · exact hmirror _ d hd
    · exact hmirror _ d hd

/-! ### The emitted code -/

variable {cfg : TransCfg} {s : TransState} {i : OryxGinsn} {op : GuestOp}

/-- What is emitted for an operation with a constant does what `emittedExec` says. -/
theorem emits_of_constOp (hop : i.opcode = some op) (hconst : op ∈ constOps) (hregs : i.regsOk)
    (hs : s.terminated = false) :
    ∃ s' ws, lowerInsn cfg s i = .ok s' ∧ s'.code = s.code ++ ws ∧
      DecodesTo ws (opInsns cfg i op) ∧ ∀ m : A64.State, ∃ m',
        execSeq (opInsns cfg i op) m = some m' ∧ guestOf m' = emittedExec i op (guestOf m) := by
  have hlow : ∃ d, lowerOp cfg .init i op = .ok d := by
    simp only [constOps, List.mem_cons, List.not_mem_nil, or_false] at hconst
    rcases hconst with rfl | rfl | rfl | rfl <;> exact ⟨_, rfl⟩
  obtain ⟨d, hd⟩ := hlow
  have hlowered : lowered cfg i = .ok d := by
    have hinit : ¬ TransState.init.terminated = true := Bool.false_ne_true
    rw [lowered, lowerInsn, if_neg hinit, if_neg (not_not_intro hregs), hop]
    exact hd
  obtain ⟨hrd, hrn⟩ := i.regsOk_iff.mp hregs
  refine ⟨s.append d, d.code, ?_, rfl, decode_lowerOp hregs hd, fun m => ?_⟩
  · rw [lowerInsn_eq cfg hs, hlowered]
    rfl
  · have hfit : op = .load ∨ op = .store → OffsetFits cfg i := by
      rintro (rfl | rfl) <;> exact absurd hconst (by decide)
    have hterm : op.isTerminator = false := by
      simp only [constOps, List.mem_cons, List.not_mem_nil, or_false] at hconst
      rcases hconst with rfl | rfl | rfl | rfl <;> rfl
    obtain ⟨m', hm', hg, -, -⟩ := runsTo_opInsns m hrd hrn hfit hterm
    exact ⟨m', hm', hg⟩

/-- A machine whose registers and memory are zero. -/
def zeroMachine : A64.State where
  x := fun _ => 0
  sp := 0
  flags := ⟨false, false, false, false⟩
  mem := fun _ => 0

/-- Subtracting the smallest number from zero overflows; adding it does not. -/
theorem not_emitsX86_subRi (hop : i.opcode = some .subRi) (hregs : i.regsOk)
    (hs : s.terminated = false) (hmin : i.imm = BitVec.intMin 64) : ¬ EmitsX86 cfg s i := by
  rintro ⟨s₁, ws₁, is₁, hlow₁, hcode₁, hdec₁, hrun₁⟩
  obtain ⟨s₂, ws₂, hlow₂, hcode₂, hdec₂, hrun₂⟩ :=
    @emits_of_constOp cfg s i _ hop (by decide) hregs hs
  -- both speak of the code emitted
  rw [hlow₁] at hlow₂
  cases hlow₂
  have hws : ws₁ = ws₂ := List.append_cancel_left (hcode₁.symm.trans hcode₂)
  subst hws
  have his := hdec₁.unique hdec₂
  subst his
  obtain ⟨m₁, hm₁, hg₁⟩ := hrun₁ zeroMachine
  obtain ⟨m₂, hm₂, hg₂⟩ := hrun₂ zeroMachine
  rw [hm₁] at hm₂
  cases hm₂
  have hflags := congrArg (fun g => g.flags.of) (hg₁.symm.trans hg₂)
  rw [x86Step, hop] at hflags
  simp only [x86Exec, emittedExec, hmin] at hflags
  have hzero : (X86.subFlags 0 (BitVec.intMin 64)).of = (X86.addFlags 0 (-BitVec.intMin 64)).of :=
    hflags
  exact absurd hzero (by decide)

/-- **Immediate lowering is right** for every constant, except for `GOP_SUB_RI` of the smallest
number. -/
theorem immediateRight_iff (hop : i.opcode = some op) (hconst : op ∈ constOps) (hregs : i.regsOk)
    (hs : s.terminated = false) :
    ImmediateRight cfg s i op ↔ ¬ (op = .subRi ∧ i.imm = BitVec.intMin 64) := by
  constructor
  · intro h
    exact (negations_fit_iff hconst).mp h.fits
  · intro hno
    refine ⟨?_, (negations_fit_iff hconst).mpr hno⟩
    obtain ⟨s', ws, hlow, hcode, hdec, hrun⟩ := @emits_of_constOp cfg s i _ hop hconst hregs hs
    refine ⟨s', ws, _, hlow, hcode, hdec, fun m => ?_⟩
    obtain ⟨m', hm', hg⟩ := hrun m
    refine ⟨m', hm', ?_⟩
    have hfaithful : Faithful i op := by
      refine ⟨?_, ?_, ?_, fun hsub hmin => hno ⟨hsub, hmin⟩⟩
      · rintro rfl
        exact absurd hconst (by decide)
      · rintro rfl
        exact absurd hconst (by decide)
      · rintro (rfl | rfl) <;> exact absurd hconst (by decide)
    rw [hg, emittedExec_eq hfaithful, x86Step, hop]

/-- `cmp rbx, -4096`, the first constant beyond the mirrored form. -/
theorem immediateRight_cmpRi :
    ImmediateRight ⟨.drf, .sc, 0x1000, 4⟩ .init (ginsn .cmpRi 3 0 (-4096)) .cmpRi :=
  (immediateRight_iff rfl (by decide) (by decide) rfl).mpr (by decide)

/-- `sub rbx, INT64_MIN` is wrong in both respects. -/
theorem not_immediateRight_subRi :
    ¬ EmitsX86 ⟨.drf, .sc, 0x1000, 4⟩ .init (ginsn .subRi 3 0 (BitVec.intMin 64)) ∧
      ¬ ImmediateRight ⟨.drf, .sc, 0x1000, 4⟩ .init (ginsn .subRi 3 0 (BitVec.intMin 64))
        .subRi := by
  have h := @not_emitsX86_subRi ⟨.drf, .sc, 0x1000, 4⟩ .init (ginsn .subRi 3 0 (BitVec.intMin 64))
    rfl (by decide) rfl rfl
  exact ⟨h, fun hright => h hright.means⟩

end Oryx
