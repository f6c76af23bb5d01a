/-
Oryx/LockedFlags.lean

What LOCK ops leave: memory, registers and flags.

`LDADDAL` and `CASAL` give memory and registers what `LOCK ADD` and
`LOCK CMPXCHG` give them, whatever registers coincide.  They do not touch
NZCV, so a later condition that reads the flags of the LOCK op reads the
flags that stood before it (`flags_after_atomic`).  The condition is right
just when the LOCK op would not have changed it (`lockedRight_iff`).
-/
import Oryx.FlagRuns

namespace Oryx

open A64

variable {cfg : TransCfg} {ops : List OryxGinsn} {ws : List Word}

/-! ### Runs of a linked block -/

/-- Started in `s`, the machine stands in `u` before op `k` of the block. -/
def AtOp (cfg : TransCfg) (ops : List OryxGinsn) (ws : List Word) (s : A64.State) (k : Nat)
    (u : A64.State) : Prop :=
  iterate ws (opStart cfg ops k) 0 s = some (opStart cfg ops k, u)

/-- Op `k` evaluates the condition `c` on the flags of the LOCK op `j`: no op between them
writes flags. -/
structure ReadsLocked (ops : List OryxGinsn) (j k : Nat) (w i : OryxGinsn) (op : GuestOp)
    (c : X86.Cond) : Prop where
  lt : j < k
  locked : ops[j]? = some w
  opcode : w.opcode = some op
  atomic : w.isAtomic
  between : ∀ m x, j < m → m < k → ops[m]? = some x → x.writesFlags = false
  reader : ops[k]? = some i
  reads : i.readsFlags = true
  cond : gccCond i.cc = some c

/-- Run from `s`, the block gives LOCK ops their x86 results, and the conditions that read their
flags their x86 values. -/
structure LockedRight (cfg : TransCfg) (ops : List OryxGinsn) (ws : List Word) (s : A64.State) :
    Prop where
  results : ∀ j w op, ops[j]? = some w → w.opcode = some op → w.isAtomic →
    ∃ u u', AtOp cfg ops ws s j u ∧ AtOp cfg ops ws s (j + 1) u' ∧
      (guestOf u').regs = (x86Exec w op (guestOf u)).regs ∧
      (guestOf u').mem = (x86Exec w op (guestOf u)).mem
  conditions : ∀ j k w i op c, ReadsLocked ops j k w i op c →
    ∃ u v, AtOp cfg ops ws s j u ∧ AtOp cfg ops ws s k v ∧
      condHolds (xcond (armCond i.cc)) v.flags = c.holds (x86Exec w op (guestOf u)).flags

/-- Wherever a condition reads the flags of a LOCK op, it has the same value in the flags that
the ops before have left in NZCV as in those the LOCK op leaves on x86. -/
def LocksKeepConditions (ops : List OryxGinsn) (s : A64.State) : Prop :=
  ∀ j k w i op c, ReadsLocked ops j k w i op c →
    c.holds (emittedRun (ops.take j) (guestOf s)).flags =
      c.holds (x86Exec w op (emittedRun (ops.take j) (guestOf s))).flags

/-! ### One LOCK op -/

/-- A LOCK op gives registers and memory their x86 results, and leaves the flags as they were. -/
theorem emittedStep_atomic {w : OryxGinsn} {op : GuestOp} (hop : w.opcode = some op)
    (h : w.isAtomic) (g : X86State) :
    (emittedStep g w).regs = (x86Exec w op g).regs ∧
      (emittedStep g w).mem = (x86Exec w op g).mem ∧ (emittedStep g w).flags = g.flags := by
  rw [emittedStep, hop]
  rcases h with h | h
  · cases hop.symm.trans h
    exact ⟨rfl, rfl, rfl⟩
  · cases hop.symm.trans h
    simp only [emittedExec, x86Exec]
    by_cases heq : g.regs rax = load64 g.mem (g.regs (greg w.rn))
    · -- the exchange: RAX is written with the value it has
      rw [if_pos heq, if_pos heq.symm]
      refine ⟨?_, rfl, rfl⟩
      show Function.update g.regs rax (load64 g.mem (g.regs (greg w.rn))) = g.regs
      rw [← heq, Function.update_eq_self]
    · rw [if_neg heq, if_neg fun e => heq e.symm]
      exact ⟨rfl, rfl, rfl⟩

theorem emittedRun_take_succ {k : Nat} {i : OryxGinsn} (h : ops[k]? = some i) (g : X86State) :
    emittedRun (ops.take (k + 1)) g = emittedStep (emittedRun (ops.take k) g) i :=
  foldl_take_succ emittedStep g h

/-- From a LOCK op up to the condition that reads it, the flags stand. -/
theorem flags_after_atomic {j k : Nat} {w i : OryxGinsn} {op : GuestOp} {c : X86.Cond}
    (h : ReadsLocked ops j k w i op c) (g : X86State) :
    (emittedRun (ops.take k) g).flags = (emittedRun (ops.take j) g).flags := by
  have key : ∀ n, j + 1 + n ≤ k →
      (emittedRun (ops.take (j + 1 + n)) g).flags = (emittedRun (ops.take j) g).flags := by
    intro n
    induction n with
    | zero =>
      intro _
      rw [Nat.add_zero, emittedRun_take_succ h.locked]
      exact (emittedStep_atomic h.opcode h.atomic _).2.2
    | succ n ih =>
      intro hle
      have hlt : j + 1 + n < ops.length :=
        Nat.lt_of_lt_of_le (by omega) (List.getElem?_eq_some_iff.mp h.reader).1
      have hget := List.getElem?_eq_getElem hlt
      have hquiet := h.between (j + 1 + n) _ (by omega) (by omega) hget
      rw [← Nat.add_assoc, emittedRun_take_succ hget, (flags_of_not_writes hquiet _ none).1]
      exact ih (by omega)
  have hlt := h.lt
  have hk := key (k - (j + 1)) (by omega)
  rwa [show j + 1 + (k - (j + 1)) = k by omega] at hk

/-! ### The block -/

section Block

variable {body : List OryxGinsn} {last : OryxGinsn} {op₀ : GuestOp}

/-- A LOCK op stands in the body. -/
theorem LinkedBlock.atomic_lt (hblock : LinkedBlock cfg ops ws body last op₀) {j : Nat}
    {w : OryxGinsn} (hw : ops[j]? = some w) (ha : w.isAtomic) : j < body.length := by
  have hle := hblock.index_le hw
  apply Nat.lt_of_le_of_ne hle
  intro hj
  rw [hblock.ops_eq, hj, List.getElem?_append_right (Nat.le_refl _), Nat.sub_self] at hw
  cases hw
  have hterm := hblock.terminates
  rcases ha with h | h
  · cases hblock.last_op.symm.trans h
    cases hterm
  · cases hblock.last_op.symm.trans h
    cases hterm

/-- The condition of op `k` is evaluated on the flags before the LOCK op. -/
theorem LinkedBlock.condHolds_locked (hblock : LinkedBlock cfg ops ws body last op₀)
    {s u v : A64.State} {j k : Nat} {w i : OryxGinsn} {op : GuestOp} {c : X86.Cond}
    (h : ReadsLocked ops j k w i op c) (hu : AtOp cfg ops ws s j u)
    (hv : AtOp cfg ops ws s k v) :
    condHolds (xcond (armCond i.cc)) v.flags = c.holds (guestOf u).flags := by
  rw [hblock.condHolds_at h.reader h.cond hv, flags_after_atomic h]
  obtain ⟨u', hu', hg⟩ := hblock.prefix (hblock.index_le h.locked) s
  rw [AtOp, hu'] at hu
  cases hu
  rw [hg]

theorem LinkedBlock.lockedRight_iff_keeps (hblock : LinkedBlock cfg ops ws body last op₀)
    (s : A64.State) : LockedRight cfg ops ws s ↔ LocksKeepConditions ops s := by
  constructor
  · intro hright j k w i op c hread
    obtain ⟨u, v, hu, hv, hcond⟩ := hright.conditions j k w i op c hread
    obtain ⟨u', hu', hg⟩ := hblock.prefix (hblock.index_le hread.locked) s
    cases hu.symm.trans hu'
    rw [← hg, ← hcond, hblock.condHolds_locked hread hu hv]
  · intro hkeep
    refine ⟨?_, ?_⟩
    · intro j w op hw hop ha
      have hlt := hblock.atomic_lt hw ha
      obtain ⟨u, hu, hg⟩ := hblock.prefix (Nat.le_of_lt hlt) s
      obtain ⟨u', hu', hg'⟩ := hblock.prefix (Nat.succ_le_of_lt hlt) s
      rw [emittedRun_take_succ hw, ← hg] at hg'
      obtain ⟨hregs, hmem, -⟩ := emittedStep_atomic hop ha (guestOf u)
      exact ⟨u, u', hu, hu', by rw [hg', hregs], by rw [hg', hmem]⟩
    · intro j k w i op c hread
      obtain ⟨u, hu, hg⟩ := hblock.prefix (hblock.index_le hread.locked) s
      obtain ⟨v, hv, -⟩ := hblock.prefix (hblock.index_le hread.reader) s
      refine ⟨u, v, hu, hv, ?_⟩
      rw [hblock.condHolds_locked hread hu hv, hg]
      exact hkeep j k w i op c hread

end Block

/-- **When LOCK ops mean what x86 says**, flags included: memory and registers always do, and
the flags when no LOCK op would have changed a condition that reads them. -/
theorem lockedRight_iff {profileId : U32} {tu : OryxTu} {st : OryxMmStats}
    (h : oryxTranslateEx ops cfg profileId = .ok (tu, st)) :
    ∃ exe, oryxExecMapLinked tu = .ok exe ∧
      ∀ s : A64.State, LockedRight cfg ops exe.words s ↔ LocksKeepConditions ops s := by
  obtain ⟨exe, body, last, op, hlink, hblock⟩ := linked_translated h
  exact ⟨exe, hlink, hblock.lockedRight_iff_keeps⟩

/-! ### `lock cmpxchg; jne`, and a LOCK op whose flags nobody reads -/

/-- `lock add [rdi], rcx; je 0x2000`. -/
def lockAddJe : List OryxGinsn :=
  [ginsn .atomicAdd 1 7 0, { ginsn .br 0 0 0 with target := 0x2000, cc := gccEq }]

/-- `lock cmpxchg [rdi], rcx; cmp rax, rdx; jne 0x1000`. -/
def lockCasCmpJne : List OryxGinsn :=
  [ginsn .atomicCas 1 7 0, ginsn .cmpRr 0 2 0,
    { ginsn .br 0 0 0 with target := 0x1000, cc := gccNe }]

/-- No condition of the block reads the flags of the LOCK op. -/
theorem locksKeep_lockCasCmpJne (s : A64.State) : LocksKeepConditions lockCasCmpJne s := by
  intro j k w i op c hread
  exfalso
  have hlt := hread.lt
  match k, j with
  | 0, _ => omega
  | 1, _ =>
    have hreads := hread.reads
    cases hread.reader
    cases hreads
  | 2, 0 =>
    have hcmp := hread.between 1 _ (by decide) (by decide) rfl
    cases hcmp
  | 2, 1 =>
    have hatomic := hread.atomic
    cases hread.locked
    rcases hatomic with ha | ha <;> cases ha
  | 2, j + 2 => omega
  | k + 3, _ => cases hread.reader

/-- Registers and memory of zeros. -/
def zeroGuest : X86State := ⟨fun _ => 0, ⟨false, false, false⟩, fun _ => 0⟩

/-- The `je` reads the flags of the `lock add`, which with zero registers and memory sets Z. -/
theorem locksKeep_lockAddJe {fl : A64.Flags} (hz : fl.z = true) :
    LocksKeepConditions lockAddJe (entryState zeroGuest fl) := by
  intro j k w i op c hread
  have hlt := hread.lt
  match k, j with
  | 0, _ => omega
  | 1, 0 =>
    cases hread.locked
    cases hread.reader
    cases hread.opcode
    cases hread.cond
    have hflag : fl.z = (X86.addFlags (load64 zeroGuest.mem
        ((guestOf (entryState zeroGuest fl)).regs 7))
        ((guestOf (entryState zeroGuest fl)).regs 1)).zf := by
      rw [(enters_entryState zeroGuest fl).regs, hz]
      decide
    exact hflag
  | 1, j + 1 => omega
  | k + 2, _ => cases hread.reader

/-- `lock cmpxchg; cmp; jne` is right from every state, and `lock add; je` from one with zeros and
Z set. -/
theorem lockedRight_cas_add :
    (∃ tu st exe, oryxTranslateEx lockCasCmpJne (blockCfg .drf .rcpc) 0 = .ok (tu, st) ∧
      oryxExecMapLinked tu = .ok exe ∧
      ∀ s, LockedRight (blockCfg .drf .rcpc) lockCasCmpJne exe.words s) ∧
    ∃ tu st exe s, oryxTranslateEx lockAddJe (blockCfg .drf .sc) 0 = .ok (tu, st) ∧
      oryxExecMapLinked tu = .ok exe ∧ LockedRight (blockCfg .drf .sc) lockAddJe exe.words s := by
  obtain ⟨exe, hlink, hiff⟩ := @lockedRight_iff (blockCfg .drf .rcpc) lockCasCmpJne 0 _ _ rfl
  obtain ⟨exe', hlink', hiff'⟩ := @lockedRight_iff (blockCfg .drf .sc) lockAddJe 0 _ _ rfl
  exact ⟨⟨_, _, exe, rfl, hlink, fun s => (hiff s).mpr (locksKeep_lockCasCmpJne s)⟩,
    _, _, exe', _, rfl, hlink',
    (hiff' _).mpr (@locksKeep_lockAddJe ⟨false, true, false, false⟩ rfl)⟩

/-- With zero registers and memory and the Z flag clear, `lock add` makes zero, and `je` is not
taken. -/
theorem not_lockedRight_lockAddJe :
    ∃ tu st exe s, oryxTranslateEx lockAddJe (blockCfg .drf .sc) 0 = .ok (tu, st) ∧
      oryxExecMapLinked tu = .ok exe ∧ s.x 17 = oryxHaltPc ∧
      ¬ LockedRight (blockCfg .drf .sc) lockAddJe exe.words s := by
  obtain ⟨exe, body, last, op, hlink, hblock⟩ :=
    @linked_translated (blockCfg .drf .sc) 0 lockAddJe _ _ rfl
  let s := entryState zeroGuest ⟨false, false, false, false⟩
  refine ⟨_, _, exe, s, rfl, hlink, rfl, fun hright => ?_⟩
  have hread : ReadsLocked lockAddJe 0 1 (ginsn .atomicAdd 1 7 0)
      { ginsn .br 0 0 0 with target := 0x2000, cc := gccEq } .atomicAdd .e :=
    ⟨by decide, rfl, rfl, Or.inl rfl, fun m x h1 h2 => by omega, rfl, rfl, rfl⟩
  have hkeep := (hblock.lockedRight_iff_keeps s).mp hright 0 1 _ _ _ _ hread
  have hzero : (guestOf s).regs = fun _ => 0 := (enters_entryState zeroGuest _).regs
  have hsum : (X86.addFlags (load64 (fun _ => 0) 0) 0).zf = true := by decide
  have hflag : (false : Bool) = (X86.addFlags (load64 (fun _ => 0) ((guestOf s).regs 7))
      ((guestOf s).regs 1)).zf := hkeep
  rw [hzero] at hflag
  exact Bool.false_ne_true (hflag.trans hsum)

end Oryx
