/-
Oryx/Lib/A64/Frame.lean

Which registers an instruction reads and writes.

`Insn.reads` and `Insn.writes` are read off the operands of the form: operand
31 is no register where the form means `XZR`, and the stack pointer where it
means `SP`.  An instruction changes no place it does not write
(`exec_frame`), and what it does depends on the places it reads, the flags
and memory only (`exec_agree`).  A run keeps every place that no word of its
region writes (`Returns.frame`), and does not depend on those that none reads
(`Returns.agree`).
-/
import Oryx.Lib.A64.Exec

namespace Oryx.A64

/-! ### Places -/

/-- A general register or the stack pointer. -/
inductive Place
  | x (r : Reg)
  | sp
  deriving DecidableEq

/-- The content of a place. -/
def State.get (s : State) : Place → BitVec 64
  | .x r => s.x r
  | .sp => s.sp

/-- The place of an operand of which 31 is the zero register. -/
def zeroOperand (r : Reg) : List Place := if r = 31 then [] else [.x r]

/-- The place of an operand of which 31 is the stack pointer. -/
def spOperand (r : Reg) : List Place := if r = 31 then [.sp] else [.x r]

theorem zeroOperand_of_ne {r : Reg} (h : r ≠ 31) : zeroOperand r = [.x r] := if_neg h

theorem spOperand_of_ne {r : Reg} (h : r ≠ 31) : spOperand r = [.x r] := if_neg h

/-- The places an instruction reads. -/
def Insn.reads : Insn → List Place
  | .addSubImm _ _ _ rn _ => spOperand rn
  | .addSubReg _ _ _ rn rm => zeroOperand rn ++ zeroOperand rm
  | .logicReg _ _ rn rm => zeroOperand rn ++ zeroOperand rm
  | .moveWide keep rd _ _ => if keep then zeroOperand rd else []
  | .ldr _ rn _ => spOperand rn
  | .str rt rn _ => spOperand rn ++ zeroOperand rt
  | .ldar _ rn => spOperand rn
  | .ldapr _ rn => spOperand rn
  | .stlr rt rn => spOperand rn ++ zeroOperand rt
  | .ldaddal rs _ rn => spOperand rn ++ zeroOperand rs
  | .casal rs rt rn => spOperand rn ++ (zeroOperand rs ++ zeroOperand rt)
  | .dmb _ => []
  | .csinc _ rn rm _ => zeroOperand rn ++ zeroOperand rm
  | .b _ => []
  | .bcond _ _ => []
  | .ret rn => zeroOperand rn

/-- The places an instruction writes. -/
def Insn.writes : Insn → List Place
  | .addSubImm _ S rd _ _ => if S then zeroOperand rd else spOperand rd
  | .addSubReg _ _ rd _ _ => zeroOperand rd
  | .logicReg _ rd _ _ => zeroOperand rd
  | .moveWide _ rd _ _ => zeroOperand rd
  | .ldr rt _ _ => zeroOperand rt
  | .str _ _ _ => []
  | .ldar rt _ => zeroOperand rt
  | .ldapr rt _ => zeroOperand rt
  | .stlr _ _ => []
  | .ldaddal _ rt _ => zeroOperand rt
  | .casal rs _ _ => zeroOperand rs
  | .dmb _ => []
  | .csinc rd _ _ _ => zeroOperand rd
  | .b _ => []
  | .bcond _ _ => []
  | .ret _ => []

/-! ### What is not written stands -/

theorem get_setX {s : State} {r : Reg} {v : BitVec 64} {p : Place} (h : p ∉ zeroOperand r) :
    (s.setX r v).get p = s.get p := by
  unfold State.setX
  split
  · rfl
  · next hr =>
    rw [zeroOperand_of_ne hr, List.mem_singleton] at h
    cases p with
    | sp => rfl
    | x k => exact Function.update_of_ne (fun e => h (congrArg Place.x e)) _ _

theorem get_setXSP {s : State} {r : Reg} {v : BitVec 64} {p : Place} (h : p ∉ spOperand r) :
    (s.setXSP r v).get p = s.get p := by
  unfold State.setXSP
  unfold spOperand at h
  split
  · next hr =>
    rw [if_pos hr, List.mem_singleton] at h
    cases p with
    | sp => exact absurd rfl h
    | x k => rfl
  · next hr =>
    rw [if_neg hr, List.mem_singleton] at h
    cases p with
    | sp => rfl
    | x k => exact Function.update_of_ne (fun e => h (congrArg Place.x e)) _ _

theorem get_flags (s : State) (f : Flags) (p : Place) : ({ s with flags := f } : State).get p =
    s.get p := by
  cases p <;> rfl

theorem get_mem (s : State) (m : Mem) (p : Place) : ({ s with mem := m } : State).get p =
    s.get p := by
  cases p <;> rfl

/-- **The frame of an instruction**: what it does not write stands. -/
theorem exec_frame {i : Insn} {s s' : State} (h : exec i s = some s') {p : Place}
    (hp : p ∉ i.writes) : s'.get p = s.get p := by
  cases i with
  -- with flags register 31 is XZR, without them SP
  | addSubImm op S rd rn imm12 =>
    cases h
    cases S with
    | true => exact (get_flags _ _ p).trans (get_setX hp)
    | false => exact get_setXSP hp
  | addSubReg op S rd rn rm =>
    cases h
    cases S with
    | true => exact (get_flags _ _ p).trans (get_setX hp)
    | false => exact get_setX hp
  | logicReg op rd rn rm =>
    cases h
    dsimp only
    split
    · exact (get_flags _ _ p).trans (get_setX hp)
    · exact get_setX hp
  -- memory and flags are no place
  | str rt rn imm12 =>
    cases h
    exact get_mem s _ p
  | stlr rt rn =>
    cases h
    exact get_mem s _ p
  | ldaddal rs rt rn =>
    cases h
    exact (get_setX hp).trans (get_mem s _ p)
  | casal rs rt rn =>
    cases h
    exact (get_setX hp).trans (get_mem s _ p)
  | dmb kind =>
    cases h
    rfl
  -- branches are not executed here
  | b imm26 => cases h
  | bcond cond imm19 => cases h
  | ret rn => cases h
  | _ =>
    cases h
    exact get_setX hp

/-! ### What is not read does not matter -/

/-- The two machines agree on flags, memory and the places listed. -/
structure Agree (ps : List Place) (s t : State) : Prop where
  flags : s.flags = t.flags
  mem : s.mem = t.mem
  get : ∀ p ∈ ps, s.get p = t.get p

theorem getX_agree {s t : State} {r : Reg} (h : ∀ p ∈ zeroOperand r, s.get p = t.get p) :
    s.getX r = t.getX r := by
  unfold State.getX
  split
  · rfl
  · next hr => exact h (.x r) (by rw [zeroOperand_of_ne hr]; exact List.mem_cons_self)

theorem getXSP_agree {s t : State} {r : Reg} (h : ∀ p ∈ spOperand r, s.get p = t.get p) :
    s.getXSP r = t.getXSP r := by
  unfold State.getXSP
  split
  · next hr => exact h .sp (by rw [spOperand, if_pos hr]; exact List.mem_cons_self)
  · next hr => exact h (.x r) (by rw [spOperand_of_ne hr]; exact List.mem_cons_self)

theorem agree_setX {s t : State} (hf : s.flags = t.flags) (hm : s.mem = t.mem) (r : Reg)
    (v : BitVec 64) : Agree (zeroOperand r) (s.setX r v) (t.setX r v) := by
  unfold State.setX
  split
  · next hr => exact ⟨hf, hm, fun p hp => by rw [zeroOperand, if_pos hr] at hp; cases hp⟩
  · next hr =>
    refine ⟨hf, hm, fun p hp => ?_⟩
    rw [zeroOperand_of_ne hr, List.mem_singleton] at hp
    subst hp
    exact (Function.update_self r v s.x).trans (Function.update_self r v t.x).symm

theorem agree_setXSP {s t : State} (hf : s.flags = t.flags) (hm : s.mem = t.mem) (r : Reg)
    (v : BitVec 64) : Agree (spOperand r) (s.setXSP r v) (t.setXSP r v) := by
  unfold State.setXSP spOperand
  split
  · refine ⟨hf, hm, fun p hp => ?_⟩
    rw [List.mem_singleton] at hp
    subst hp
    rfl
  · refine ⟨hf, hm, fun p hp => ?_⟩
    rw [List.mem_singleton] at hp
    subst hp
    exact (Function.update_self r v s.x).trans (Function.update_self r v t.x).symm

theorem Agree.withFlags {ps : List Place} {s t : State} (h : Agree ps s t) (f : Flags) :
    Agree ps { s with flags := f } { t with flags := f } :=
  ⟨rfl, h.mem, fun p hp =>
    (get_flags s f p).trans ((h.get p hp).trans (get_flags t f p).symm)⟩

theorem agree_mem {s t : State} (hf : s.flags = t.flags) (m : Mem) :
    Agree [] { s with mem := m } { t with mem := m } :=
  ⟨hf, rfl, fun _ hp => nomatch hp⟩

theorem agree_setX_mem {s t : State} (hf : s.flags = t.flags) (m : Mem) (r : Reg)
    (v : BitVec 64) :
    Agree (zeroOperand r) (State.setX { s with mem := m } r v)
      (State.setX { t with mem := m } r v) := by
  apply agree_setX
  · exact hf
  · rfl

theorem Agree.left {ps qs : List Place} {s t : State} (h : Agree (ps ++ qs) s t) :
    Agree ps s t :=
  ⟨h.flags, h.mem, fun p hp => h.get p (List.mem_append_left _ hp)⟩

theorem Agree.right {ps qs : List Place} {s t : State} (h : Agree (ps ++ qs) s t) :
    Agree qs s t :=
  ⟨h.flags, h.mem, fun p hp => h.get p (List.mem_append_right _ hp)⟩

/-- **An instruction depends on what it reads**: on machines that agree there it leaves the same
flags and memory, and the same in every place it writes. -/
theorem exec_agree {i : Insn} {s t s' : State} (h : Agree i.reads s t)
    (hs : exec i s = some s') : ∃ t', exec i t = some t' ∧ Agree i.writes s' t' := by
  cases i with
  -- the operands agree, so the result and the flags do
  | addSubImm op S rd rn imm12 =>
    cases hs
    have hn : s.getXSP rn = t.getXSP rn := getXSP_agree h.get
    refine ⟨_, rfl, ?_⟩
    dsimp only
    rw [hn]
    cases S with
    | true => exact (agree_setX h.flags h.mem rd _).withFlags _
    | false => exact agree_setXSP h.flags h.mem rd _
  | addSubReg op S rd rn rm =>
    cases hs
    have hn : s.getX rn = t.getX rn := getX_agree h.left.get
    have hm : s.getX rm = t.getX rm := getX_agree h.right.get
    refine ⟨_, rfl, ?_⟩
    dsimp only
    rw [hn, hm]
    cases S with
    | true => exact (agree_setX h.flags h.mem rd _).withFlags _
    | false => exact agree_setX h.flags h.mem rd _
  | logicReg op rd rn rm =>
    cases hs
    have hn : s.getX rn = t.getX rn := getX_agree h.left.get
    have hm : s.getX rm = t.getX rm := getX_agree h.right.get
    refine ⟨_, rfl, ?_⟩
    dsimp only
    rw [hn, hm]
    split
    · exact (agree_setX h.flags h.mem rd _).withFlags _
    · exact agree_setX h.flags h.mem rd _
  | moveWide keep rd imm16 hw =>
    cases hs
    have hold : (if keep = true then s.getX rd else 0) = if keep = true then t.getX rd else 0 := by
      cases keep with
      | true => exact getX_agree h.get
      | false => rfl
    refine ⟨_, rfl, ?_⟩
    rw [hold]
    exact agree_setX h.flags h.mem rd _
  -- loads: the addresses agree, and memory does
  | ldr rt rn imm12 =>
    cases hs
    have hn : s.getXSP rn = t.getXSP rn := getXSP_agree h.get
    refine ⟨_, rfl, ?_⟩
    rw [hn, h.mem]
    exact agree_setX h.flags h.mem rt _
  | ldar rt rn =>
    cases hs
    have hn : s.getXSP rn = t.getXSP rn := getXSP_agree h.get
    refine ⟨_, rfl, ?_⟩
    rw [hn, h.mem]
    exact agree_setX h.flags h.mem rt _
  | ldapr rt rn =>
    cases hs
    have hn : s.getXSP rn = t.getXSP rn := getXSP_agree h.get
    refine ⟨_, rfl, ?_⟩
    rw [hn, h.mem]
    exact agree_setX h.flags h.mem rt _
  -- stores: the address and the word agree
  | str rt rn imm12 =>
    cases hs
    have hn : s.getXSP rn = t.getXSP rn := getXSP_agree h.left.get
    have ht : s.getX rt = t.getX rt := getX_agree h.right.get
    refine ⟨_, rfl, ?_⟩
    rw [hn, ht, h.mem]
    exact agree_mem h.flags _
  | stlr rt rn =>
    cases hs
    have hn : s.getXSP rn = t.getXSP rn := getXSP_agree h.left.get
    have ht : s.getX rt = t.getX rt := getX_agree h.right.get
    refine ⟨_, rfl, ?_⟩
    rw [hn, ht, h.mem]
    exact agree_mem h.flags _
  -- both a store and a load
  | ldaddal rs rt rn =>
    have hn : s.getXSP rn = t.getXSP rn := getXSP_agree h.left.get
    have ht : s.getX rs = t.getX rs := getX_agree h.right.get
    rw [exec, hn, ht, h.mem, Option.some.injEq] at hs
    rw [exec]
    subst hs
    exact ⟨_, rfl, agree_setX_mem h.flags _ rt _⟩
  | casal rs rt rn =>
    have hn : s.getXSP rn = t.getXSP rn := getXSP_agree h.left.get
    have hc : s.getX rs = t.getX rs := getX_agree h.right.left.get
    have ht : s.getX rt = t.getX rt := getX_agree h.right.right.get
    rw [exec, hn, hc, ht, h.mem, Option.some.injEq] at hs
    rw [exec]
    subst hs
    exact ⟨_, rfl, agree_setX_mem h.flags _ rs _⟩
  | dmb kind =>
    cases hs
    exact ⟨t, rfl, h.flags, h.mem, fun _ hp => nomatch hp⟩
  | csinc rd rn rm cond =>
    cases hs
    have hn : s.getX rn = t.getX rn := getX_agree h.left.get
    have hm : s.getX rm = t.getX rm := getX_agree h.right.get
    refine ⟨_, rfl, ?_⟩
    rw [hn, hm, h.flags]
    exact agree_setX h.flags h.mem rd _
  -- branches are not executed here
  | b imm26 => cases hs
  | bcond cond imm19 => cases hs
  | ret rn => cases hs

/-! ### Runs -/

/-- No word of the region writes the place. -/
def Unwritten (code : List Word) (p : Place) : Prop :=
  ∀ w ∈ code, ∀ i, decode w = some i → p ∉ i.writes

theorem step_frame {code : List Word} {p : Place} (hp : Unwritten code p) {pc pc' : Nat}
    {s s' : State} (h : step code pc s = some (.next pc' s')) : s'.get p = s.get p := by
  -- a branch only moves the counter
  have hbranch : ∀ off, branchTo pc off s = some (.next pc' s') → s'.get p = s.get p := by
    intro off hb
    unfold branchTo at hb
    split at hb
    · cases hb
      rfl
    · cases hb
  unfold step at h
  cases hw : code[pc]? with
  | none =>
    rw [hw] at h
    cases h
  | some w =>
    rw [hw, Option.bind_some] at h
    have hmem := List.mem_of_getElem? hw
    split at h
    · cases h
    · exact hbranch _ h
    · split at h
      · exact hbranch _ h
      · cases h
        rfl
    · cases h
    · next i _ _ _ hi =>
      obtain ⟨u, hu, he⟩ := Option.map_eq_some_iff.mp h
      cases he
      exact exec_frame hu (hp w hmem i hi)

theorem step_returned {code : List Word} {pc : Nat} {s s' : State} {t : BitVec 64}
    (h : step code pc s = some (.returned t s')) : s' = s := by
  have hbranch : ∀ off, branchTo pc off s ≠ some (.returned t s') := by
    intro off hb
    unfold branchTo at hb
    split at hb
    · cases hb
    · cases hb
  unfold step at h
  split at h
  · cases h
  · exact absurd h (hbranch _)
  · split at h
    · exact absurd h (hbranch _)
    · cases h
  · cases h
    rfl
  · obtain ⟨u, -, he⟩ := Option.map_eq_some_iff.mp h
    cases he

/-- **The frame of a run.** -/
theorem Returns.frame {code : List Word} {p : Place} (hp : Unwritten code p) {pc : Nat}
    {s s' : State} {t : BitVec 64} (h : Returns code pc s t s') : s'.get p = s.get p := by
  obtain ⟨fuel, hrun⟩ := h
  induction fuel generalizing pc s with
  | zero => cases hrun
  | succ fuel ih =>
    rw [runFrom] at hrun
    cases hs : step code pc s with
    | none =>
      rw [hs] at hrun
      cases hrun
    | some n =>
      rw [hs] at hrun
      cases n with
      | next pc' u => exact (ih hrun).trans (step_frame hp hs)
      | returned t' u =>
        cases hrun
        rw [step_returned hs]

/-! ### Runs of machines that agree -/

/-- The words of the region read the places listed only. -/
def ReadsWithin (code : List Word) (ps : List Place) : Prop :=
  ∀ w ∈ code, ∀ i, decode w = some i → ∀ p ∈ i.reads, p ∈ ps

/-- An instruction that reads within `ps` keeps the agreement there. -/
theorem exec_agree_within {i : Insn} {ps : List Place} (hread : ∀ p ∈ i.reads, p ∈ ps)
    {s t s' : State} (h : Agree ps s t) (hs : exec i s = some s') :
    ∃ t', exec i t = some t' ∧ Agree ps s' t' := by
  obtain ⟨t', ht, hw⟩ := exec_agree ⟨h.flags, h.mem, fun p hp => h.get p (hread p hp)⟩ hs
  refine ⟨t', ht, hw.flags, hw.mem, fun p hp => ?_⟩
  by_cases hwrite : p ∈ i.writes
  · exact hw.get p hwrite
  · rw [exec_frame hs hwrite, exec_frame ht hwrite]
    exact h.get p hp

/-- Where two such steps lead. -/
inductive NextAgree (ps : List Place) : Next → Next → Prop
  | next (pc : Nat) {s t : State} (h : Agree ps s t) : NextAgree ps (.next pc s) (.next pc t)
  | returned (target : BitVec 64) {s t : State} (h : Agree ps s t) :
      NextAgree ps (.returned target s) (.returned target t)

theorem step_agree {code : List Word} {ps : List Place} (hread : ReadsWithin code ps) {pc : Nat}
    {s t : State} (h : Agree ps s t) {n : Next} (hs : step code pc s = some n) :
    ∃ n', step code pc t = some n' ∧ NextAgree ps n n' := by
  have hbranch : ∀ off, branchTo pc off s = some n →
      ∃ n', branchTo pc off t = some n' ∧ NextAgree ps n n' := by
    intro off hb
    unfold branchTo at hb ⊢
    split at hb
    · next hle =>
      cases hb
      exact ⟨_, if_pos hle, .next _ h⟩
    · cases hb
  unfold step at hs ⊢
  cases hw : code[pc]? with
  | none =>
    rw [hw] at hs
    cases hs
  | some w =>
    rw [hw, Option.bind_some] at hs
    rw [Option.bind_some]
    have hmem := List.mem_of_getElem? hw
    cases hi : decode w with
    | none =>
      rw [hi] at hs
      cases hs
    | some i =>
      rw [hi] at hs
      have hwithin := hread w hmem i hi
      cases i with
      | b imm26 => exact hbranch _ hs
      -- the flags agree, so both take it or neither
      | bcond cond imm19 =>
        dsimp only at hs ⊢
        rw [← h.flags]
        split at hs
        · next hc =>
          rw [if_pos hc]
          exact hbranch _ hs
        · next hc =>
          rw [if_neg hc]
          cases hs
          exact ⟨_, rfl, .next _ h⟩
      -- the register read is one of the places
      | ret rn =>
        cases hs
        have hn : s.getX rn = t.getX rn := getX_agree fun p hp => h.get p (hwithin p hp)
        refine ⟨_, rfl, ?_⟩
        rw [hn]
        exact .returned _ h
      | _ =>
        obtain ⟨u, hu, rfl⟩ := Option.map_eq_some_iff.mp hs
        obtain ⟨u', hu', hagree⟩ := exec_agree_within hwithin h hu
        exact ⟨_, Option.map_eq_some_iff.mpr ⟨u', hu', rfl⟩, .next _ hagree⟩

/-- **What a run does not read does not matter.** -/
theorem Returns.agree {code : List Word} {ps : List Place} (hread : ReadsWithin code ps)
    {pc : Nat} {s t s' : State} {target : BitVec 64} (h : Agree ps s t)
    (hrun : Returns code pc s target s') :
    ∃ t', Returns code pc t target t' ∧ Agree ps s' t' := by
  obtain ⟨fuel, hrun⟩ := hrun
  induction fuel generalizing pc s t with
  | zero => cases hrun
  | succ fuel ih =>
    rw [runFrom] at hrun
    cases hs : step code pc s with
    | none =>
      rw [hs] at hrun
      cases hrun
    | some n =>
      rw [hs] at hrun
      obtain ⟨n', ht, hnext⟩ := step_agree hread h hs
      cases hnext with
      | next pc' hagree =>
        obtain ⟨t', hret, hend⟩ := ih hagree hrun
        exact ⟨t', hret.of_step ht, hend⟩
      | returned target hagree =>
        cases hrun
        refine ⟨_, ⟨1, ?_⟩, hagree⟩
        rw [runFrom, ht]

end Oryx.A64
