/-
Oryx/Stream.lean

The instruction stream of a block: where each op stands in it, and which ops
put memory accesses into it.

The stream of a unit is what its code words decode to; op `k` of the block
owns the positions from `opStart k` to `opStart (k + 1)`.
-/
import Oryx.Lowering
import Oryx.Lib.A64.Order

namespace Oryx

open A64

variable {cfg : TransCfg} {ops : List OryxGinsn}

/-! ### Positions of an op -/

/-- The position of the first instruction of op `k`. -/
def opStart (cfg : TransCfg) (ops : List OryxGinsn) (k : Nat) : Nat :=
  ((ops.take k).flatMap (opWords cfg)).length

/-- Position `p` belongs to op `k`. -/
def OfOp (cfg : TransCfg) (ops : List OryxGinsn) (k p : Nat) : Prop :=
  opStart cfg ops k ≤ p ∧ p < opStart cfg ops (k + 1)

theorem length_flatMap_opWords (hdec : ∀ i ∈ ops, DecodesTo (opWords cfg i) (insnsOf cfg i)) :
    (ops.flatMap (opWords cfg)).length = (blockInsns cfg ops).length := by
  induction ops with
  | nil => rfl
  | cons i ops ih =>
    rw [List.flatMap_cons, blockInsns, List.flatMap_cons, List.length_append, List.length_append,
      (hdec i List.mem_cons_self).length, ih fun j hj => hdec j (List.mem_cons_of_mem i hj)]
    rfl

theorem opStart_eq (hdec : ∀ i ∈ ops, DecodesTo (opWords cfg i) (insnsOf cfg i)) (k : Nat) :
    opStart cfg ops k = (blockInsns cfg (ops.take k)).length :=
  length_flatMap_opWords fun i hi => hdec i (List.mem_of_mem_take hi)

/-- The stream around op `k`. -/
theorem stream_split {k : Nat} {i : OryxGinsn}
    (hdec : ∀ i ∈ ops, DecodesTo (opWords cfg i) (insnsOf cfg i)) (hk : ops[k]? = some i) :
    (blockInsns cfg ops = blockInsns cfg (ops.take k) ++
      (insnsOf cfg i ++ blockInsns cfg (ops.drop (k + 1)))) ∧
    opStart cfg ops (k + 1) = opStart cfg ops k + (insnsOf cfg i).length := by
  obtain ⟨hlt, hi⟩ := List.getElem?_eq_some_iff.mp hk
  have htake : ops.take (k + 1) = ops.take k ++ [i] := by
    rw [← hi, List.take_append_getElem hlt]
  have hops : ops = ops.take k ++ i :: ops.drop (k + 1) := by
    rw [← hi, List.getElem_cons_drop hlt, List.take_append_drop]
  refine ⟨?_, ?_⟩
  · conv_lhs => rw [hops]
    simp only [blockInsns, List.flatMap_append, List.flatMap_cons]
  · rw [opStart_eq hdec, opStart_eq hdec, htake]
    simp only [blockInsns, List.flatMap_append, List.length_append, List.flatMap_cons,
      List.flatMap_nil, List.append_nil]

/-- A position of op `k` holds an instruction of the op. -/
theorem getElem?_ofOp {k p : Nat} {i : OryxGinsn}
    (hdec : ∀ i ∈ ops, DecodesTo (opWords cfg i) (insnsOf cfg i)) (hk : ops[k]? = some i)
    (hp : OfOp cfg ops k p) :
    (blockInsns cfg ops)[p]? = (insnsOf cfg i)[p - opStart cfg ops k]? := by
  obtain ⟨hsplit, hnext⟩ := stream_split hdec hk
  obtain ⟨hge, hlt⟩ := hp
  rw [hsplit, List.getElem?_append_right (by rw [← opStart_eq hdec]; exact hge),
    List.getElem?_append_left (by rw [← opStart_eq hdec]; omega), opStart_eq hdec]

/-- Every instruction of the stream belongs to an op. -/
theorem mem_blockInsns {a : Insn} (h : a ∈ blockInsns cfg ops) :
    ∃ i ∈ ops, a ∈ insnsOf cfg i :=
  List.mem_flatMap.mp h

/-- The instructions of op `k` stand in the stream from `opStart k` on. -/
theorem embeds_ofOp {k : Nat} {i : OryxGinsn}
    (hdec : ∀ i ∈ ops, DecodesTo (opWords cfg i) (insnsOf cfg i)) (hk : ops[k]? = some i) :
    ∀ m x, (insnsOf cfg i)[m]? = some x →
      (blockInsns cfg ops)[opStart cfg ops k + m]? = some x := by
  intro m x hm
  have hlt := (List.getElem?_eq_some_iff.mp hm).1
  have hspan : OfOp cfg ops k (opStart cfg ops k + m) := by
    refine ⟨Nat.le_add_right _ m, ?_⟩
    rw [(stream_split hdec hk).2]
    omega
  rw [getElem?_ofOp hdec hk hspan, Nat.add_sub_cancel_left]
  exact hm

theorem opStart_succ (cfg : TransCfg) (ops : List OryxGinsn) (k : Nat) :
    opStart cfg ops k ≤ opStart cfg ops (k + 1) := by
  rw [opStart, opStart, List.take_add_one, List.flatMap_append, List.length_append]
  exact Nat.le_add_right _ _

theorem opStart_mono (cfg : TransCfg) (ops : List OryxGinsn) : Monotone (opStart cfg ops) :=
  monotone_nat_of_le_succ (opStart_succ cfg ops)

/-- Every position before op `n` belongs to an op before it. -/
theorem exists_ofOp {n p : Nat} (h : p < opStart cfg ops n) : ∃ k < n, OfOp cfg ops k p := by
  induction n with
  | zero => exact absurd h (Nat.not_lt_zero p)
  | succ n ih =>
    by_cases hlt : p < opStart cfg ops n
    · obtain ⟨k, hk, hp⟩ := ih hlt
      exact ⟨k, Nat.lt_succ_of_lt hk, hp⟩
    · exact ⟨n, Nat.lt_succ_self n, Nat.le_of_not_lt hlt, h⟩

/-- The op before which a position stands. -/
theorem OfOp.lt_of_lt {j k p : Nat} (hp : OfOp cfg ops j p) (h : p < opStart cfg ops k) :
    j < k := by
  by_contra hle
  have hmono := opStart_mono cfg ops (Nat.le_of_not_lt hle)
  have := hp.1
  omega

theorem OfOp.of_lt {j k p : Nat} (hp : OfOp cfg ops j p) (h : j < k) : p < opStart cfg ops k :=
  Nat.lt_of_lt_of_le hp.2 (opStart_mono cfg ops h)

theorem OfOp.getElem? {k p : Nat} (hp : OfOp cfg ops k p) : ∃ i, ops[k]? = some i := by
  cases hk : ops[k]? with
  | some i => exact ⟨i, rfl⟩
  | none =>
    obtain ⟨hge, hlt⟩ := hp
    rw [opStart, List.take_add_one, hk] at hlt
    simp only [Option.toList_none, List.append_nil] at hlt
    exact absurd hge (Nat.not_le_of_lt hlt)

/-- An op of one instruction: its only position, and what is there. -/
theorem single_ofOp {k : Nat} {i : OryxGinsn} {a : Insn}
    (hdec : ∀ i ∈ ops, DecodesTo (opWords cfg i) (insnsOf cfg i)) (hk : ops[k]? = some i)
    (hins : insnsOf cfg i = [a]) :
    (blockInsns cfg ops)[opStart cfg ops k]? = some a ∧
      ∀ m, OfOp cfg ops k m ↔ m = opStart cfg ops k := by
  have hnext := (stream_split hdec hk).2
  rw [hins, List.length_singleton] at hnext
  have hget := embeds_ofOp hdec hk 0 a (by rw [hins]; rfl)
  refine ⟨hget, fun m => ?_⟩
  rw [OfOp, hnext]
  omega

/-- The stream of an accepted block, op by op. -/
theorem translated_stream {profileId : U32} {tu : OryxTu} {st : OryxMmStats}
    (h : oryxTranslateEx ops cfg profileId = .ok (tu, st)) :
    (∀ i ∈ ops, ∃ op, i.opcode = some op) ∧
    (∀ i ∈ ops, DecodesTo (opWords cfg i) (insnsOf cfg i)) ∧
    DecodesTo (codeWords tu) (blockInsns cfg ops) := by
  obtain ⟨body, last, ds, dl, ht⟩ := oryxTranslateEx_ok h
  obtain ⟨hwords, hdec⟩ := codeWords_translated h
  refine ⟨?_, ?_, hwords ▸ hdec⟩
  · intro i hi
    obtain ⟨d, hd⟩ := ht.lowersTo.lowers i hi
    obtain ⟨-, op, hop, -⟩ := lowered_ok hd
    exact ⟨op, hop⟩
  · intro i hi
    obtain ⟨d, hd⟩ := ht.lowersTo.lowers i hi
    exact decode_opWords hd

/-! ### Which ops touch memory -/

/-- The opcodes that access memory. -/
def GuestOp.accesses : GuestOp → Bool
  | .load => true
  | .store => true
  | .atomicAdd => true
  | .atomicCas => true
  | .push => true
  | .pop => true
  | .call => true
  | .x86ret => true
  | _ => false

/-- The opcodes that access the stack. -/
def GuestOp.usesStack : GuestOp → Bool
  | .push => true
  | .pop => true
  | .call => true
  | .x86ret => true
  | _ => false

theorem mem_movimmInsns {reg : Reg} {v : U64} {a : Insn} (h : a ∈ movimmInsns reg v) :
    ∃ keep imm16 hw, a = .moveWide keep reg imm16 hw := by
  rcases List.mem_cons.mp h with rfl | h
  · exact ⟨_, _, _, rfl⟩
  · obtain ⟨hw, -, hhw⟩ := List.mem_filterMap.mp h
    split at hhw
    · exact ⟨_, _, _, (Option.some.inj hhw).symm⟩
    · cases hhw

/-- A property of all instructions of a constant's materialization. -/
theorem all_movimmInsns {f : Insn → Bool} {reg : Reg}
    (hf : ∀ keep imm16 hw, f (.moveWide keep reg imm16 hw) = true) (v : U64) :
    (movimmInsns reg v).all f = true := by
  rw [List.all_eq_true]
  intro a ha
  obtain ⟨keep, imm16, hw, rfl⟩ := mem_movimmInsns ha
  exact hf keep imm16 hw

theorem all_constInsns {f : Insn → Bool} {pos neg : BitVec 12 → Insn} {reg : Insn} (d : U64)
    (hmov : ∀ keep imm16 hw, f (.moveWide keep 16 imm16 hw) = true)
    (hpos : ∀ imm12, f (pos imm12) = true) (hneg : ∀ imm12, f (neg imm12) = true)
    (hreg : f reg = true) : (constInsns d pos neg reg).all f = true := by
  unfold constInsns
  split
  · rw [List.all_cons, hpos]
    rfl
  · split
    · rw [List.all_cons, hneg]
      rfl
    · rw [List.all_append, all_movimmInsns hmov, List.all_cons, hreg]
      rfl

theorem all_addrInsns {f : Insn → Bool} {i : OryxGinsn}
    (hf : ∀ imm12, f (.addSubImm false false 16 (xreg i.rn) imm12) = true) :
    (addrInsns i).all f = true := by
  unfold addrInsns
  split
  · rw [List.all_cons, hf]
    rfl
  · rfl

/-- Neither an access nor a barrier. -/
def isQuiet (a : Insn) : Bool :=
  match a with
  | .dmb _ => false
  | a => !a.isAccess

/-- An op that does not access memory and is no fence emits only quiet
instructions. -/
theorem quiet_opInsns (cfg : TransCfg) (i : OryxGinsn) {op : GuestOp}
    (hmem : op.accesses = false) (hfence : op ≠ .fence) :
    (opInsns cfg i op).all isQuiet = true := by
  cases op with
  | movRi => exact all_movimmInsns (fun _ _ _ => rfl) i.imm
  | lea => exact all_constInsns _ (fun _ _ _ => rfl) (fun _ => rfl) (fun _ => rfl) rfl
  | addRi => exact all_constInsns _ (fun _ _ _ => rfl) (fun _ => rfl) (fun _ => rfl) rfl
  | subRi => exact all_constInsns _ (fun _ _ _ => rfl) (fun _ => rfl) (fun _ => rfl) rfl
  | cmpRi => exact all_constInsns _ (fun _ _ _ => rfl) (fun _ => rfl) (fun _ => rfl) rfl
  | fence => exact absurd rfl hfence
  | load => cases hmem
  | store => cases hmem
  | atomicAdd => cases hmem
  | atomicCas => cases hmem
  | push => cases hmem
  | pop => cases hmem
  | call => cases hmem
  | x86ret => cases hmem
  | _ => rfl

theorem not_access_of_quiet {a : Insn} (h : isQuiet a = true) : a.isAccess = false := by
  cases a <;> first | rfl | cases h

end Oryx
