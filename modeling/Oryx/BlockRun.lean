/-
Oryx/BlockRun.lean

Running a linked block.

A translated block is linked to the instructions of its body followed by its
terminator with the branch patched and the stubs behind it (`termInsns`,
`linked_translated`).  Run from its start, it returns to the dispatcher with
the guest state the emitted ops make and the next guest PC in `x17`
(`block_returns`); after the instructions of the first `k` ops the machine is
where these ops lead (`block_prefix`).
-/
import Oryx.Simulation
import Oryx.Linking
import Oryx.Stream

namespace Oryx

open A64

/-! ### The instructions of a linked block -/

/-- The linked terminator, its branch patched, and its stubs. -/
def termInsns (cfg : TransCfg) (i : OryxGinsn) : GuestOp → List Insn
  | .br =>
      .bcond (xcond (armCond i.cc)) 6 ::
        (setpcInsns (cfg.guestPc + cfg.guestLen.setWidth 64) ++ setpcInsns i.target)
  | .jmp => .b 1 :: setpcInsns i.target
  | .call =>
      movimmInsns 16 i.imm ++ [.addSubImm true false 4 4 8, .str 16 4 0] ++
        .b 1 :: setpcInsns i.target
  | .x86ret => [.ldr 17 4 0, .addSubImm false false 4 4 8, .ret 30]
  | .ret => [.ret 30]
  | _ => []

/-- An opcode terminates exactly when it is a terminator. -/
theorem lowerOp_terminated {cfg : TransCfg} {i : OryxGinsn} {op : GuestOp} {d : TransState}
    (h : lowerOp cfg .init i op = .ok d) : d.terminated = op.isTerminator := by
  cases hterm : op.isTerminator with
  | true => exact lowerOp_terminates h hterm
  | false => exact (lowerOp_keepsControl h hterm).terminated

section Translated

variable {cfg : TransCfg} {profileId : U32} {ops body : List OryxGinsn} {last : OryxGinsn}
  {tu : OryxTu} {st : OryxMmStats} {ds : List TransState} {dl : TransState}

/-- No instruction of the body is a terminator. -/
theorem Translated.body_op (h : Translated cfg profileId ops tu st body last ds dl) :
    ∀ i ∈ body, ∃ op d, i.opcode = some op ∧ i.regsOk ∧ op.isTerminator = false ∧
      lowerOp cfg .init i op = .ok d := by
  have key : ∀ {body : List OryxGinsn} {ds : List TransState}, LowersTo cfg body ds →
      (∀ d ∈ ds, d.terminated = false) → ∀ i ∈ body, ∃ op d, i.opcode = some op ∧ i.regsOk ∧
        op.isTerminator = false ∧ lowerOp cfg .init i op = .ok d := by
    intro body ds hlow hopen
    induction hlow with
    | nil => simp
    | @cons j d js ds' hj _ ih =>
      intro i hi
      rcases List.mem_cons.mp hi with rfl | hi
      · obtain ⟨hregs, op, hop, hlo⟩ := lowered_ok hj
        refine ⟨op, d, hop, hregs, ?_, hlo⟩
        rw [← lowerOp_terminated hlo, hopen d List.mem_cons_self]
      · exact ih (fun d hd => hopen d (List.mem_cons_of_mem _ hd)) i hi
  exact key h.body_lowers h.body_open

/-- The last instruction is a terminator. -/
theorem Translated.last_op (h : Translated cfg profileId ops tu st body last ds dl) :
    ∃ op, last.opcode = some op ∧ last.regsOk ∧ op.isTerminator = true ∧
      lowerOp cfg .init last op = .ok dl := by
  obtain ⟨hregs, op, hop, hlo⟩ := lowered_ok h.last_lowers
  refine ⟨op, hop, hregs, ?_, hlo⟩
  rw [← lowerOp_terminated hlo, h.last_terminates]

/-- The body records no relocation and no exit. -/
theorem Translated.body_control (h : Translated cfg profileId ops tu st body last ds dl) :
    (TransState.concat ds).relocs = [] ∧ (TransState.concat ds).exits = [] := by
  have key : ∀ {body : List OryxGinsn} {ds : List TransState} (s : TransState),
      LowersTo cfg body ds → (∀ d ∈ ds, d.terminated = false) → s.relocs = [] → s.exits = [] →
      (ds.foldl TransState.append s).relocs = [] ∧ (ds.foldl TransState.append s).exits = [] := by
    intro body ds s hlow hopen
    induction hlow generalizing s with
    | nil => exact fun hr he => ⟨hr, he⟩
    | @cons j d js ds' hj _ ih =>
      intro hr he
      obtain ⟨-, op, -, hlo⟩ := lowered_ok hj
      have hkeep := lowerOp_keepsControl hlo
        ((lowerOp_terminated hlo).symm.trans (hopen d List.mem_cons_self))
      refine ih (s.append d) (fun d hd => hopen d (List.mem_cons_of_mem _ hd)) ?_ ?_
      · rw [TransState.append, hkeep.relocs, hr]
        rfl
      · rw [TransState.append, hkeep.exits, he]
        rfl
  exact key .init h.body_lowers h.body_open rfl rfl

/-- The code, relocations and exits of the unit, by those of the terminator. -/
theorem Translated.unit (h : Translated cfg profileId ops tu st body last ds dl)
    (htrans : oryxTranslateEx ops cfg profileId = .ok (tu, st)) :
    tu.code.val = wordBytes (body.flatMap (opWords cfg) ++ dl.code) ∧
    (∀ pre : List Word, ∀ tgt,
      dl.relocs = [⟨BitVec.ofNat 32 (4 * pre.length), relocBranchGuestPc, tgt⟩] →
      tu.relocs.val = [⟨BitVec.ofNat 32 (4 * (body.flatMap (opWords cfg) ++ pre).length),
        relocBranchGuestPc, tgt⟩]) ∧
    (dl.relocs = [] → tu.relocs.val = []) ∧
    (∀ es, dl.exits = es → es.length ≤ 2 → tu.exits.val = es) := by
  obtain ⟨hrelocs, hexits⟩ := h.body_control
  have hcode := concat_code cfg h.body_lowers
  have hlast : opWords cfg last = dl.code := by rw [opWords, h.last_lowers]
  refine ⟨?_, ?_, ?_, ?_⟩
  · rw [(translated_code htrans).1, h.ops_eq, List.flatMap_append, List.flatMap_singleton, hlast]
    rfl
  · -- a relocation of the terminator moves behind the body
    intro pre tgt hr
    rw [h.tu_eq, List.length_append, Nat.mul_add, BitVec.ofNat_add]
    simp only [buildTu, TransState.append, hrelocs, hr, List.nil_append, List.map_cons,
      List.map_nil, TransState.codeLen, hcode]
    exact Counted.clip_val (show 1 < 2 ^ 32 by decide)
  · intro hr
    rw [h.tu_eq]
    simp only [buildTu, TransState.append, hrelocs, hr, List.nil_append, List.map_nil]
    exact Counted.clip_val (by decide)
  · rintro es rfl hlen
    rw [h.tu_eq]
    simp only [buildTu, TransState.append, hexits, List.nil_append]
    exact Counted.clip_val (by omega)

/-- The words of a terminator before its last. -/
def termFront (i : OryxGinsn) : GuestOp → List Word
  | .call =>
      movimmWords oryxScratch i.imm ++ [encSubImm grRsp grRsp 8, encStr oryxScratch grRsp 0]
  | .x86ret => [encLdr oryxNextpc grRsp 0, encAddImm grRsp grRsp 8]
  | _ => []

/-- A unit whose last instruction `i` ends it, behind the words `pre`: the last word, and the
relocation and the exits that go with it. -/
inductive UnitForm (tu : OryxTu) (pre : List Word) (i : OryxGinsn) (next : U64) : GuestOp → Prop
  | br (code : tu.code.val = wordBytes (pre ++ [encBcond (armCond i.cc)]))
      (relocs : tu.relocs.val =
        [⟨BitVec.ofNat 32 (4 * pre.length), relocBranchGuestPc, i.target⟩])
      (exits : tu.exits.val = [i.target, next]) : UnitForm tu pre i next .br
  | jump {op : GuestOp} (kind : op = .jmp ∨ op = .call)
      (code : tu.code.val = wordBytes (pre ++ [encB]))
      (relocs : tu.relocs.val =
        [⟨BitVec.ofNat 32 (4 * pre.length), relocBranchGuestPc, i.target⟩])
      (exits : tu.exits.val = [i.target]) : UnitForm tu pre i next op
  | ret {op : GuestOp} (kind : op = .x86ret ∨ op = .ret)
      (code : tu.code.val = wordBytes (pre ++ [encRet])) (relocs : tu.relocs.val = []) :
      UnitForm tu pre i next op

theorem Translated.unitForm (h : Translated cfg profileId ops tu st body last ds dl)
    (htrans : oryxTranslateEx ops cfg profileId = .ok (tu, st)) {op : GuestOp}
    (hop : last.opcode = some op) (hterm : op.isTerminator = true) :
    UnitForm tu (body.flatMap (opWords cfg) ++ termFront last op) last
      (cfg.guestPc + cfg.guestLen.setWidth 64) op := by
  obtain ⟨op', hop', -, -, hlo⟩ := h.last_op
  cases hop.symm.trans hop'
  obtain ⟨hcode, hreloc, hnoreloc, hexits⟩ := h.unit htrans
  cases op with
  | br =>
    -- the branch is the terminator's first word
    cases hlo
    have hfront : termFront last .br = [] := rfl
    refine .br ?_ (hreloc [] last.target rfl) (hexits _ rfl (Nat.le_refl 2))
    rw [hcode, hfront, List.append_nil]
    rfl
  | jmp =>
    cases hlo
    have hfront : termFront last .jmp = [] := rfl
    refine .jump (Or.inl rfl) ?_ (hreloc [] last.target rfl) (hexits _ rfl (Nat.le_succ 1))
    rw [hcode, hfront, List.append_nil]
    rfl
  | call =>
    cases hlo
    -- the push stands before the branch
    refine .jump (Or.inr rfl) ?_ (hreloc (termFront last .call) last.target ?_)
      (hexits [last.target] rfl (Nat.le_succ 1))
    · rw [hcode]
      simp [termFront]
    · simp [termFront, TransState.terminate, TransState.addExit, TransState.emit,
        TransState.addReloc, emitMovimm, TransState.emitAll, TransState.codeLen, TransState.init]
  | x86ret =>
    cases hlo
    refine .ret (Or.inl rfl) ?_ (hnoreloc rfl)
    rw [hcode]
    simp [termFront]
  | ret =>
    cases hlo
    have hfront : termFront last .ret = [] := rfl
    refine .ret (Or.inr rfl) ?_ (hnoreloc rfl)
    rw [hcode, hfront, List.append_nil]
    rfl
  | _ => cases hterm

end Translated

/-- An instruction of a body: it names an opcode that is no terminator, and
its operands fit. -/
def BodyOp (cfg : TransCfg) (i : OryxGinsn) : Prop :=
  ∃ op, i.opcode = some op ∧ op.isTerminator = false ∧ i.rd.toNat < 16 ∧ i.rn.toNat < 16 ∧
    (op = .load ∨ op = .store → OffsetFits cfg i)

/-- The words `ws` are the linked block `ops`: `body`, then the terminator
`last` of opcode `op`. -/
structure LinkedBlock (cfg : TransCfg) (ops : List OryxGinsn) (ws : List Word)
    (body : List OryxGinsn) (last : OryxGinsn) (op : GuestOp) : Prop where
  ops_eq : ops = body ++ [last]
  last_op : last.opcode = some op
  terminates : op.isTerminator = true
  body_ok : ∀ i ∈ body, BodyOp cfg i
  body_words : ∀ i ∈ body, DecodesTo (opWords cfg i) (insnsOf cfg i)
  decodes : DecodesTo ws (blockInsns cfg body ++ termInsns cfg last op)

section Linked

variable {cfg : TransCfg} {profileId : U32} {ops body : List OryxGinsn} {last : OryxGinsn}
  {tu : OryxTu} {st : OryxMmStats} {op : GuestOp}

theorem Translated.bodyOp {ds : List TransState} {dl : TransState}
    (h : Translated cfg profileId ops tu st body last ds dl) : ∀ i ∈ body, BodyOp cfg i := by
  intro i hi
  obtain ⟨op, d, hop, hregs, hterm, hlo⟩ := h.body_op i hi
  obtain ⟨hd, hn⟩ := i.regsOk_iff.mp hregs
  refine ⟨op, hop, hterm, hd, hn, ?_⟩
  rintro (rfl | rfl)
  · exact lowerLoadStore_ok hlo
  · exact lowerLoadStore_ok hlo

/-- **A translated block is linked** to its body and its linked terminator. -/
theorem linked_translated (htrans : oryxTranslateEx ops cfg profileId = .ok (tu, st)) :
    ∃ exe body last op, oryxExecMapLinked tu = .ok exe ∧
      LinkedBlock cfg ops exe.words body last op := by
  obtain ⟨body, last, ds, dl, h⟩ := oryxTranslateEx_ok htrans
  obtain ⟨op, hop, -, hterm, -⟩ := h.last_op
  have hbody := decode_code h.body_lowers
  have hwords := h.body_lowers.decode
  have hstub := decode_setpcWords
  -- at most 2^20 ops of at most seven words: no 32-bit sum wraps
  have hroom : 4 * (body.flatMap (opWords cfg)).length + 24 < 2 ^ 32 := by
    have h1 := length_blockInsns_le cfg body
    have h2 := h.length_le
    rw [h.ops_eq, List.length_append, List.length_singleton] at h2
    rw [hbody.length]
    omega
  cases h.unitForm htrans hop hterm with
  | br code relocs exits =>
    have hfront : termFront last .br = [] := rfl
    rw [hfront, List.append_nil] at code relocs
    -- two stubs, the fall-through first
    have hlink := linked_br hroom code relocs exits
    refine ⟨_, body, last, _, hlink, h.ops_eq, hop, hterm, h.bodyOp, hwords, ?_⟩
    rw [words_wordBytes]
    exact hbody.append (.cons (decode_patchedBcond last.cc) ((hstub _).append (hstub _)))
  | jump kind code relocs exits =>
    -- one stub, which stands right behind the branch
    have hlink := linked_jmp code relocs exits
    refine ⟨_, body, last, _, hlink, h.ops_eq, hop, hterm, h.bodyOp, hwords, ?_⟩
    rw [words_wordBytes, List.append_assoc]
    apply hbody.append
    rcases kind with rfl | rfl
    · exact .cons (by decide) (hstub _)
    · have hpush : DecodesTo (termFront last .call)
          (movimmInsns 16 last.imm ++ [.addSubImm true false 4 4 8, .str 16 4 0]) :=
        (decode_movimmWords (by decide) last.imm).append
          (.cons (decode_encSubImm (by decide) (by decide) 8)
            (.one (decode_encStr (by decide) (by decide) 0)))
      exact hpush.append (.cons (by decide) (hstub _))
  | ret kind code relocs =>
    -- nothing to patch
    have hlink := linked_ret code relocs
    refine ⟨_, body, last, _, hlink, h.ops_eq, hop, hterm, h.bodyOp, hwords, ?_⟩
    rw [words_wordBytes, List.append_assoc]
    apply hbody.append
    rcases kind with rfl | rfl
    · exact .cons (decode_encLdr (by decide) (by decide) 0)
        (.cons (decode_encAddImm (by decide) (by decide) 8) (.one decode_encRet))
    · exact .one decode_encRet

/-! ### Running the body -/

/-- What the emitted ops make of the guest state. -/
def emittedStep (g : X86State) (i : OryxGinsn) : X86State :=
  match i.opcode with
  | some op => emittedExec i op g
  | none => g

def emittedRun (ops : List OryxGinsn) (g : X86State) : X86State := ops.foldl emittedStep g

/-- The instructions of ops that are no terminators run to what they make. -/
theorem runsTo_blockInsns {ops : List OryxGinsn} (hok : ∀ i ∈ ops, BodyOp cfg i)
    (s : A64.State) : RunsTo (blockInsns cfg ops) s (emittedRun ops (guestOf s)) := by
  induction ops generalizing s with
  | nil => exact RunsTo.nil s
  | cons i ops ih =>
    obtain ⟨op, hop, hterm, hd, hn, hfit⟩ := hok i List.mem_cons_self
    have hi : RunsTo (insnsOf cfg i) s (emittedStep (guestOf s) i) := by
      rw [insnsOf, emittedStep, hop]
      exact runsTo_opInsns s hd hn hfit hterm
    apply hi.trans
    intro u hu
    rw [emittedRun, List.foldl_cons, ← hu]
    exact ih (fun j hj => hok j (List.mem_cons_of_mem i hj)) u

/-- Decoded words are a code region. -/
theorem codeAt_of_decodes {ws : List Word} {is : List Insn} (h : DecodesTo ws is) :
    CodeAt ws 0 is := by
  intro k a hk
  have hmap := congrArg (fun l => l[k]?) h
  simp only [List.getElem?_map, hk, Option.map_some] at hmap
  rw [Nat.zero_add]
  -- there is a word wherever there is an instruction
  cases hw : ws[k]? with
  | none =>
    rw [hw] at hmap
    cases hmap
  | some w =>
    rw [hw] at hmap
    exact ⟨w, rfl, Option.some.inj hmap⟩

/-! ### Running the terminator -/

/-- `MOVZ` and three `MOVK` write the constant, zero lanes included. -/
theorem execSeq_fullConstant (s : A64.State) (pc : U64) :
    execSeq [.moveWide false 17 (lane pc 0) 0, .moveWide true 17 (lane pc 1) 1,
      .moveWide true 17 (lane pc 2) 2, .moveWide true 17 (lane pc 3) 3] s =
      some (s.setX 17 pc) := by
  have h0 : insertLane 0 (lane pc 0) 0 = lowBits pc (16 * 1) := insertLane_zero pc
  have h1 : insertLane (lowBits pc (16 * 1)) (lane pc 1) 1 = lowBits pc (16 * 2) :=
    insertLane_lowBits pc 1
  have h2 : insertLane (lowBits pc (16 * 2)) (lane pc 2) 2 = lowBits pc (16 * 3) :=
    insertLane_lowBits pc 2
  have h3 : insertLane (lowBits pc (16 * 3)) (lane pc 3) 3 = lowBits pc 64 :=
    insertLane_lowBits pc 3
  have hget : ∀ v, (s.setX 17 v).getX 17 = v := getX_setX (by decide) s
  simp only [execSeq_cons, execSeq_nil, exec, Bool.false_eq_true, if_false, if_true,
    Option.bind_some, hget, setX_setX, h0, h1, h2, h3, lowBits_64]

/-- A stub sets `x17` and returns. -/
theorem returns_setpc {ws : List Word} {n : Nat} (s : A64.State) {pc : U64}
    (h : CodeAt ws n (setpcInsns pc)) : Returns ws n s (s.x 30) (s.setX 17 pc) := by
  let mov : List Insn := [.moveWide false 17 (lane pc 0) 0, .moveWide true 17 (lane pc 1) 1,
    .moveWide true 17 (lane pc 2) 2, .moveWide true 17 (lane pc 3) 3]
  have h : CodeAt ws n (mov ++ [.ret 30]) := h
  have hmov : CodeAt ws n mov := h.left
  have hret : CodeAt ws (n + 4) [.ret 30] := h.right
  apply Returns.straight hmov (execSeq_fullConstant s pc)
  obtain ⟨w, hw, hd⟩ := hret.head
  have hx30 : (s.setX 17 pc).getX 30 = s.x 30 := by
    rw [getX_of_ne _ (by decide), setX_x_of_ne s pc (by decide)]
  rw [← hx30]
  exact Returns.ret hw hd

/-- The two distances of a patched branch. -/
theorem next_word (n : Nat) : (n : Int) + (1 : BitVec 26).toInt = (n + 1 : Nat) := rfl

theorem taken_word (n : Nat) : (n : Int) + (6 : BitVec 19).toInt = (n + 6 : Nat) := rfl

/-- `SUB RSP, RSP, #8` and `ADD RSP, RSP, #8`. -/
theorem execSeq_subRsp (s : A64.State) :
    execSeq [.addSubImm true false 4 4 8] s =
      some (s.setX (hostReg rsp) ((guestOf s).regs rsp - 8)) := by
  have h := exec_subImm s rsp rsp 8
  rw [setWidth_eight] at h
  exact (execSeq_cons _ _ _).trans (congrArg (fun o => o.bind (execSeq [])) h)

theorem execSeq_addRsp (s : A64.State) :
    execSeq [.addSubImm false false 4 4 8] s =
      some (s.setX (hostReg rsp) ((guestOf s).regs rsp + 8)) := by
  have h := exec_addImm s rsp rsp 8
  rw [setWidth_eight] at h
  exact (execSeq_cons _ _ _).trans (congrArg (fun o => o.bind (execSeq [])) h)

/-- CALL up to its branch: the return PC goes through the scratch register. -/
theorem runsTo_callInsns (s : A64.State) (i : OryxGinsn) :
    RunsTo (movimmInsns 16 i.imm ++ [.addSubImm true false 4 4 8, .str 16 4 0]) s
      (x86Exec i .call (guestOf s)) := by
  refine RunsTo.append (execSeq_movimmInsns (by decide) s i.imm) (setX_16_17 s _)
    (setX_16_30 s _) ?_
  have h16 : (s.setX 16 i.imm).getX 16 = i.imm := getX_setX_16 s i.imm
  have hg : guestOf (s.setX 16 i.imm) = guestOf s := guestOf_setX_16 s i.imm
  -- `x16` keeps the return PC up to the store
  generalize s.setX 16 i.imm = t at h16 hg
  have hsub := execSeq_subRsp t
  rw [hg] at hsub
  apply RunsTo.append hsub (setX_hostReg_17 t _ _) (setX_hostReg_30 t _ _)
  have hu16 : (t.setX (hostReg rsp) ((guestOf s).regs rsp - 8)).getX 16 = i.imm := by
    rw [getX_of_ne _ (by decide), setX_x_of_ne _ _ (by decide), ← getX_of_ne _ (by decide), h16]
  have hug : guestOf (t.setX (hostReg rsp) ((guestOf s).regs rsp - 8)) =
      (guestOf s).setReg rsp ((guestOf s).regs rsp - 8) := by
    rw [guestOf_setX_hostReg, hg]
  generalize t.setX (hostReg rsp) ((guestOf s).regs rsp - 8) = u at hu16 hug
  have hsp : u.getXSP (hostReg rsp) = (guestOf s).regs rsp - 8 := by
    rw [getXSP_hostReg, hug]
    exact Function.update_self rsp _ (guestOf s).regs
  have hrun := runsTo_mem (s := u) (i := .str 16 4 0)
    (m := store64 u.mem (scaledAddr (u.getXSP (hostReg rsp)) 0) (u.getX 16)) rfl
  have hmem : u.mem = (guestOf s).mem := congrArg X86State.mem hug
  rw [scaledAddr_zero, hsp, hu16, hug, hmem] at hrun
  exact hrun

/-- X86RET up to its `RET`: the return PC goes to `x17`. -/
theorem execSeq_x86retInsns (s : A64.State) :
    ∃ u, execSeq [.ldr 17 4 0, .addSubImm false false 4 4 8] s = some u ∧
      guestOf u = (guestOf s).setReg rsp ((guestOf s).regs rsp + 8) ∧
      u.x 17 = load64 (guestOf s).mem ((guestOf s).regs rsp) ∧ u.x 30 = s.x 30 := by
  have hldr : execSeq [.ldr 17 4 0] s =
      some (s.setX 17 (load64 s.mem (scaledAddr (s.getXSP (hostReg rsp)) 0))) := rfl
  rw [scaledAddr_zero, getXSP_hostReg] at hldr
  have hg := guestOf_setX_17 s (load64 s.mem ((guestOf s).regs rsp))
  have h17 : (s.setX 17 (load64 s.mem ((guestOf s).regs rsp))).x 17 =
      load64 s.mem ((guestOf s).regs rsp) := by
    rw [setX_x s _ (by decide), Function.update_self]
  have h30 := setX_x_of_ne s (load64 s.mem ((guestOf s).regs rsp)) (show (30 : Reg) ≠ 17 by decide)
  generalize s.setX 17 (load64 s.mem ((guestOf s).regs rsp)) = t at hldr hg h17 h30
  have hadd := execSeq_addRsp t
  rw [hg] at hadd
  refine ⟨t.setX (hostReg rsp) ((guestOf s).regs rsp + 8),
    (execSeq_append [.ldr 17 4 0] [.addSubImm false false 4 4 8] s).trans ?_, ?_, ?_, ?_⟩
  · rw [hldr, Option.bind_some, hadd]
  · rw [guestOf_setX_hostReg, hg]
  · rw [setX_hostReg_17, h17]
    rfl
  · rw [setX_hostReg_30, h30]

/-- **The linked terminator** returns to the dispatcher with the next guest PC
in `x17`. -/
theorem returns_termInsns {ws : List Word} {n : Nat} {i : OryxGinsn} {op : GuestOp}
    (s : A64.State) (h : CodeAt ws n (termInsns cfg i op)) (hop : i.opcode = some op)
    (hterm : op.isTerminator = true) (h17 : s.x 17 = oryxHaltPc)
    (hcc : op = .br → (gccCond i.cc).isSome = true) :
    ∃ s', Returns ws n s (s.x 30) s' ∧ guestOf s' = x86Exec i op (guestOf s) ∧
      s'.x 17 = x86NextPc cfg.guestPc cfg.guestLen i (guestOf s) := by
  have hx17 : ∀ (u : A64.State) pc, (u.setX 17 pc).x 17 = pc := fun u pc => by
    rw [setX_x u pc (by decide), Function.update_self]
  cases op with
  | br =>
    -- the fall-through stub is the next word, the taken one six words on
    obtain ⟨w, hw, hd⟩ := h.head
    have hft := h.tail.left
    have htk := h.tail.right
    have hcond := (condHolds_armCond (hcc rfl) s.flags).1
    rw [x86NextPc, hop]
    cases hb : gccHolds i.cc (guestOf s).flags with
    | true =>
      refine ⟨s.setX 17 i.target, ?_, guestOf_setX_17 s _, hx17 s _⟩
      apply Returns.bcond hw hd (taken_word n)
      rw [hcond, show guestFlags s.flags = (guestOf s).flags from rfl, hb, if_pos rfl]
      exact returns_setpc s htk
    | false =>
      refine ⟨s.setX 17 (cfg.guestPc + cfg.guestLen.setWidth 64), ?_, guestOf_setX_17 s _, hx17 s _⟩
      apply Returns.bcond hw hd (taken_word n)
      rw [hcond, show guestFlags s.flags = (guestOf s).flags from rfl, hb,
        if_neg Bool.false_ne_true]
      exact returns_setpc s hft
  | jmp =>
    obtain ⟨w, hw, hd⟩ := h.head
    refine ⟨s.setX 17 i.target, ?_, guestOf_setX_17 s _, ?_⟩
    · exact Returns.b hw hd (next_word n) (returns_setpc s h.tail)
    · rw [hx17, x86NextPc, hop]
  | call =>
    obtain ⟨u, hu, hg, -, h30⟩ := runsTo_callInsns s i
    obtain ⟨w, hw, hd⟩ := h.right.head
    refine ⟨u.setX 17 i.target, ?_, ?_, ?_⟩
    · apply Returns.straight h.left hu
      rw [← h30]
      exact Returns.b hw hd (next_word _) (returns_setpc u h.right.tail)
    · rw [guestOf_setX_17, hg]
    · rw [hx17, x86NextPc, hop]
  | x86ret =>
    -- `x17` has the popped PC before the RET
    obtain ⟨u, hu, hg, hpc, h30⟩ := execSeq_x86retInsns s
    have h : CodeAt ws n ([.ldr 17 4 0, .addSubImm false false 4 4 8] ++ [.ret 30]) := h
    obtain ⟨w, hw, hd⟩ := h.right.head
    refine ⟨u, Returns.straight h.left hu ?_, hg, ?_⟩
    · rw [← h30, ← getX_of_ne u (by decide)]
      exact Returns.ret hw hd
    · rw [hpc, x86NextPc, hop]
  | ret =>
    obtain ⟨w, hw, hd⟩ := h.head
    refine ⟨s, ?_, rfl, ?_⟩
    · have hret := Returns.ret (s := s) hw hd
      rwa [getX_of_ne s (by decide)] at hret
    · -- RET leaves `x17` at the halt PC it was entered with
      rw [h17, x86NextPc, hop]
  | _ => cases hterm

/-! ### Running the block -/

variable {ws : List Word}

/-- **A linked block returns** with the guest state its emitted ops make and the
next guest PC in `x17`. -/
theorem LinkedBlock.returns (h : LinkedBlock cfg ops ws body last op)
    (hcc : op = .br → (gccCond last.cc).isSome = true) (s : A64.State)
    (h17 : s.x 17 = oryxHaltPc) :
    ∃ s', Returns ws 0 s (s.x 30) s' ∧
      guestOf s' = x86Exec last op (emittedRun body (guestOf s)) ∧
      s'.x 17 = x86NextPc cfg.guestPc cfg.guestLen last (emittedRun body (guestOf s)) := by
  obtain ⟨u, hu, hg, h17u, h30u⟩ := runsTo_blockInsns h.body_ok s
  have hcode := codeAt_of_decodes h.decodes
  obtain ⟨s', hret, hs', hpc⟩ :=
    returns_termInsns u hcode.right h.last_op h.terminates (h17u.trans h17) hcc
  rw [hg] at hs' hpc
  rw [h30u] at hret
  exact ⟨s', Returns.straight hcode.left hu hret, hs', hpc⟩

/-- The instructions of the first ops of a block start with those of its body. -/
theorem LinkedBlock.opStart_eq (h : LinkedBlock cfg ops ws body last op) {k : Nat}
    (hk : k ≤ body.length) :
    ops.take k = body.take k ∧ opStart cfg ops k = (blockInsns cfg (body.take k)).length := by
  have htake : ops.take k = body.take k := by
    rw [h.ops_eq, List.take_append_of_le_length hk]
  refine ⟨htake, ?_⟩
  rw [opStart, htake]
  exact length_flatMap_opWords fun i hi => h.body_words i (List.mem_of_mem_take hi)

/-- **After the first `k` ops** the machine is where these ops lead. -/
theorem LinkedBlock.prefix (h : LinkedBlock cfg ops ws body last op) {k : Nat}
    (hk : k ≤ body.length) (s : A64.State) :
    ∃ u, iterate ws (opStart cfg ops k) 0 s = some (opStart cfg ops k, u) ∧
      guestOf u = emittedRun (ops.take k) (guestOf s) := by
  obtain ⟨htake, hstart⟩ := h.opStart_eq hk
  have hprefix : ∀ i ∈ body.take k, BodyOp cfg i := fun i hi =>
    h.body_ok i (List.mem_of_mem_take hi)
  obtain ⟨u, hu, hg, -, -⟩ := runsTo_blockInsns hprefix s
  have hcode : CodeAt ws 0 (blockInsns cfg (body.take k)) := by
    have hsplit : blockInsns cfg body =
        blockInsns cfg (body.take k) ++ blockInsns cfg (body.drop k) := by
      rw [blockInsns, blockInsns, blockInsns, ← List.flatMap_append, List.take_append_drop]
    have hall := codeAt_of_decodes h.decodes
    rw [hsplit, List.append_assoc] at hall
    exact hall.left
  have hit := iterate_straight hcode hu
  rw [Nat.zero_add, ← hstart] at hit
  exact ⟨u, hit, by rw [hg, htake]⟩

end Linked

end Oryx
