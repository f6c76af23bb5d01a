/-
Oryx/SharedMemory.lean

Translated threads on a weakly ordered host.

Each thread runs translated blocks one after the other, with code of the
dispatcher behind each.  What the host keeps of the order of a thread are the
ordering edges of its instruction stream (`hostOrder`), at any distance and
across the blocks; beyond that it may do anything a multi-copy-atomic machine
can, as `Execution.AllowedBy` says.

When only ordered ops communicate between threads, every execution that the
host allows is one that x86-TSO allows (`translated_tso`), and under the SC
strength it is sequentially consistent (`translated_sc`).  Blocks with LOCK
ops are left out, since an atomic is both a read and a write.
-/
import Oryx.Lib.Consistency
import Oryx.LockedOps

namespace Oryx

open A64 StreamOrder Consistency Relation

/-! ### Threads -/

/-- A run of a translated block without LOCK ops, and of the host's own code behind it. -/
structure BlockOnHost where
  cfg : TransCfg
  ops : List OryxGinsn
  profileId : U32
  tu : OryxTu
  stats : OryxMmStats
  /-- what the code of the unit decodes to -/
  insns : List Insn
  /-- what the host runs before the next block -/
  behind : List Insn
  translated : oryxTranslateEx ops cfg profileId = .ok (tu, stats)
  decodes : DecodesTo (codeWords tu) insns
  lockFree : ∀ i ∈ ops, i.opcode ≠ some .atomicAdd ∧ i.opcode ≠ some .atomicCas

/-- The instruction stream of a thread. -/
def threadInsns (run : List BlockOnHost) : List Insn := run.flatMap fun b => b.insns ++ b.behind

/-- The position of the first instruction of block `n`. -/
def blockStart (run : List BlockOnHost) (n : Nat) : Nat := (threadInsns (run.take n)).length

section Thread

variable {run : List BlockOnHost} {n : Nat} {b : BlockOnHost}

theorem BlockOnHost.insns_eq (b : BlockOnHost) : b.insns = blockInsns b.cfg b.ops :=
  b.decodes.unique (translated_stream b.translated).2.2

theorem BlockOnHost.opWords_decode (b : BlockOnHost) :
    ∀ i ∈ b.ops, DecodesTo (opWords b.cfg i) (insnsOf b.cfg i) :=
  (translated_stream b.translated).2.1

/-- The stream around block `n`. -/
theorem threadInsns_split (h : run[n]? = some b) :
    (∃ rest, threadInsns run = threadInsns (run.take n) ++ (b.insns ++ rest)) ∧
      blockStart run (n + 1) = blockStart run n + (b.insns ++ b.behind).length := by
  obtain ⟨hlt, hb⟩ := List.getElem?_eq_some_iff.mp h
  have hrun : run = run.take n ++ b :: run.drop (n + 1) := by
    rw [← hb, List.getElem_cons_drop hlt, List.take_append_drop]
  constructor
  · refine ⟨b.behind ++ threadInsns (run.drop (n + 1)), ?_⟩
    conv_lhs => rw [hrun]
    rw [threadInsns, List.flatMap_append, List.flatMap_cons, List.append_assoc]
    rfl
  · rw [blockStart, List.take_add_one, h, threadInsns, List.flatMap_append, List.length_append,
      Option.toList_some, List.flatMap_singleton]
    rfl

/-- The instructions of block `n` stand in the stream from `blockStart n` on. -/
theorem embeds_block (h : run[n]? = some b) {m : Nat} {a : Insn} (ha : b.insns[m]? = some a) :
    (threadInsns run)[blockStart run n + m]? = some a := by
  obtain ⟨⟨rest, hsplit⟩, -⟩ := threadInsns_split h
  have hlt := (List.getElem?_eq_some_iff.mp ha).1
  rw [hsplit, blockStart, List.getElem?_append_right (Nat.le_add_right _ m),
    Nat.add_sub_cancel_left, List.getElem?_append_left hlt, ha]

theorem blockStart_mono (run : List BlockOnHost) : Monotone (blockStart run) := by
  refine monotone_nat_of_le_succ fun n => ?_
  rw [blockStart, blockStart, List.take_add_one, threadInsns, threadInsns, List.flatMap_append,
    List.length_append]
  exact Nat.le_add_right _ _

/-- A position of block `n` comes before every later block. -/
theorem blockStart_add_lt (h : run[n]? = some b) {m n' : Nat} (hm : m < b.insns.length)
    (hn : n < n') : blockStart run n + m < blockStart run n' := by
  have hmono := blockStart_mono run (Nat.succ_le_of_lt hn)
  have hnext := (threadInsns_split h).2
  rw [List.length_append] at hnext
  rw [Nat.succ_eq_add_one] at hmono
  omega

end Thread

/-! ### Memory events -/

variable {T : Type*} {prog : T → List BlockOnHost}

/-- The opcodes that write memory, among those without a LOCK prefix. -/
def GuestOp.writes : GuestOp → Bool
  | .store | .push | .call => true
  | _ => false

/-- A run of a memory op: op `opNo` of the block `blockNo` of a thread. -/
structure MemEvent (prog : T → List BlockOnHost) where
  thread : T
  blockNo : Nat
  opNo : Nat
  block : BlockOnHost
  insn : OryxGinsn
  gop : GuestOp
  block_eq : (prog thread)[blockNo]? = some block
  insn_eq : block.ops[opNo]? = some insn
  gop_eq : insn.opcode = some gop
  accesses : gop.accesses = true

/-- Op `k` of block `n` comes before op `k'` of block `n'`. -/
def PlaceBefore (n k n' k' : Nat) : Prop := n < n' ∨ n = n' ∧ k < k'

theorem PlaceBefore.trans {n k n' k' n'' k'' : Nat} (h : PlaceBefore n k n' k')
    (h' : PlaceBefore n' k' n'' k'') : PlaceBefore n k n'' k'' := by
  unfold PlaceBefore at *
  omega

namespace MemEvent

/-- Program order. -/
def Before (a b : MemEvent prog) : Prop :=
  a.thread = b.thread ∧ PlaceBefore a.blockNo a.opNo b.blockNo b.opNo

/-- The op is a LOAD or STORE that is ordered. -/
def Shared (e : MemEvent prog) : Prop :=
  OrderedOp e.block.cfg .load e.insn ∨ OrderedOp e.block.cfg .store e.insn

/-- A full `GOP_FENCE` stands between the two. -/
def Fenced (a b : MemEvent prog) : Prop :=
  a.thread = b.thread ∧ ∃ n k block i, (prog a.thread)[n]? = some block ∧
    block.ops[k]? = some i ∧ i.opcode = some .fence ∧ i.cc = fenceFull ∧
    PlaceBefore a.blockNo a.opNo n k ∧ PlaceBefore n k b.blockNo b.opNo

/-- Where the access of the op stands in the stream of its block, -/
def access (e : MemEvent prog) : Nat :=
  opStart e.block.cfg e.block.ops e.opNo +
    (insnsOf e.block.cfg e.insn).findIdx Insn.isAccess

/-- and in the stream of its thread. -/
def pos (e : MemEvent prog) : Nat := blockStart (prog e.thread) e.blockNo + e.access

theorem access_spec (e : MemEvent prog) :
    OfOp e.block.cfg e.block.ops e.opNo e.access ∧
      AccessAt (blockInsns e.block.cfg e.block.ops) e.access := by
  have hdec := e.block.opWords_decode
  have hins : insnsOf e.block.cfg e.insn = opInsns e.block.cfg e.insn e.gop := by
    rw [insnsOf, e.gop_eq]
  obtain ⟨a, ha, hacc⟩ := @exists_access_opInsns e.block.cfg e.insn e.gop e.accesses
  rw [← hins] at ha
  have hlt : (insnsOf e.block.cfg e.insn).findIdx Insn.isAccess <
      (insnsOf e.block.cfg e.insn).length := List.findIdx_lt_length_of_exists ⟨a, ha, hacc⟩
  constructor
  · refine ⟨Nat.le_add_right _ _, ?_⟩
    rw [(stream_split hdec e.insn_eq).2, access]
    omega
  · exact ⟨_, embeds_ofOp hdec e.insn_eq _ _ (List.getElem?_eq_getElem hlt),
      List.findIdx_getElem⟩

theorem access_lt (e : MemEvent prog) : e.access < e.block.insns.length := by
  obtain ⟨-, a, ha, -⟩ := e.access_spec
  rw [e.block.insns_eq]
  exact (List.getElem?_eq_some_iff.mp ha).1

/-- What stands in the stream of the block stands in the one of the thread. -/
theorem embeds (e : MemEvent prog) {m : Nat} {a : Insn}
    (h : (blockInsns e.block.cfg e.block.ops)[m]? = some a) :
    (threadInsns (prog e.thread))[blockStart (prog e.thread) e.blockNo + m]? = some a := by
  rw [← e.block.insns_eq] at h
  exact embeds_block e.block_eq h

theorem accessAt_pos (e : MemEvent prog) : AccessAt (threadInsns (prog e.thread)) e.pos := by
  obtain ⟨-, a, ha, hacc⟩ := e.access_spec
  exact ⟨a, e.embeds ha, hacc⟩

/-- Program order is the order of the positions. -/
theorem Before.pos_lt {a b : MemEvent prog} (h : a.Before b) : a.pos < b.pos := by
  obtain ⟨ht, hplace⟩ := h
  unfold pos
  rw [← ht]
  rcases hplace with hblock | ⟨hblock, hop⟩
  · have hlt := blockStart_add_lt a.block_eq a.access_lt hblock
    omega
  · have hb := b.block_eq
    rw [← ht, ← hblock, a.block_eq, Option.some.injEq] at hb
    have hstart := (a.access_spec.1).of_lt hop
    have hge := b.access_spec.1.1
    rw [← hb] at hge
    rw [← hblock]
    omega

end MemEvent

/-- The order the host keeps within a thread: the ordering edges of its stream. -/
def hostOrder (prog : T → List BlockOnHost) (a b : MemEvent prog) : Prop :=
  a.thread = b.thread ∧ Ordered baseRules (threadInsns (prog a.thread)) a.pos b.pos

/-! ### The order of shared events -/

namespace MemEvent

variable {a b : MemEvent prog}

/-- A shared event in the stream of its thread: an access in ordered form. -/
theorem ordered_form (e : MemEvent prog) {op : GuestOp}
    (h : OrderedOp e.block.cfg op e.insn) (hop : op = .load ∨ op = .store) :
    ∃ o j i, e.pos = o + j ∧ (insnsOf e.block.cfg e.insn)[j]? = some i ∧
      (∀ m x, (insnsOf e.block.cfg e.insn)[m]? = some x →
        (threadInsns (prog e.thread))[o + m]? = some x) ∧
      OrderedForm e.block.cfg.strength (insnsOf e.block.cfg e.insn) j i ∧
      (op = .load → i.isLoad = true) ∧ (op = .store → i.isStore = true) := by
  obtain ⟨hof, hacc⟩ := e.access_spec
  obtain ⟨j, i, hpos, hj, hform, hload, hstore⟩ :=
    orderedOp_access e.block.opWords_decode e.insn_eq h hop hof hacc
  refine ⟨blockStart (prog e.thread) e.blockNo + opStart e.block.cfg e.block.ops e.opNo, j, i,
    ?_, hj, fun m x hm => ?_, hform, hload, hstore⟩
  · rw [pos, hpos, Nat.add_assoc]
  · rw [Nat.add_assoc]
    exact e.embeds (embeds_ofOp e.block.opWords_decode e.insn_eq m x hm)

theorem writes_of_store {e : MemEvent prog} (h : OrderedOp e.block.cfg .store e.insn) :
    e.gop.writes = true := by
  rw [Option.some.inj (e.gop_eq.symm.trans h.1)]
  rfl

theorem writes_of_load {e : MemEvent prog} (h : OrderedOp e.block.cfg .load e.insn) :
    e.gop.writes = false := by
  rw [Option.some.inj (e.gop_eq.symm.trans h.1)]
  rfl

/-- A shared read is a LOAD, a shared write a STORE. -/
theorem Shared.load (h : a.Shared) (hread : a.gop.writes = false) :
    OrderedOp a.block.cfg .load a.insn := by
  rcases h with h | h
  · exact h
  · rw [writes_of_store h] at hread
    cases hread

theorem Shared.store (h : a.Shared) (hwrite : a.gop.writes = true) :
    OrderedOp a.block.cfg .store a.insn := by
  rcases h with h | h
  · rw [writes_of_load h] at hwrite
    cases hwrite
  · exact h

/-- A shared read is kept before every later event. -/
theorem hostOrder_of_load (h : OrderedOp a.block.cfg .load a.insn) (hab : a.Before b) :
    hostOrder prog a b := by
  refine ⟨hab.1, ?_⟩
  have hlt := hab.pos_lt
  obtain ⟨o, j, i, hpos, hj, hemb, hform, hload, -⟩ := a.ordered_form h (Or.inl rfl)
  rw [hpos] at hlt ⊢
  refine orderedForm_load hemb hj (hload rfl) hform hlt ?_
  rw [hab.1]
  exact b.accessAt_pos

/-- A shared write is kept behind every earlier shared write. -/
theorem hostOrder_of_stores (ha : OrderedOp a.block.cfg .store a.insn)
    (hb : OrderedOp b.block.cfg .store b.insn) (hab : a.Before b) : hostOrder prog a b := by
  refine ⟨hab.1, ?_⟩
  have hlt := hab.pos_lt
  obtain ⟨o, j, i, hpos, hj, hemb, hform, -, hstore⟩ := b.ordered_form hb (Or.inr rfl)
  obtain ⟨oa, ja, ia, hposa, hja, hemba, -, -, hstorea⟩ := a.ordered_form ha (Or.inr rfl)
  rw [← hab.1] at hemb
  rw [hpos] at hlt ⊢
  refine orderedForm_store hemb hj (hstore rfl) hform hlt ⟨ia, ?_, hstorea rfl⟩
  rw [hposa]
  exact hemba ja ia hja

/-- Under SC a shared write is kept before every later shared read. -/
theorem hostOrder_of_sc (hsa : a.block.cfg.strength = .sc) (hsb : b.block.cfg.strength = .sc)
    (ha : OrderedOp a.block.cfg .store a.insn) (hb : OrderedOp b.block.cfg .load b.insn)
    (hab : a.Before b) : hostOrder prog a b := by
  refine ⟨hab.1, ?_⟩
  have hlt := hab.pos_lt
  obtain ⟨oa, ja, ia, hposa, hja, hemba, hforma, -, hstore⟩ := a.ordered_form ha (Or.inr rfl)
  obtain ⟨o, j, i, hpos, hj, hemb, hform, hload, -⟩ := b.ordered_form hb (Or.inl rfl)
  rw [← hab.1] at hemb
  rw [hsa] at hforma
  rw [hsb] at hform
  rw [hposa, hpos] at hlt ⊢
  exact ordered_of_pair (hemba ja ia hja) (hemb j i hj) hlt
    (pairs_of_sc rfl hforma (hstore rfl) hform (hload rfl))

/-- A full fence keeps everything before it before everything behind it. -/
theorem Fenced.hostOrder (h : a.Fenced b) : hostOrder prog a b := by
  obtain ⟨ht, n, k, block, i, hblock, hi, hop, hcc, hbefore, hafter⟩ := h
  refine ⟨ht, ?_⟩
  have hins : insnsOf block.cfg i = [.dmb .ish] := by
    rw [insnsOf, hop]
    show [Insn.dmb (fenceBarrier i.cc)] = _
    rw [hcc]
    rfl
  obtain ⟨hget, hpos⟩ := single_ofOp block.opWords_decode hi hins
  have hof := (hpos _).mpr rfl
  have hlen := (List.getElem?_eq_some_iff.mp hget).1
  rw [← block.insns_eq] at hlen
  have hm : (threadInsns (prog a.thread))[blockStart (prog a.thread) n +
      opStart block.cfg block.ops k]? = some (.dmb .ish) :=
    embeds_block hblock (by rw [block.insns_eq]; exact hget)
  obtain ⟨ia, hia, hacca⟩ := a.accessAt_pos
  obtain ⟨ib, hib, haccb⟩ := b.accessAt_pos
  rw [← ht] at hib
  refine ordered_of_fence hia hm hib ?_ ?_ ?_
  · -- before the fence
    unfold pos
    rcases hbefore with hlt | ⟨rfl, hlt⟩
    · have := blockStart_add_lt a.block_eq a.access_lt hlt
      omega
    · cases a.block_eq.symm.trans hblock
      have := a.access_spec.1.of_lt hlt
      omega
  · unfold pos
    rw [← ht]
    rcases hafter with hlt | ⟨rfl, hlt⟩
    · have := blockStart_add_lt hblock hlen hlt
      omega
    · have hb := b.block_eq
      rw [← ht, hblock, Option.some.injEq] at hb
      have hend := hof.of_lt hlt
      have hge := b.access_spec.1.1
      rw [← hb] at hge
      omega
  · show (ia.isAccess && ib.isAccess) = true
    rw [hacca, haccb]
    rfl

end MemEvent

/-! ### Executions of the threads -/

/-- An execution of the memory ops of the threads, in their order. -/
structure ThreadsExecution (prog : T → List BlockOnHost) extends
    Execution (MemEvent prog) T U64 where
  thread_eq : ∀ e, thread e = e.thread
  po_iff : ∀ a b, po a b ↔ a.Before b
  isWrite_eq : ∀ e, isWrite e = e.gop.writes

variable {x : ThreadsExecution prog}

/-- The host keeps the order of TSO between shared events. -/
theorem hostOrder_of_ppo {a b : MemEvent prog} (h : x.ppo a b) (ha : a.Shared) (hb : b.Shared) :
    hostOrder prog a b := by
  obtain ⟨hpo, hkind⟩ := h
  rw [x.po_iff] at hpo
  rw [x.isWrite_eq, x.isWrite_eq] at hkind
  cases hread : a.gop.writes with
  | false => exact MemEvent.hostOrder_of_load (ha.load hread) hpo
  | true =>
    rcases hkind with hkind | hwrite
    · rw [hread] at hkind
      cases hkind
    · exact MemEvent.hostOrder_of_stores (ha.store hread) (hb.store hwrite) hpo

theorem fencing_fenced (x : ThreadsExecution prog) : x.Fencing MemEvent.Fenced where
  po a b h := by
    obtain ⟨ht, n, k, _, _, -, -, -, -, hbefore, hafter⟩ := h
    rw [x.po_iff]
    exact ⟨ht, hbefore.trans hafter⟩
  before a b c hab hbc := by
    rw [x.po_iff] at hab
    obtain ⟨ht, n, k, block, i, hblock, hi, hop, hcc, hbefore, hafter⟩ := hbc
    rw [← hab.1] at hblock
    exact ⟨hab.1.trans ht, n, k, block, i, hblock, hi, hop, hcc, hab.2.trans hbefore, hafter⟩
  after a b c hab hbc := by
    rw [x.po_iff] at hbc
    obtain ⟨ht, n, k, block, i, hblock, hi, hop, hcc, hbefore, hafter⟩ := hab
    exact ⟨ht.trans hbc.1, n, k, block, i, hblock, hi, hop, hcc, hbefore, hafter.trans hbc.2⟩

/-- **Translated threads are TSO**, without LOCK ops: when only ordered ops communicate between
threads, every execution the host allows is one of x86-TSO. -/
theorem translated_tso (hallowed : x.AllowedBy (hostOrder prog))
    (hshared : ∀ a b, x.obs a b → a.Shared ∧ b.Shared) : x.Tso MemEvent.Fenced := by
  apply hallowed.tso (fencing_fenced x) hshared
  · exact fun a b hab ha hb => .single (hostOrder_of_ppo hab ha hb)
  · exact fun a b hab _ _ => .single hab.hostOrder

/-- **And under the SC strength sequentially consistent.** -/
theorem translated_sc (hsc : ∀ t, ∀ b ∈ prog t, b.cfg.strength = .sc)
    (hallowed : x.AllowedBy (hostOrder prog))
    (hshared : ∀ a b, x.obs a b → a.Shared ∧ b.Shared) : x.Sc := by
  apply hallowed.sc hshared
  intro a b hab ha hb
  apply TransGen.single
  have hbefore := (x.po_iff a b).mp hab
  by_cases hkind : a.gop.writes = false ∨ b.gop.writes = true
  · rw [← x.isWrite_eq, ← x.isWrite_eq] at hkind
    exact hostOrder_of_ppo ⟨hab, hkind⟩ ha hb
  · -- a write before a read
    rw [not_or, Bool.not_eq_false, Bool.not_eq_true] at hkind
    exact MemEvent.hostOrder_of_sc (hsc _ _ (List.mem_of_getElem? a.block_eq))
      (hsc _ _ (List.mem_of_getElem? b.block_eq)) (ha.store hkind.1) (hb.load hkind.2) hbefore

/-! ### One thread writes, another reads -/

/-- The place of an event tells the event. -/
theorem MemEvent.ext_place {a b : MemEvent prog} (ht : a.thread = b.thread)
    (hn : a.blockNo = b.blockNo) (hk : a.opNo = b.opNo) : a = b := by
  obtain ⟨t, n, k, block, i, g, hblock, hi, hg, hacc⟩ := a
  obtain ⟨t', n', k', block', i', g', hblock', hi', hg', hacc'⟩ := b
  cases ht
  cases hn
  cases hk
  cases hblock.symm.trans hblock'
  cases hi.symm.trans hi'
  cases hg.symm.trans hg'
  rfl

/-- A shared STORE or LOAD, then `ret`. -/
def messageOps (writer : Bool) : List OryxGinsn :=
  [{ ginsn (if writer then .store else .load) 0 3 0 with mclass := mclassShared },
    ginsn .ret 0 0 0]

theorem exists_messageBlock (strength : OrderStrength) (writer : Bool) :
    ∃ b : BlockOnHost, b.cfg = blockCfg .drf strength ∧ b.ops = messageOps writer := by
  have htrans : ∃ tu st,
      oryxTranslateEx (messageOps writer) (blockCfg .drf strength) 0 = .ok (tu, st) := by
    cases strength <;> cases writer <;> exact ⟨_, _, rfl⟩
  obtain ⟨tu, st, htrans⟩ := htrans
  refine ⟨⟨_, _, 0, tu, st, _, [], htrans, (translated_stream htrans).2.2, ?_⟩, rfl, rfl⟩
  intro i hi
  rcases List.mem_cons.mp hi with rfl | hi
  · cases writer <;> exact ⟨by decide, by decide⟩
  · rw [List.mem_singleton.mp hi]
    exact ⟨by decide, by decide⟩

section Message

variable {strength : OrderStrength} {msg : Bool → List BlockOnHost}

/-- Each thread runs its message block. -/
def IsMessage (strength : OrderStrength) (msg : Bool → List BlockOnHost) : Prop :=
  ∀ t, ∃ b, msg t = [b] ∧ b.cfg = blockCfg .drf strength ∧ b.ops = messageOps t

theorem exists_isMessage (strength : OrderStrength) : ∃ msg, IsMessage strength msg := by
  choose b hb using exists_messageBlock strength
  exact ⟨fun t => [b t], fun t => ⟨b t, rfl, hb t⟩⟩

/-- The only event of a thread. -/
theorem message_event (h : IsMessage strength msg) (e : MemEvent msg) :
    e.blockNo = 0 ∧ e.opNo = 0 ∧ e.gop.writes = e.thread ∧ e.Shared := by
  obtain ⟨b, hb, hcfg, hops⟩ := h e.thread
  have hblock := e.block_eq
  rw [hb, List.getElem?_singleton] at hblock
  split at hblock
  · next hn =>
    cases hblock
    have hinsn := e.insn_eq
    have hgop := e.gop_eq
    have hacc := e.accesses
    rw [hops, messageOps] at hinsn
    match hk : e.opNo, hinsn with
    | 0, hinsn =>
      rw [List.getElem?_cons_zero, Option.some.injEq] at hinsn
      have hshared : e.insn.mclass = mclassShared := by rw [← hinsn]
      rw [← hinsn] at hgop
      unfold MemEvent.Shared OrderedOp
      cases ht : e.thread with
      | true =>
        rw [ht] at hgop hinsn
        rw [← Option.some.inj hgop, ← hinsn]
        exact ⟨hn, rfl, rfl, Or.inr ⟨rfl, Or.inr rfl⟩⟩
      | false =>
        rw [ht] at hgop hinsn
        rw [← Option.some.inj hgop, ← hinsn]
        exact ⟨hn, rfl, rfl, Or.inl ⟨rfl, Or.inr rfl⟩⟩
    | 1, hinsn =>
      rw [List.getElem?_cons_succ, List.getElem?_cons_zero, Option.some.injEq] at hinsn
      rw [← hinsn] at hgop
      rw [← Option.some.inj hgop] at hacc
      cases hacc
    | k + 2, hinsn =>
      rw [List.getElem?_cons_succ, List.getElem?_cons_succ, List.getElem?_nil] at hinsn
      cases hinsn
  · cases hblock

theorem message_event_eq (h : IsMessage strength msg) {a b : MemEvent msg}
    (ht : a.thread = b.thread) : a = b := by
  obtain ⟨hna, hka, -⟩ := message_event h a
  obtain ⟨hnb, hkb, -⟩ := message_event h b
  exact MemEvent.ext_place ht (hna.trans hnb.symm) (hka.trans hkb.symm)

theorem exists_message_event (h : IsMessage strength msg) (t : Bool) :
    ∃ e : MemEvent msg, e.thread = t := by
  obtain ⟨b, hb, -, hops⟩ := h t
  refine ⟨⟨t, 0, 0, b, _, if t then .store else .load, by rw [hb]; rfl, by rw [hops]; rfl, ?_, ?_⟩,
    rfl⟩
  · cases t <;> rfl
  · cases t <;> rfl

/-- The reader sees the write. -/
def messageExecution (h : IsMessage strength msg) : ThreadsExecution msg where
  thread e := e.thread
  loc _ := 0
  isWrite e := e.gop.writes
  po := MemEvent.Before
  rf w r := w.thread = true ∧ r.thread = false
  co _ _ := False
  po_thread _ _ hab := hab.1
  po_trans _ _ _ hab hbc := ⟨hab.1.trans hbc.1, hab.2.trans hbc.2⟩
  po_irrefl _ h := Nat.lt_irrefl _ h.pos_lt
  po_total _ _ ht hne := absurd (message_event_eq h ht) hne
  rf_ends w r hrf := by
    rw [(message_event h w).2.2.1, (message_event h r).2.2.1]
    exact ⟨hrf.1, hrf.2, rfl⟩
  rf_unique _ _ _ hw hw' := message_event_eq h (hw.1.trans hw'.1.symm)
  co_ends _ _ h := h.elim
  co_trans _ _ _ h _ := h.elim
  co_irrefl _ h := h
  co_total w w' hw hw' _ hne := by
    rw [(message_event h w).2.2.1] at hw
    rw [(message_event h w').2.2.1] at hw'
    exact absurd (message_event_eq h (hw.trans hw'.symm)) hne
  thread_eq _ := rfl
  po_iff _ _ := Iff.rfl
  isWrite_eq _ := rfl

theorem message_com (h : IsMessage strength msg) {a b : MemEvent msg}
    (hab : (messageExecution h).com a b) : a.thread = true ∧ b.thread = false := by
  rcases hab with hrf | hco | hfr
  · exact hrf
  · exact hco.elim
  · -- the read does not see the initial value
    obtain ⟨w, hw⟩ := exists_message_event h true
    have hread : a.gop.writes = false := hfr.1
    rw [(message_event h a).2.2.1] at hread
    exact (hfr.2.2.2 w ⟨hw, hread⟩).elim

/-- Edges that lead from the writer to the reader make no cycle. -/
theorem acyclic_of_message {r : MemEvent msg → MemEvent msg → Prop}
    (h : ∀ a b, r a b → a.thread = true ∧ b.thread = false) : Acyclic r := by
  have hpath : ∀ a b, TransGen r a b → a.thread = true ∧ b.thread = false := by
    intro a b hab
    induction hab with
    | single hab => exact h _ _ hab
    | tail _ hbc ih => exact ⟨ih.1, (h _ _ hbc).2⟩
  intro e he
  obtain ⟨htrue, hfalse⟩ := hpath e e he
  rw [htrue] at hfalse
  cases hfalse

theorem message_allowed (h : IsMessage strength msg) :
    (messageExecution h).AllowedBy (hostOrder msg) := by
  have hpo : ∀ {a b : MemEvent msg}, a.thread = b.thread → a.pos < b.pos → False := by
    intro a b ht hlt
    rw [message_event_eq h ht] at hlt
    exact Nat.lt_irrefl _ hlt
  constructor
  · apply acyclic_of_message
    rintro a b (⟨hab, -⟩ | hab)
    · exact (hpo hab.1 (MemEvent.Before.pos_lt hab)).elim
    · exact message_com h hab
  · apply acyclic_of_message
    rintro a b (⟨ht, hord⟩ | hab)
    · exact (hpo ht hord.lt).elim
    · exact message_com h hab.1

end Message

theorem translated_tso_message :
    ∃ msg, ∃ h : IsMessage .rcpc msg, (messageExecution h).Tso MemEvent.Fenced := by
  obtain ⟨msg, h⟩ := exists_isMessage .rcpc
  refine ⟨msg, h, translated_tso (message_allowed h) fun a b _ => ?_⟩
  exact ⟨(message_event h a).2.2.2, (message_event h b).2.2.2⟩

theorem translated_sc_message :
    ∃ msg, ∃ h : IsMessage .sc msg, (messageExecution h).Sc := by
  obtain ⟨msg, h⟩ := exists_isMessage .sc
  refine ⟨msg, h, translated_sc (fun t b hb => ?_) (message_allowed h) fun a b _ => ?_⟩
  · obtain ⟨b', hb', hcfg, -⟩ := h t
    rw [hb', List.mem_singleton] at hb
    rw [hb, hcfg]
    rfl
  · exact ⟨(message_event h a).2.2.2, (message_event h b).2.2.2⟩

end Oryx
