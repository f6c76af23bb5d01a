/-
Oryx/Lib/Consistency.lean

Executions of multi-threaded programs as graphs, and the memory models that
allow them.

The nodes of an `Execution` are its reads and writes, the edges program
order, reads-from and coherence.  A model says which graphs are allowed: each
asks that every location alone looks sequential (`Uniproc`), and that no cycle
runs through the edges it keeps.  Those are all edges for sequential
consistency (`Sc`), all but the ones from a write to a later read for `Tso`,
and for a machine that keeps an order of its own, that order and the
communication between threads (`AllowedBy`).

The main lemma is `acyclic_of_shared`: when threads communicate at shared
events only, a local order may be replaced by any other that orders the
shared events as it does.  `AllowedBy.tso` and `AllowedBy.sc` follow.
-/
import Mathlib.Logic.Relation

namespace Oryx.Consistency

open Relation

/-! ### Cycles -/

section Cycles

variable {E : Type*} {r s l ob obs : E → E → Prop} {S : E → Prop} {a b : E}

def Acyclic (r : E → E → Prop) : Prop := ∀ e, ¬ TransGen r e e

theorem Acyclic.mono (h : Acyclic s) (hrs : ∀ a b, r a b → s a b) : Acyclic r :=
  fun e he => h e (TransGen.mono hrs e e he)

/-- An edge of either relation. -/
def either (r s : E → E → Prop) (a b : E) : Prop := r a b ∨ s a b

theorem transGen_either (h : TransGen r a b) : TransGen (either r s) a b :=
  TransGen.mono (fun _ _ hr => Or.inl hr) a b h

/-- A path through local edges and `obs` edges is local, or local up to its first and from its
last shared event. -/
theorem path_cases (hobs : ∀ a b, obs a b → S a ∧ S b)
    (hl : ∀ a b, TransGen l a b → S a → S b → TransGen ob a b)
    (h : TransGen (either l obs) a b) :
    TransGen l a b ∨ ∃ u v, S u ∧ S v ∧ ReflTransGen l a u ∧
      TransGen (either ob obs) u v ∧ ReflTransGen l v b := by
  induction h with
  | @single b h =>
    rcases h with h | h
    · exact Or.inl (.single h)
    · exact Or.inr ⟨a, b, (hobs a b h).1, (hobs a b h).2, .refl, .single (Or.inr h), .refl⟩
  | @tail b c _ hbc ih =>
    rcases hbc with hbc | hbc
    · rcases ih with hab | ⟨u, v, hu, hv, hau, huv, hvb⟩
      · exact Or.inl (hab.tail hbc)
      · exact Or.inr ⟨u, v, hu, hv, hau, huv, hvb.tail hbc⟩
    · obtain ⟨hb, hc⟩ := hobs b c hbc
      rcases ih with hab | ⟨u, v, hu, hv, hau, huv, hvb⟩
      · exact Or.inr ⟨b, c, hb, hc, hab.to_reflTransGen, .single (Or.inr hbc), .refl⟩
      · refine Or.inr ⟨u, c, hu, hc, hau, ?_, .refl⟩
        -- the local stretch between two shared events
        rcases reflTransGen_iff_eq_or_transGen.mp hvb with rfl | hvb
        · exact huv.tail (Or.inr hbc)
        · exact (huv.trans (transGen_either (hl v b hvb hv hb))).tail (Or.inr hbc)

/-- **Only the order of shared events matters.** -/
theorem acyclic_of_shared (hobs : ∀ a b, obs a b → S a ∧ S b)
    (hl : ∀ a b, TransGen l a b → S a → S b → TransGen ob a b) (hlocal : Acyclic l)
    (h : Acyclic (either ob obs)) : Acyclic (either l obs) := by
  intro e he
  rcases path_cases hobs hl he with hloc | ⟨u, v, hu, hv, heu, huv, hve⟩
  · exact hlocal e hloc
  · -- the rest of the cycle leads from `v` back to `u`
    rcases reflTransGen_iff_eq_or_transGen.mp (hve.trans heu) with rfl | hvu
    · exact h _ huv
    · exact h u (huv.trans (transGen_either (hl v u hvu hv hu)))

end Cycles

/-! ### Executions -/

/-- Reads and writes of threads `T` to locations `L`.  A read that `rf` gives no write to reads
the initial value. -/
structure Execution (E T L : Type*) where
  thread : E → T
  loc : E → L
  isWrite : E → Bool
  /-- program order -/
  po : E → E → Prop
  /-- reads-from -/
  rf : E → E → Prop
  /-- coherence -/
  co : E → E → Prop
  po_thread : ∀ a b, po a b → thread a = thread b
  po_trans : ∀ a b c, po a b → po b c → po a c
  po_irrefl : ∀ a, ¬ po a a
  po_total : ∀ a b, thread a = thread b → a ≠ b → po a b ∨ po b a
  rf_ends : ∀ w r, rf w r → isWrite w = true ∧ isWrite r = false ∧ loc w = loc r
  rf_unique : ∀ w w' r, rf w r → rf w' r → w = w'
  co_ends : ∀ w w', co w w' → isWrite w = true ∧ isWrite w' = true ∧ loc w = loc w'
  co_trans : ∀ a b c, co a b → co b c → co a c
  co_irrefl : ∀ a, ¬ co a a
  co_total : ∀ w w', isWrite w = true → isWrite w' = true → loc w = loc w' → w ≠ w' →
    co w w' ∨ co w' w

namespace Execution

variable {E T L : Type*} (x : Execution E T L)

/-- From-read: the read sees a value that the write comes after. -/
def fr (r w : E) : Prop :=
  x.isWrite r = false ∧ x.isWrite w = true ∧ x.loc r = x.loc w ∧ ∀ w₀, x.rf w₀ r → x.co w₀ w

/-- Communication. -/
def com (a b : E) : Prop := x.rf a b ∨ x.co a b ∨ x.fr a b

/-- Communication between threads. -/
def obs (a b : E) : Prop := x.com a b ∧ x.thread a ≠ x.thread b

/-- Every location alone looks sequential. -/
def Uniproc : Prop := Acyclic (either (fun a b => x.po a b ∧ x.loc a = x.loc b) x.com)

/-- The program order TSO keeps: all but a write before a later read. -/
def ppo (a b : E) : Prop := x.po a b ∧ (x.isWrite a = false ∨ x.isWrite b = true)

/-- **Sequential consistency.** -/
def Sc : Prop := Acyclic (either x.po x.com)

/-- **x86-TSO**, where `fenced a b` says that a full fence stands between the two. -/
def Tso (fenced : E → E → Prop) : Prop :=
  x.Uniproc ∧ Acyclic (either (either x.ppo fenced)
    fun a b => (x.rf a b ∧ x.thread a ≠ x.thread b) ∨ x.co a b ∨ x.fr a b)

/-- A machine that keeps the order `ob` within its threads allows the execution. -/
def AllowedBy (ob : E → E → Prop) : Prop := x.Uniproc ∧ Acyclic (either ob x.obs)

variable {x} {a b c : E}

theorem com_loc (h : x.com a b) : x.loc a = x.loc b := by
  rcases h with h | h | h
  · exact (x.rf_ends a b h).2.2
  · exact (x.co_ends a b h).2.2
  · exact h.2.2.1

/-- Communication within a thread follows program order. -/
theorem Uniproc.po_of_com (hx : x.Uniproc) (h : x.com a b) (ht : x.thread a = x.thread b) :
    x.po a b := by
  have hne : a ≠ b := by
    rintro rfl
    exact hx a (.single (Or.inr h))
  rcases x.po_total a b ht hne with hab | hba
  · exact hab
  · -- against it there would be a cycle at the location
    have hback : TransGen (either (fun a b => x.po a b ∧ x.loc a = x.loc b) x.com) a a :=
      .tail (.single (Or.inr h)) (Or.inl ⟨hba, (com_loc h).symm⟩)
    exact absurd hback (hx a)

/-- An edge of communication is one of program order, or between threads. -/
theorem Uniproc.com_cases (hx : x.Uniproc) (h : x.com a b) : x.po a b ∨ x.obs a b := by
  by_cases ht : x.thread a = x.thread b
  · exact Or.inl (hx.po_of_com h ht)
  · exact Or.inr ⟨h, ht⟩

theorem transGen_po (h : TransGen x.po a b) : x.po a b := by
  induction h with
  | single h => exact h
  | tail _ h ih => exact x.po_trans _ _ _ ih h

theorem acyclic_po (x : Execution E T L) : Acyclic x.po :=
  fun e he => x.po_irrefl e (transGen_po he)

/-! ### What a machine has to keep -/

variable {ob : E → E → Prop} {S : E → Prop}

/-- **Sequentially consistent**: the machine keeps the program order of shared events, and only
shared events communicate. -/
theorem AllowedBy.sc (h : x.AllowedBy ob) (hobs : ∀ a b, x.obs a b → S a ∧ S b)
    (hpo : ∀ a b, x.po a b → S a → S b → TransGen ob a b) : x.Sc := by
  obtain ⟨hx, hacyclic⟩ := h
  have hlocal : Acyclic (either x.po x.obs) :=
    acyclic_of_shared hobs (fun a b hab => hpo a b (transGen_po hab)) x.acyclic_po hacyclic
  refine hlocal.mono fun a b hab => ?_
  rcases hab with hab | hab
  · exact Or.inl hab
  · exact hx.com_cases hab

/-- Fences stand in program order. -/
structure Fencing (x : Execution E T L) (fenced : E → E → Prop) : Prop where
  po : ∀ a b, fenced a b → x.po a b
  before : ∀ a b c, x.po a b → fenced b c → fenced a c
  after : ∀ a b c, fenced a b → x.po b c → fenced a c

/-- What a path of kept edges comes to. -/
theorem local_path {fenced : E → E → Prop} (hf : Fencing x fenced)
    (h : TransGen (either x.ppo fenced) a b) : x.ppo a b ∨ fenced a b := by
  induction h with
  | single h => exact h
  | @tail b c _ hbc ih =>
    have hpo : x.po b c := hbc.elim And.left (hf.po b c)
    rcases ih with ⟨hab, hkind⟩ | hab
    · rcases hkind with hread | hwrite
      · exact Or.inl ⟨x.po_trans _ _ _ hab hpo, Or.inl hread⟩
      · -- a write is followed by a write or a fence
        rcases hbc with ⟨-, hread | hwrite'⟩ | hfence
        · rw [hwrite] at hread
          cases hread
        · exact Or.inl ⟨x.po_trans _ _ _ hab hpo, Or.inr hwrite'⟩
        · exact Or.inr (hf.before _ _ _ hab hfence)
    · exact Or.inr (hf.after _ _ _ hab hpo)

/-- **TSO**: the machine keeps the order of TSO between shared events, and only shared events
communicate. -/
theorem AllowedBy.tso {fenced : E → E → Prop} (hf : Fencing x fenced) (h : x.AllowedBy ob)
    (hobs : ∀ a b, x.obs a b → S a ∧ S b)
    (hppo : ∀ a b, x.ppo a b → S a → S b → TransGen ob a b)
    (hfence : ∀ a b, fenced a b → S a → S b → TransGen ob a b) : x.Tso fenced := by
  obtain ⟨hx, hacyclic⟩ := h
  refine ⟨hx, ?_⟩
  have hlocal : Acyclic (either (either x.ppo fenced) x.obs) := by
    refine acyclic_of_shared hobs (fun a b hab ha hb => ?_) (fun e he => ?_) hacyclic
    · rcases local_path hf hab with hab | hab
      · exact hppo a b hab ha hb
      · exact hfence a b hab ha hb
    · rcases local_path hf he with he | he
      · exact x.po_irrefl e he.1
      · exact x.po_irrefl e (hf.po e e he)
  refine hlocal.mono fun a b hab => ?_
  rcases hab with hab | ⟨hrf, ht⟩ | hco | hfr
  · exact Or.inl hab
  · exact Or.inr ⟨Or.inl hrf, ht⟩
  -- coherence and from-read end in a write, so within a thread TSO keeps them
  · rcases hx.com_cases (Or.inr (Or.inl hco)) with hpo | hobs'
    · exact Or.inl (Or.inl ⟨hpo, Or.inr (x.co_ends a b hco).2.1⟩)
    · exact Or.inr hobs'
  · rcases hx.com_cases (Or.inr (Or.inr hfr)) with hpo | hobs'
    · exact Or.inl (Or.inl ⟨hpo, Or.inr hfr.2.1⟩)
    · exact Or.inr hobs'

end Execution

end Oryx.Consistency
