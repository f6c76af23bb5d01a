/-
Oryx/Granted.lean

TSO and the threads it is granted to: when a thread that ENABLE answered with 0
runs with the control bit set.

The grant is a flag of the fd, the notifier hangs on the task that called
ENABLE, and the bit is set on eligible cores only.  So a second thread that
enables or queries an enabled fd is told that it has TSO and has not, a DISABLE
clears the bit under the caller's other grants, and a thread that user space
moves to a core that is not eligible loses the bit (`WellUsed` excludes these
events, and overlapping calls on one fd).  In every run without them, granted
threads have the bit (`tsoKept_of_reaches`).
-/
import Oryx.NoLeak
import Mathlib.Data.Fintype.Defs

namespace Oryx

variable {Thread Fd : Type}

/-! ### The property -/

/-- `ORYX_MM_STATE_TSO` is among the flags. -/
def reportsTso (flags : U32) : Bool := (flags &&& oryxMmStateTso) != 0

/-- Threads that ENABLE answered with 0 run user code with the bit set, and so do those that
QUERY tells that they have TSO. -/
structure TsoKept (cfg : MmConfig) (s : MmState Thread Fd) : Prop where
  granted : ∀ t f, s.granted t f = true → s.pc t = .user → ∀ c ∈ cfg.online,
    s.running c = t → controlBit cfg (s.regs c) = true
  reported : ∀ t f flags, s.pc t = .queried f flags → reportsTso flags = true →
    s.granted t f = true ∧
      ∀ c ∈ cfg.online, s.running c = t → controlBit cfg (s.regs c) = true

/-! ### The condition -/

/-- In `oryx_enable`, from `set_cpus_allowed_ptr` on. -/
def Pc.pinned : Pc Fd → Bool
  | .enable _ .migrate | .enable _ .init | .enable _ .register | .enable _ .setEnabled
  | .enable _ .apply => true
  | _ => false

/-- The same, on an allowed core. -/
def Pc.placed : Pc Fd → Bool
  | .enable _ .init | .enable _ .register | .enable _ .setEnabled | .enable _ .apply => true
  | _ => false

/-- The thread has a grant, or is about to get one. -/
def Confined (s : MmState Thread Fd) (t : Thread) : Prop :=
  (∃ f, s.onList f = some t ∧ s.enabled f = true) ∨ (s.pc t).pinned = true

/-- How the driver has to be used, as a condition on one event: no two calls on an fd overlap,
one of the two writing it; an enabled fd is enabled again and queried by the thread that enabled
it only, and disabled or closed by a thread without other grants; and the affinity mask of a
thread with a grant is not widened past the eligible cores. -/
def WellUsed (cfg : MmConfig) (s : MmState Thread Fd) : MmEvent Thread Fd → Prop
  | .callEnable c f => (∀ t, (s.pc t).on ≠ some f) ∧
      (s.enabled f = true → s.onList f = some (s.running c))
  | .callQuery c f => (∀ t, (s.pc t).writes ≠ some f) ∧
      (s.enabled f = true → s.onList f = some (s.running c))
  | .callDisable c f | .callClose c f => (∀ t, (s.pc t).on ≠ some f) ∧
      (s.enabled f = true → ∀ f' ≠ f, s.onList f' = some (s.running c) → s.enabled f' = false)
  | .setAffinity t mask => Confined s t →
      ∀ c ∈ cfg.online, mask c = true → oryxCoreEligible cfg c = true
  | _ => True

theorem WellUsed.noOverlap {cfg : MmConfig} {s : MmState Thread Fd} {e : MmEvent Thread Fd}
    (h : WellUsed cfg s e) : NoOverlap s e := by
  cases e with
  | callEnable | callDisable | callClose | callQuery => exact h.1
  | run | switch | setAffinity | havoc => trivial

/-- Without a core limit every core below 64 is eligible. -/
theorem eligible_of_all {cfg : MmConfig} (h : cfg.eligible = ~~~0) {c : Nat} (hc : c < 64) :
    oryxCoreEligible cfg c = true := by
  have hpow : (1 : U64) <<< c = BitVec.twoPow 64 c := (BitVec.twoPow_eq 64 c).symm
  have hall : (~~~0 : U64) &&& (1 : U64) <<< c = (1 : U64) <<< c := by
    rw [show (~~~0 : U64) = BitVec.allOnes 64 from rfl, BitVec.allOnes_and]
  rw [oryxCoreEligible, h, decide_eq_true hc, Bool.true_and, bne_iff_ne, hall, hpow]
  intro hzero
  have hbit := congrArg (·.getLsbD c) hzero
  rw [BitVec.getLsbD_twoPow, decide_eq_true hc, Bool.true_and, decide_eq_true rfl] at hbit
  exact absurd (hbit.trans BitVec.getLsbD_zero) (by decide)

/-! ### The invariant -/

/-- What is known of a thread at each statement. -/
def PlaceOk (s : MmState Thread Fd) (t : Thread) : Pc Fd → Prop
  | .user => True
  | .enable f .checkConfirmed | .enable f .checkEnabled =>
      s.enabled f = true → s.granted t f = true
  | .enable f .setEnabled | .enable f .apply => s.onList f = some t
  | .enable f (.ret rc) =>
      (s.enabled f = true → s.onList f = some t ∧ (s.granted t f = true ∨ rc = 0)) ∧
        (rc = 0 → s.enabled f = true)
  | .enable _ _ => True
  | .disable f p => (∀ t', s.granted t' f = false) ∧
      (p ≠ .ret → (p = .checkEnabled → s.enabled f = true) →
        ∀ f' ≠ f, s.onList f' = some t → s.enabled f' = false)
  | .query f => s.enabled f = true → s.granted t f = true
  | .queried f flags => reportsTso flags = true → s.granted t f = true

/-- What holds in every state while no thread moves to an ineligible core: calls do not overlap,
each thread knows its own fd, and the bit of a core is set where a granted thread runs. -/
structure GrantInv (cfg : MmConfig) (s : MmState Thread Fd) : Prop where
  calls : CallsOk s
  one : OneCore cfg s
  place : ∀ t, PlaceOk s t (s.pc t)
  granted : ∀ t f, s.granted t f = true → s.enabled f = true ∧ s.onList f = some t
  settled : ∀ f, (∀ t, (s.pc t).writes ≠ some f) → s.enabled f = true →
    ∃ t, s.granted t f = true
  confined : ∀ t, Confined s t → ∀ c ∈ cfg.online, s.affinity t c = true →
    oryxCoreEligible cfg c = true
  placed : ∀ c ∈ cfg.online, (s.pc (s.running c)).placed = true → oryxCoreEligible cfg c = true
  bit : ∀ c ∈ cfg.online, ∀ f, s.onList f = some (s.running c) → s.enabled f = true →
    s.pc (s.running c) ≠ .enable f .apply → controlBit cfg (s.regs c) = true

section Invariant

variable {cfg : MmConfig} {s s' : MmState Thread Fd}

theorem GrantInv.tsoKept (h : GrantInv cfg s) : TsoKept cfg s where
  granted := by
    rintro t f hg huser c hc rfl
    obtain ⟨hen, hl⟩ := h.granted _ f hg
    apply h.bit c hc f hl hen
    rw [huser]
    exact fun e => nomatch e
  reported := by
    intro t f flags hpc hflags
    have hplace := h.place t
    rw [hpc] at hplace
    have hg := hplace hflags
    refine ⟨hg, ?_⟩
    rintro c hc rfl
    obtain ⟨hen, hl⟩ := h.granted _ f hg
    apply h.bit c hc f hl hen
    rw [hpc]
    exact fun e => nomatch e

theorem MmInit.grantInv (h : MmInit cfg s) : GrantInv cfg s where
  calls := h.callsOk
  one := h.running
  place := by
    intro t
    rw [h.pc]
    trivial
  granted := by
    intro t f hg
    rw [h.granted] at hg
    cases hg
  settled := by
    intro f _ hen
    rw [h.enabled] at hen
    cases hen
  confined := by
    rintro t (⟨f, hl, -⟩ | hp)
    · rw [h.onList] at hl
      cases hl
    · rw [h.pc] at hp
      cases hp
  placed := by
    intro c _ hp
    rw [h.pc] at hp
    cases hp
  bit := by
    intro c _ f hl
    rw [h.onList] at hl
    cases hl

/-! ### Calls that start -/

/-- A grant of this thread is one that ENABLE answered with 0. -/
theorem GrantInv.granted_of_enabled (h : GrantInv cfg s) {t : Thread} {f : Fd}
    (hno : ∀ t, (s.pc t).writes ≠ some f) (hown : s.enabled f = true → s.onList f = some t)
    (hen : s.enabled f = true) : s.granted t f = true := by
  obtain ⟨t', hg⟩ := h.settled f hno hen
  have hsame := (h.granted t' f hg).2.symm.trans (hown hen)
  cases hsame
  exact hg

/-- What is known of a thread depends on the fd of its call, and on which of its notifiers have
a grant. -/
theorem PlaceOk.of_same {t : Thread} {p : Pc Fd} (h : PlaceOk s t p)
    (hsame : ∀ f, p.on = some f → s'.enabled f = s.enabled f ∧ s'.onList f = s.onList f ∧
      ∀ t', s'.granted t' f = s.granted t' f)
    (hothers : ∀ f, s'.onList f = some t → s'.enabled f = true →
      s.onList f = some t ∧ s.enabled f = true) : PlaceOk s' t p := by
  cases p with
  | user => trivial
  | enable f q =>
    obtain ⟨hen, hl, hg⟩ := hsame f rfl
    -- by the statement the ENABLE is at
    cases q with
    | checkConfirmed | checkEnabled =>
      show s'.enabled f = true → s'.granted t f = true
      rw [hen, hg]
      exact h
    | setEnabled | apply => exact hl.trans h
    | ret rc =>
      show (s'.enabled f = true → s'.onList f = some t ∧ (s'.granted t f = true ∨ rc = 0)) ∧
        (rc = 0 → s'.enabled f = true)
      rw [hen, hl, hg]
      exact h
    | restrict | migrate | init | register => trivial
  | disable f q =>
    obtain ⟨hen, hl, hg⟩ := hsame f rfl
    refine ⟨fun t' => (hg t').trans (h.1 t'), fun hq hcheck f' hne hl' => ?_⟩
    rw [hen] at hcheck
    -- another notifier that is enabled now was enabled before
    cases hen' : s'.enabled f' with
    | false => rfl
    | true =>
      obtain ⟨hl₀, hen₀⟩ := hothers f' hl' hen'
      rw [h.2 hq hcheck f' hne hl₀] at hen₀
      cases hen₀
  | query f =>
    obtain ⟨hen, -, hg⟩ := hsame f rfl
    show s'.enabled f = true → s'.granted t f = true
    rw [hen, hg]
    exact h
  | queried f flags =>
    obtain ⟨-, -, hg⟩ := hsame f rfl
    show reportsTso flags = true → s'.granted t f = true
    rw [hg]
    exact h

section Calls

variable [DecidableEq Thread]

theorem goto_pc_of_ne {t t' : Thread} (h : t' ≠ t) (p : Pc Fd) : (s.goto t p).pc t' = s.pc t' :=
  Function.update_of_ne h _ _

/-- Starting a call that writes nothing yet: what is known at its first statement is what is left
to show. -/
theorem GrantInv.goto (h : GrantInv cfg s) {t : Thread} {p : Pc Fd}
    (huser : s.pc t = .user) (hplace : PlaceOk s t p)
    (hpinned : p.pinned = false) (hcalls : CallsOk (s.goto t p)) : GrantInv cfg (s.goto t p) := by
  -- the statements where the core matters are those that pin
  have hquiet : ∀ q : Pc Fd, q.pinned = false → q.placed = false ∧ ∀ f, q ≠ .enable f .apply := by
    intro q hq
    cases q with
    | enable f' e =>
      cases e with
      | migrate | init | register | setEnabled | apply => cases hq
      | checkConfirmed | checkEnabled | restrict | ret =>
        exact ⟨rfl, fun f e => nomatch e⟩
    | user | disable | query | queried => exact ⟨rfl, fun f e => nomatch e⟩
  have hpin : ∀ t', ((s.goto t p).pc t').pinned = (s.pc t').pinned := by
    intro t'
    by_cases ht : t' = t
    · rw [ht, goto_pc, hpinned, huser]
      rfl
    · rw [goto_pc_of_ne ht]
  refine ⟨hcalls, h.one, fun t' => ?_, h.granted, fun f' hno hen => ?_, fun t' hconf => ?_,
    fun c hc hpl => ?_, fun c hc f' hl hen hne => ?_⟩
  · by_cases ht : t' = t
    · subst ht
      rw [goto_pc]
      exact hplace
    · rw [goto_pc_of_ne ht]
      exact h.place t'
  · -- a call from user code writes no fd before
    refine h.settled f' (fun t' hw => ?_) hen
    by_cases ht : t' = t
    · subst ht
      rw [huser] at hw
      cases hw
    · apply hno t'
      rw [goto_pc_of_ne ht]
      exact hw
  · apply h.confined t'
    rw [Confined, hpin t'] at hconf
    exact hconf
  · apply h.placed c hc
    by_cases ht : s.running c = t
    · rw [show (s.goto t p).running c = t from ht, goto_pc, (hquiet p hpinned).1] at hpl
      cases hpl
    · rw [show (s.goto t p).pc ((s.goto t p).running c) = s.pc (s.running c) from
        goto_pc_of_ne ht p] at hpl
      exact hpl
  · apply h.bit c hc f' hl hen
    by_cases ht : s.running c = t
    · rw [ht, huser]
      exact fun e => nomatch e
    · rw [show (s.goto t p).pc ((s.goto t p).running c) = s.pc (s.running c) from
        goto_pc_of_ne ht p] at hne
      exact hne

/-- A DISABLE or close that starts takes the grants of its fd back. -/
theorem GrantInv.startDisable [DecidableEq Fd] (h : GrantInv cfg s) {t : Thread} {f : Fd}
    (huser : s.pc t = .user) (hno : ∀ t', (s.pc t').on ≠ some f)
    (hothers : s.enabled f = true → ∀ f' ≠ f, s.onList f' = some t → s.enabled f' = false)
    {s₁ : MmState Thread Fd} (hs₁ : s₁ = (s.goto t (.disable f .checkEnabled)).revoke f)
    (hcalls : CallsOk s₁) : GrantInv cfg s₁ := by
  subst hs₁
  have hpc : ∀ t' ≠ t, ((s.goto t (.disable f .checkEnabled)).revoke f).pc t' = s.pc t' :=
    fun t' ht => Function.update_of_ne ht _ _
  have hpct : ((s.goto t (.disable f .checkEnabled)).revoke f).pc t = .disable f .checkEnabled :=
    Function.update_self _ _ _
  have hrunning : ((s.goto t (.disable f .checkEnabled)).revoke f).running = s.running := rfl
  have hgf : ∀ t', ((s.goto t (.disable f .checkEnabled)).revoke f).granted t' f = false :=
    fun t' => if_pos rfl
  have hg : ∀ t' f', f' ≠ f →
      ((s.goto t (.disable f .checkEnabled)).revoke f).granted t' f' = s.granted t' f' :=
    fun t' f' hne => if_neg hne
  refine ⟨hcalls, h.one, fun t' => ?_, fun t' f' hgr => ?_, fun f' hwr hen => ?_,
    fun t' hconf => ?_, fun c hc hpl => ?_, fun c hc f' hl hen hne => ?_⟩
  · -- `t` knows that its fd has no grant left
    by_cases ht : t' = t
    · subst ht
      rw [hpct]
      exact ⟨hgf, fun _ hcheck => hothers (hcheck rfl)⟩
    · rw [hpc t' ht]
      refine (h.place t').of_same (fun f' hon => ⟨rfl, rfl, fun t₁ => hg t₁ f' ?_⟩)
        fun f' hl hen => ⟨hl, hen⟩
      rintro rfl
      exact hno t' hon
  · -- grants of other fds
    by_cases hf : f' = f
    · rw [hf, hgf] at hgr
      cases hgr
    · rw [hg t' f' hf] at hgr
      exact h.granted t' f' hgr
  · -- `f` itself is written from now on
    by_cases hf : f' = f
    · refine absurd ?_ (hwr t)
      rw [hpct, hf, Pc.writes]
    · have hquiet : ∀ t', (s.pc t').writes ≠ some f' := by
        intro t' hw
        by_cases ht : t' = t
        · subst ht
          rw [huser] at hw
          cases hw
        · apply hwr t'
          rw [hpc t' ht]
          exact hw
      obtain ⟨t₁, hg₁⟩ := h.settled f' hquiet hen
      exact ⟨t₁, (hg t₁ f' hf).trans hg₁⟩
  · apply h.confined t'
    rcases hconf with hgrant | hpin
    · exact Or.inl hgrant
    · by_cases ht : t' = t
      · rw [ht, hpct] at hpin
        cases hpin
      · rw [hpc t' ht] at hpin
        exact Or.inr hpin
  · apply h.placed c hc
    by_cases ht : s.running c = t
    · rw [hrunning, ht, hpct] at hpl
      cases hpl
    · rw [hrunning, hpc _ ht] at hpl
      exact hpl
  · -- `t` comes from user code, so its bit was right
    apply h.bit c hc f' hl hen
    by_cases ht : s.running c = t
    · rw [ht, huser]
      exact fun e => nomatch e
    · rw [hrunning, hpc _ ht] at hne
      exact hne

end Calls

/-! ### One statement -/

/-- What is known around a statement of `t` on core `c`, in a call on `f`. -/
structure LocalOk (cfg : MmConfig) (s : MmState Thread Fd) (c : Nat) (t : Thread) (f : Fd) :
    Prop where
  place : PlaceOk s t (s.pc t)
  granted : ∀ t', s.granted t' f = true → s.enabled f = true ∧ s.onList f = some t'
  calm : (s.pc t).writes = none → s.enabled f = true → ∃ t', s.granted t' f = true
  bit : ∀ f', s.onList f' = some t → s.enabled f' = true → s.pc t ≠ .enable f' .apply →
    controlBit cfg (s.regs c) = true
  confined : Confined s t → ∀ c' ∈ cfg.online, s.affinity t c' = true →
    oryxCoreEligible cfg c' = true
  placed : (s.pc t).placed = true → oryxCoreEligible cfg c = true

/-- The statement keeps it, and gives no other thread a grant. -/
structure StatementKeeps (cfg : MmConfig) (s s' : MmState Thread Fd) (c : Nat) (t : Thread)
    (f : Fd) : Prop where
  after : LocalOk cfg s' c t f
  back : ∀ t' ≠ t, s'.onList f = some t' → s'.enabled f = true →
    s.onList f = some t' ∧ s.enabled f = true

section Statements

theorem reportsTso_queryFlags (f : Fd) : reportsTso (queryFlags cfg s f) = s.enabled f := by
  -- the other two flags are other bits
  unfold queryFlags
  cases s.enabled f with
  | true =>
    rw [if_pos rfl]
    split
    · split
      · rfl
      · rfl
    · split
      · rfl
      · rfl
  | false =>
    rw [if_neg Bool.false_ne_true]
    split
    · split
      · rfl
      · rfl
    · split
      · rfl
      · rfl

variable [DecidableEq Thread] {c : Nat} {t : Thread} {f : Fd} {fail : CInt}

/-- A statement that leaves `s₁` and goes on to `p`, by what holds in `s₁`. -/
theorem StatementKeeps.goto {s₁ : MmState Thread Fd} {p : Pc Fd} (hplace : PlaceOk s₁ t p)
    (hgranted : ∀ t', s₁.granted t' f = true → s₁.enabled f = true ∧ s₁.onList f = some t')
    (hcalm : p.writes = none → s₁.enabled f = true → ∃ t', s₁.granted t' f = true)
    (hbit : ∀ f', s₁.onList f' = some t → s₁.enabled f' = true → p ≠ .enable f' .apply →
      controlBit cfg (s₁.regs c) = true)
    (hconfined : (∃ f', s₁.onList f' = some t ∧ s₁.enabled f' = true) ∨ p.pinned = true →
      ∀ c' ∈ cfg.online, s₁.affinity t c' = true → oryxCoreEligible cfg c' = true)
    (hplaced : p.placed = true → oryxCoreEligible cfg c = true)
    (hback : ∀ t' ≠ t, s₁.onList f = some t' → s₁.enabled f = true →
      s.onList f = some t' ∧ s.enabled f = true) :
    StatementKeeps cfg s (s₁.goto t p) c t f := by
  have hpc : (s₁.goto t p).pc t = p := goto_pc s₁ p
  refine ⟨⟨?_, hgranted, ?_, ?_, ?_, ?_⟩, hback⟩
  · rw [hpc]
    exact hplace.of_same (fun _ _ => ⟨rfl, rfl, fun _ => rfl⟩) fun _ h₁ h₂ => ⟨h₁, h₂⟩
  · rw [hpc]
    exact hcalm
  · rw [hpc]
    exact hbit
  · rw [Confined, hpc]
    exact hconfined
  · rw [hpc]
    exact hplaced

/-- The same for a statement that changes neither grants nor lists nor the bit. -/
theorem StatementKeeps.of_goto (h : LocalOk cfg s c t f) {p : Pc Fd}
    (hplace : PlaceOk s t p)
    (hcalm : p.writes = none → s.enabled f = true → ∃ t', s.granted t' f = true)
    (hbit : ∀ f', s.pc t ≠ .enable f' .apply)
    (hpinned : p.pinned = true → ∀ c' ∈ cfg.online, s.affinity t c' = true →
      oryxCoreEligible cfg c' = true)
    (hplaced : p.placed = true → oryxCoreEligible cfg c = true) :
    StatementKeeps cfg s (s.goto t p) c t f :=
  .goto hplace h.granted hcalm (fun f' h₁ h₂ _ => h.bit f' h₁ h₂ (hbit f'))
    (fun hconf => hconf.elim (fun hg => h.confined (Or.inl hg)) hpinned) hplaced
    fun _ _ h₁ h₂ => ⟨h₁, h₂⟩

/-- The same for a statement that goes on in its call, and not to where the core matters. -/
theorem StatementKeeps.of_goto_quiet (h : LocalOk cfg s c t f) {p : Pc Fd}
    (hbit : ∀ f', s.pc t ≠ .enable f' .apply) (hplace : PlaceOk s t p)
    (hwrites : p.writes = some f) (hpinned : p.pinned = false) (hplaced : p.placed = false) :
    StatementKeeps cfg s (s.goto t p) c t f := by
  refine .of_goto h hplace (fun hw => ?_) hbit (fun hp => ?_) fun hp => ?_
  · rw [hwrites] at hw
    cases hw
  · rw [hpinned] at hp
    cases hp
  · rw [hplaced] at hp
    cases hp

variable [DecidableEq Fd]

theorem enable_keeps {p : EnablePc} (hpc : s.pc t = .enable f p)
    (hmode : (s.pc t).Mode (s.enabled f) (s.onList f).isSome)
    (hall : cfg.eligible = ~~~0 → ∀ c' ∈ cfg.online, oryxCoreEligible cfg c' = true)
    (hc : c ∈ cfg.online) (h : LocalOk cfg s c t f) :
    StatementKeeps cfg s (oryxEnable cfg s c t f fail p) c t f := by
  have hplace := h.place
  have hpinned : (s.pc t).pinned = (Pc.enable f p).pinned := by rw [hpc]
  have hplaced : (s.pc t).placed = (Pc.enable f p).placed := by rw [hpc]
  have hne : p ≠ .apply → ∀ f', s.pc t ≠ .enable f' .apply := by
    intro hp f' e
    rw [hpc] at e
    cases e
    exact hp rfl
  have hdis : ∀ {P : Prop}, s.enabled f = false → s.enabled f = true → P := by
    intro P h₁ h₂
    rw [h₁] at h₂
    cases h₂
  have hgoing : ∀ {P : Prop}, some f = none → P := fun hw => absurd hw (Option.some_ne_none f)
  have hfree : ∀ {P : Prop}, false = true → P := fun hp => absurd hp Bool.false_ne_true
  rw [hpc] at hmode hplace
  cases p with
  | checkConfirmed =>
    rw [oryxEnable]
    split
    · refine .of_goto_quiet h (hne (by simp))
        ⟨fun hen => ?_, fun e => absurd e (by decide)⟩ rfl rfl rfl
      exact ⟨(h.granted t (hplace hen)).2, Or.inl (hplace hen)⟩
    · exact .of_goto_quiet h (hne (by simp)) hplace rfl rfl rfl
  | checkEnabled =>
    rw [oryxEnable]
    split
    · next hen =>
      exact .of_goto_quiet h (hne (by simp))
        ⟨fun _ => ⟨(h.granted t (hplace hen)).2, Or.inr rfl⟩, fun _ => hen⟩ rfl rfl rfl
    · exact .of_goto_quiet h (hne (by simp)) trivial rfl rfl rfl
  | restrict =>
    rw [oryxEnable]
    split
    · next hel =>
      exact .of_goto h trivial hgoing (hne (by simp))
        (fun _ c' hc' _ => hall hel c' hc') (fun _ => hall hel c hc)
    split
    · next hfail =>
      exact .of_goto_quiet h (hne (by simp))
        ⟨hdis hmode.1, fun e => absurd e hfail⟩ rfl rfl rfl
    split
    · exact .of_goto_quiet h (hne (by simp))
        ⟨hdis hmode.1, fun e => absurd e (by decide)⟩ rfl rfl rfl
    · -- the mask becomes the one of the eligible cores
      have hplaced : PlaceOk { s with affinity := Function.update s.affinity t (eligibleMask cfg) } t
        (.enable f .migrate) := trivial
      refine StatementKeeps.goto hplaced h.granted hgoing
        (fun f' h₁ h₂ _ => h.bit f' h₁ h₂ (hne (by simp) f')) ?_
        hfree (fun _ _ h₁ h₂ => ⟨h₁, h₂⟩)
      intro _ c' _ hmask
      have hself := congrFun (Function.update_self t (eligibleMask cfg) s.affinity) c'
      exact (Bool.and_eq_true_iff.mp (hself.symm.trans hmask)).2
  | migrate =>
    rw [oryxEnable]
    split
    · next haff =>
      exact .of_goto h trivial hgoing (hne (by simp))
        (fun _ => h.confined (Or.inr hpinned)) (fun _ => h.confined (Or.inr hpinned) c hc haff)
    · exact ⟨h, fun _ _ h₁ h₂ => ⟨h₁, h₂⟩⟩
  | init =>
    exact .goto trivial h.granted hgoing
      (fun f' h₁ h₂ _ => h.bit f' h₁ h₂ (hne (by simp) f'))
      (fun _ => h.confined (Or.inr hpinned)) (fun _ => h.placed hplaced)
      (fun _ _ h₁ h₂ => ⟨h₁, h₂⟩)
  | register =>
    have hlf : (s.preemptNotifierRegister t f).onList f = some t := Function.update_self _ _ _
    have hl : ∀ f' ≠ f, (s.preemptNotifierRegister t f).onList f' = s.onList f' :=
      fun f' hf' => Function.update_of_ne hf' _ _
    refine .goto hlf (fun t' hg => hdis hmode.1 (h.granted t' hg).1) hgoing ?_
      (fun _ => h.confined (Or.inr hpinned)) (fun _ => h.placed hplaced)
      (fun _ _ _ h₂ => hdis hmode.1 h₂)
    intro f' h₁ h₂ _
    by_cases hf' : f' = f
    · rw [hf'] at h₂
      exact hdis hmode.1 h₂
    · exact h.bit f' ((hl f' hf').symm.trans h₁) h₂ (hne (by simp) f')
  | setEnabled =>
    have hen : ∀ f' ≠ f, (s.setEnabled f true).enabled f' = s.enabled f' :=
      fun f' hf' => Function.update_of_ne hf' _ _
    refine .goto hplace (fun t' hg => hdis hmode.1 (h.granted t' hg).1) hgoing ?_
      (fun _ => h.confined (Or.inr hpinned)) (fun _ => h.placed hplaced) ?_
    · intro f' h₁ h₂ hnot
      by_cases hf' : f' = f
      · rw [hf'] at hnot
        exact absurd rfl hnot
      · exact h.bit f' h₁ ((hen f' hf').symm.trans h₂) (hne (by simp) f')
    · intro t' ht h₁ _
      exact absurd (Option.some.inj (h₁.symm.trans hplace)) ht
  | apply =>
    -- the core is eligible, the bit is set
    have hbit : controlBit cfg ((s.apply cfg c true).regs c) = true := by
      apply Eq.trans (congrArg (controlBit cfg) (Function.update_self _ _ _))
      exact controlBit_apply cfg true _
    rw [oryxEnable, if_pos (h.placed hplaced)]
    exact .goto ⟨fun _ => ⟨hplace, Or.inr rfl⟩, fun _ => hmode.1⟩ h.granted
      hgoing (fun _ _ _ _ => hbit) (fun _ => h.confined (Or.inr hpinned))
      hfree (fun _ _ h₁ h₂ => ⟨h₁, h₂⟩)
  | ret rc =>
    rw [oryxEnable]
    split
    · next hrc =>
      -- ENABLE answers with 0
      have hen := hplace.2 hrc
      refine .goto trivial (fun t' hg => ?_) (fun _ _ => ⟨t, if_pos ⟨rfl, rfl⟩⟩)
        (fun f' h₁ h₂ _ => h.bit f' h₁ h₂ (hne (by simp) f'))
        (fun hconf => h.confined (Or.inl (hconf.resolve_right Bool.false_ne_true)))
        hfree (fun _ _ h₁ h₂ => ⟨h₁, h₂⟩)
      by_cases ht : t' = t
      · rw [ht]
        exact ⟨hen, (hplace.1 hen).1⟩
      · have hold : (s.grant t f).granted t' f = s.granted t' f := if_neg fun e => ht e.1
        exact h.granted t' (hold.symm.trans hg)
    · next hrc =>
      exact .of_goto h trivial (fun _ hen => ⟨t, (hplace.1 hen).2.resolve_right hrc⟩)
        (hne (by simp)) hfree hfree

theorem disable_keeps {p : DisablePc} (hpc : s.pc t = .disable f p)
    (hmode : (s.pc t).Mode (s.enabled f) (s.onList f).isSome) (h : LocalOk cfg s c t f) :
    StatementKeeps cfg s (oryxDisable cfg s c t f p) c t f := by
  have hplace := h.place
  rw [hpc] at hmode hplace
  obtain ⟨hnone, hothers⟩ := hplace
  have hne : ∀ f', s.pc t ≠ .enable f' .apply := by
    intro f' e
    rw [hpc] at e
    cases e
  have hdis : ∀ {P : Prop}, s.enabled f = false → s.enabled f = true → P := by
    intro P h₁ h₂
    rw [h₁] at h₂
    cases h₂
  have hgoing : ∀ {P : Prop}, some f = none → P := fun hw => absurd hw (Option.some_ne_none f)
  have hfree : ∀ {P : Prop}, false = true → P := fun hp => absurd hp Bool.false_ne_true
  -- no grant of this fd is left
  have hgr : ∀ {P : Prop} (t' : Thread), s.granted t' f = true → P := by
    intro P t' hg
    rw [hnone t'] at hg
    cases hg
  cases p with
  | checkEnabled =>
    rw [oryxDisable]
    split
    · next hen =>
      exact .of_goto_quiet h hne ⟨hnone, fun _ _ => hothers (by simp) fun _ => hen⟩
        rfl rfl rfl
    · exact .of_goto_quiet h hne ⟨hnone, fun e => absurd rfl e⟩ rfl rfl rfl
  | clearEnabled =>
    have henf : (s.setEnabled f false).enabled f = false := Function.update_self _ _ _
    have hen : ∀ f' ≠ f, (s.setEnabled f false).enabled f' = s.enabled f' :=
      fun f' hf' => Function.update_of_ne hf' _ _
    have hback : ∀ f', (s.setEnabled f false).enabled f' = true → s.enabled f' = true := by
      intro f' h₂
      by_cases hf' : f' = f
      · rw [hf', henf] at h₂
        cases h₂
      · exact (hen f' hf').symm.trans h₂
    have hoff := hothers (by simp) (by simp)
    exact .goto ⟨hnone, fun _ _ f' hf' hl => (hen f' hf').trans (hoff f' hf' hl)⟩
      (fun t' hg => hgr t' hg) hgoing
      (fun f' h₁ h₂ _ => h.bit f' h₁ (hback f' h₂) (hne f'))
      (fun hconf => h.confined (Or.inl ((hconf.resolve_right Bool.false_ne_true).imp
        fun f' hf => ⟨hf.1, hback f' hf.2⟩)))
      hfree (fun _ _ h₁ h₂ => ⟨h₁, hback f h₂⟩)
  | unregister =>
    obtain ⟨t₀, ht₀⟩ := Option.isSome_iff_exists.mp hmode.2
    have hoff := hothers (by simp) (by simp)
    rw [oryxDisable, preemptNotifierUnregister_of_some ht₀]
    have hback : ∀ f' t', Function.update s.onList f none f' = some t' → s.onList f' = some t' := by
      intro f' t' h₁
      by_cases hf' : f' = f
      · rw [hf', Function.update_self] at h₁
        cases h₁
      · rw [Function.update_of_ne hf'] at h₁
        exact h₁
    exact .goto ⟨hnone, fun _ _ f' hf' hl => hoff f' hf' (hback f' t hl)⟩
      (fun t' hg => hgr t' hg) hgoing
      (fun f' h₁ h₂ _ => h.bit f' (hback f' t h₁) h₂ (hne f'))
      (fun hconf => h.confined (Or.inl ((hconf.resolve_right Bool.false_ne_true).imp
        fun f' hf => ⟨hback f' t hf.1, hf.2⟩)))
      hfree (fun t' _ h₁ h₂ => ⟨hback f t' h₁, h₂⟩)
  | apply =>
    -- the bit goes, and no other grant of this thread needs it
    have hoff := hothers (by simp) (by simp)
    refine .goto ⟨hnone, fun e => absurd rfl e⟩ h.granted hgoing ?_
      (fun hconf => h.confined (Or.inl (hconf.resolve_right Bool.false_ne_true)))
      hfree (fun _ _ h₁ h₂ => ⟨h₁, h₂⟩)
    intro f' h₁ h₂ _
    by_cases hf' : f' = f
    · rw [hf'] at h₂
      exact hdis hmode.1 h₂
    · exact absurd ((hoff f' hf' h₁).symm.trans h₂) Bool.false_ne_true
  | ret =>
    exact .goto trivial h.granted (fun _ hen => hdis hmode.1 hen)
      (fun f' h₁ h₂ _ => h.bit f' h₁ h₂ (hne f'))
      (fun hconf => h.confined (Or.inl (hconf.resolve_right Bool.false_ne_true)))
      hfree (fun _ _ h₁ h₂ => ⟨h₁, h₂⟩)

theorem statement_keeps (hrun : runStatement cfg s c t fail = some s')
    (hon : (s.pc t).on = some f)
    (hmode : (s.pc t).Mode (s.enabled f) (s.onList f).isSome)
    (hall : cfg.eligible = ~~~0 → ∀ c' ∈ cfg.online, oryxCoreEligible cfg c' = true)
    (hc : c ∈ cfg.online) (h : LocalOk cfg s c t f) : StatementKeeps cfg s s' c t f := by
  have hplace := h.place
  unfold runStatement at hrun
  cases hp : s.pc t with
  | user =>
    rw [hp] at hon
    cases hon
  | enable f' p =>
    rw [hp] at hrun hon
    cases hon
    cases hrun
    exact enable_keeps hp hmode hall hc h
  | disable f' p =>
    rw [hp] at hrun hon
    cases hon
    cases hrun
    exact disable_keeps hp hmode h
  | query f' =>
    rw [hp] at hrun hon hplace
    cases hon
    cases hrun
    refine .of_goto h ?_ (fun _ hen => ⟨t, hplace hen⟩) ?_
      (fun hp => nomatch hp) (fun hp => nomatch hp)
    · intro hflags
      rw [reportsTso_queryFlags] at hflags
      exact hplace hflags
    · rw [hp]
      exact fun _ e => nomatch e
  -- the answer was judged when it was made
  | queried f' flags =>
    have hcalm := h.calm
    rw [hp] at hrun hon hcalm
    cases hon
    cases hrun
    refine .of_goto h trivial hcalm ?_ (fun hp => nomatch hp)
      (fun hp => nomatch hp)
    rw [hp]
    exact fun _ e => nomatch e

/-- A call that writes nothing only moves its thread. -/
theorem runStatement_reads (hrun : runStatement cfg s c t fail = some s')
    (hreads : (s.pc t).writes = none) : ∃ p, s' = s.goto t p := by
  unfold runStatement at hrun
  cases hp : s.pc t with
  | user =>
    rw [hp] at hrun
    cases hrun
  | enable f p | disable f p =>
    rw [hp] at hreads
    cases hreads
  | query f | queried f flags =>
    rw [hp] at hrun
    cases hrun
    exact ⟨_, rfl⟩

/-! ### Steps -/

theorem GrantInv.run (h : GrantInv cfg s)
    (hall : cfg.eligible = ~~~0 → ∀ c' ∈ cfg.online, oryxCoreEligible cfg c' = true)
    (hc : c ∈ cfg.online) (hrun : runStatement cfg s c (s.running c) fail = some s')
    (hcalls : CallsOk s') (hone : OneCore cfg s') : GrantInv cfg s' := by
  obtain ⟨f, hon⟩ := on_of_runStatement hrun
  generalize ht : s.running c = t at hrun hon
  have hmode := h.calls.mode t f hon
  have htouch := runStatement_touches hrun hon
  have hadv := runStatement_advances hrun hon h.calls.lists hmode
  have hlocal : LocalOk cfg s c t f :=
    { place := h.place t
      granted := fun t' hg => h.granted t' f hg
      calm := by
        intro hnone hen
        refine h.settled f (fun t' hw => ?_) hen
        have hsame := h.calls.alone t' t f hw hon
        rw [← hsame, hnone] at hw
        cases hw
      bit := by
        rw [← ht]
        exact h.bit c hc
      confined := h.confined t
      placed := by
        rw [← ht]
        exact h.placed c hc }
  have hkeeps := statement_keeps hrun hon hmode hall hc hlocal
  have hback : ∀ t' ≠ t, ∀ f', s'.onList f' = some t' → s'.enabled f' = true →
      s.onList f' = some t' ∧ s.enabled f' = true := by
    intro t' ht' f' h₁ h₂
    by_cases hf' : f' = f
    · rw [hf'] at h₁ h₂ ⊢
      exact hkeeps.back t' ht' h₁ h₂
    · rw [htouch.onList f' hf'] at h₁
      rw [htouch.enabled f' hf'] at h₂
      exact ⟨h₁, h₂⟩
  have hother : ∀ c' ∈ cfg.online, c' ≠ c → s.running c' ≠ t := by
    intro c' hc' hne e
    exact hne (h.one c' hc' c hc (e.trans ht.symm))
  refine ⟨hcalls, hone, fun t' => ?_, fun t' f' hg => ?_, fun f' hno hen => ?_,
    fun t' hconf => ?_, fun c' hc' hpl => ?_, fun c' hc' f' h₁ h₂ hne => ?_⟩
  · -- what each thread knows at its statement
    by_cases ht' : t' = t
    · rw [ht']
      exact hkeeps.after.place
    · rw [htouch.pc t' ht']
      refine (h.place t').of_same (fun f' hon' => ?_) (hback t' ht')
      by_cases hf' : f' = f
      · -- two calls on the fd: this one only reads it
        have hreads : (s.pc t).writes = none := by
          cases hw : (s.pc t).writes with
          | none => rfl
          | some f₁ =>
            have hf₁ := Option.some.inj ((Pc.on_of_writes hw).symm.trans hon)
            rw [hf₁] at hw
            rw [hf'] at hon'
            exact absurd (h.calls.alone t t' f hw hon') ht'
        obtain ⟨p, rfl⟩ := runStatement_reads hrun hreads
        exact ⟨rfl, rfl, fun _ => rfl⟩
      · exact ⟨htouch.enabled f' hf', htouch.onList f' hf',
          fun t₁ => htouch.granted t₁ f' (Or.inr hf')⟩
  · -- a grant is enabled and listed
    by_cases hf' : f' = f
    · rw [hf'] at hg ⊢
      exact hkeeps.after.granted t' hg
    · rw [htouch.granted t' f' (Or.inr hf')] at hg
      rw [htouch.enabled f' hf', htouch.onList f' hf']
      exact h.granted t' f' hg
  · -- an enabled fd that no call writes has a grant
    by_cases hf' : f' = f
    · rw [hf'] at hno hen ⊢
      refine hkeeps.after.calm ?_ hen
      cases hw : (s'.pc t).writes with
      | none => rfl
      | some f₁ =>
        rcases hadv.next with ⟨hsame, -⟩ | huser
        · have hf₁ := Option.some.inj ((Pc.on_of_writes hw).symm.trans hsame)
          rw [hf₁] at hw
          exact absurd hw (hno t)
        · rw [huser] at hw
          cases hw
    · have hquiet : ∀ t', (s.pc t').writes ≠ some f' := by
        intro t' hw
        by_cases ht' : t' = t
        · rw [ht'] at hw
          exact hf' (Option.some.inj ((Pc.on_of_writes hw).symm.trans hon))
        · apply hno t'
          rw [htouch.pc t' ht']
          exact hw
      rw [htouch.enabled f' hf'] at hen
      obtain ⟨t₁, hg⟩ := h.settled f' hquiet hen
      exact ⟨t₁, (htouch.granted t₁ f' (Or.inr hf')).trans hg⟩
  · -- threads with a grant keep to eligible cores
    by_cases ht' : t' = t
    · rw [ht'] at hconf ⊢
      exact hkeeps.after.confined hconf
    · rw [htouch.affinity t' ht']
      apply h.confined t'
      rcases hconf with ⟨f', h₁, h₂⟩ | hp
      · exact Or.inl ⟨f', hback t' ht' f' h₁ h₂⟩
      · rw [htouch.pc t' ht'] at hp
        exact Or.inr hp
  · -- past `migrate` the core is eligible
    rw [htouch.running] at hpl
    by_cases hcc : c' = c
    · rw [hcc] at hpl ⊢
      rw [ht] at hpl
      exact hkeeps.after.placed hpl
    · rw [htouch.pc _ (hother c' hc' hcc)] at hpl
      exact h.placed c' hc' hpl
  · -- the bit is set where a granted thread runs
    rw [htouch.running] at h₁ hne
    by_cases hcc : c' = c
    · rw [hcc] at h₁ hne ⊢
      rw [ht] at h₁ hne
      exact hkeeps.after.bit f' h₁ h₂ hne
    · have hneq := hother c' hc' hcc
      rw [htouch.pc _ hneq] at hne
      rw [htouch.regs c' hcc]
      obtain ⟨h₁', h₂'⟩ := hback _ hneq f' h₁ h₂
      exact h.bit c' hc' f' h₁' h₂' hne

end Statements

/-- The thread that comes finds its bit set, the core being one of its mask. -/
theorem GrantInv.switch (h : GrantInv cfg s) {c : Nat} {next : Thread} (hc : c ∈ cfg.online)
    (haff : s.affinity next c = true) (hcalls : CallsOk (schedSwitch cfg s c next))
    (hone : OneCore cfg (schedSwitch cfg s c next)) : GrantInv cfg (schedSwitch cfg s c next) := by
  have hrunning : ∀ c', (schedSwitch cfg s c next).running c' =
      if c' = c then next else s.running c' := fun c' => Function.update_apply _ _ _ _
  -- the sched_in notifier applies the bit for an enabled node
  have hcov : (∃ f, s.onList f = some next ∧ s.enabled f = true) →
      controlBit cfg ((schedSwitch cfg s c next).regs c) = true := by
    rintro ⟨f, hl, hen⟩
    have hany : (s.notifiers next).any s.enabled = true :=
      List.any_eq_true.mpr ⟨f, (h.calls.lists.mem next f).mpr hl, hen⟩
    have hel := h.confined next (Or.inl ⟨f, hl, hen⟩) c hc haff
    rw [controlBit_schedSwitch, if_pos rfl, hany, hel]
    exact Bool.or_true _
  refine ⟨hcalls, hone, fun t => ?_, h.granted, h.settled, h.confined, fun c' hc' hpl => ?_,
    fun c' hc' f hl hen hne => ?_⟩
  · exact (h.place t).of_same (fun _ _ => ⟨rfl, rfl, fun _ => rfl⟩) fun _ h₁ h₂ => ⟨h₁, h₂⟩
  · rw [hrunning] at hpl
    by_cases hcc : c' = c
    · rw [if_pos hcc] at hpl
      -- past `migrate` a thread is confined to eligible cores
      have hpinned : (s.pc next).pinned = true := by
        have hpl' : (s.pc next).placed = true := hpl
        cases hp : s.pc next with
        | user | disable | query | queried =>
          rw [hp] at hpl'
          cases hpl'
        | enable f q =>
          rw [hp] at hpl'
          cases q with
          | init | register | setEnabled | apply => rfl
          | checkConfirmed | checkEnabled | restrict | migrate | ret => cases hpl'
      rw [hcc]
      exact h.confined next (Or.inr hpinned) c hc haff
    · rw [if_neg hcc] at hpl
      exact h.placed c' hc' hpl
  · rw [hrunning] at hl hne
    by_cases hcc : c' = c
    · rw [if_pos hcc] at hl
      rw [hcc]
      exact hcov ⟨f, hl, hen⟩
    · rw [if_neg hcc] at hl hne
      rw [controlBit_schedSwitch, if_neg hcc]
      exact h.bit c' hc' f hl hen hne

theorem GrantInv.step [DecidableEq Thread] [DecidableEq Fd] (h : GrantInv cfg s)
    (hall : cfg.eligible = ~~~0 → ∀ c' ∈ cfg.online, oryxCoreEligible cfg c' = true)
    {e : MmEvent Thread Fd} (hused : WellUsed cfg s e) (hstep : mmStep cfg s e = some s') :
    GrantInv cfg s' := by
  have hcalls := h.calls.step hused.noOverlap hstep
  have hone := h.one.step h.calls.lists.broken hstep
  cases e with
  | callEnable c f =>
    obtain ⟨-, huser, rfl⟩ := enterCall_some hstep
    refine h.goto huser ?_ rfl hcalls
    exact h.granted_of_enabled (fun t hw => hused.1 t (Pc.on_of_writes hw)) hused.2
  | callQuery c f =>
    obtain ⟨-, huser, rfl⟩ := enterCall_some hstep
    exact h.goto huser (h.granted_of_enabled hused.1 hused.2) rfl hcalls
  | callDisable c f =>
    obtain ⟨s₁, hent, rfl⟩ := Option.map_eq_some_iff.mp hstep
    obtain ⟨-, huser, rfl⟩ := enterCall_some hent
    exact h.startDisable huser hused.1 hused.2 rfl hcalls
  | callClose c f =>
    obtain ⟨s₁, hent, rfl⟩ := Option.map_eq_some_iff.mp hstep
    obtain ⟨-, huser, rfl⟩ := enterCall_some hent
    -- close is a DISABLE that ends in the release
    have hnext := h.startDisable huser hused.1 hused.2 rfl
      ⟨⟨hcalls.lists.broken, hcalls.lists.mem, hcalls.lists.nodup⟩, hcalls.alone, hcalls.mode,
        hcalls.idle⟩
    exact ⟨hcalls, hone, fun t => (hnext.place t).of_same (fun _ _ => ⟨rfl, rfl, fun _ => rfl⟩)
      fun _ h₁ h₂ => ⟨h₁, h₂⟩, hnext.granted, hnext.settled, hnext.confined, hnext.placed,
      hnext.bit⟩
  | run c fail =>
    simp only [mmStep] at hstep
    split at hstep
    · next hc => exact h.run hall hc hstep hcalls hone
    · cases hstep
  | switch c next =>
    obtain ⟨hc, haff, -, rfl⟩ := switch_some hstep
    exact h.switch hc haff hcalls hone
  | setAffinity t mask =>
    cases hstep
    refine ⟨hcalls, hone, fun t' => (h.place t').of_same (fun _ _ => ⟨rfl, rfl, fun _ => rfl⟩)
      fun _ h₁ h₂ => ⟨h₁, h₂⟩, h.granted, h.settled, fun t' hconf c' hc' hmask => ?_, h.placed,
      h.bit⟩
    -- a mask that leaves the eligible cores is not well used
    by_cases ht : t' = t
    · subst ht
      apply hused hconf c' hc'
      rw [← hmask]
      exact (congrFun (Function.update_self t' mask s.affinity) c').symm
    · apply h.confined t' hconf c' hc'
      rw [← hmask]
      exact (congrFun (Function.update_of_ne ht mask s.affinity) c').symm
  | havoc s₁ =>
    simp only [mmStep] at hstep
    rw [h.calls.lists.broken, if_neg Bool.false_ne_true] at hstep
    cases hstep

/-- **Granted threads have TSO** in a run that uses the driver well, on cores below 64 where
the grant is not limited to some. -/
theorem tsoKept_of_reaches [DecidableEq Thread] [DecidableEq Fd]
    (hcores : cfg.eligible = ~~~0 → ∀ c ∈ cfg.online, c < 64) {s₀ : MmState Thread Fd}
    (hinit : MmInit cfg s₀) (h : Reaches (mmStep cfg) (WellUsed cfg) s₀ s) : TsoKept cfg s :=
  (h.invariant (fun _ _ _ hI hok hstep =>
    hI.step (fun hel c hc => eligible_of_all hel (hcores hel c hc)) hok hstep)
    hinit.grantInv).tsoKept

end Invariant

/-! ### One core, two threads -/

section Decide

variable [Fintype Thread] [Fintype Fd] [DecidableEq Thread] [DecidableEq Fd]

instance (s : MmState Thread Fd) (t : Thread) : Decidable (Confined s t) :=
  inferInstanceAs (Decidable (_ ∨ _))

instance {cfg : MmConfig} (s : MmState Thread Fd) :
    ∀ e : MmEvent Thread Fd, Decidable (WellUsed cfg s e)
  | .callEnable c f => inferInstanceAs (Decidable ((∀ t, (s.pc t).on ≠ some f) ∧
      (s.enabled f = true → s.onList f = some (s.running c))))
  | .callQuery c f => inferInstanceAs (Decidable ((∀ t, (s.pc t).writes ≠ some f) ∧
      (s.enabled f = true → s.onList f = some (s.running c))))
  | .callDisable c f | .callClose c f => inferInstanceAs (Decidable
      ((∀ t, (s.pc t).on ≠ some f) ∧ (s.enabled f = true →
        ∀ f' ≠ f, s.onList f' = some (s.running c) → s.enabled f' = false)))
  | .setAffinity t mask => inferInstanceAs (Decidable (Confined s t →
      ∀ c ∈ cfg.online, mask c = true → oryxCoreEligible cfg c = true))
  | .run _ _ | .switch _ _ | .havoc _ => inferInstanceAs (Decidable True)

end Decide

/-- ENABLE returns 0, the core goes to the other thread and back, and QUERY reports TSO. -/
theorem tsoKept_of_reaches_query :
    ∃ s, Reaches (mmStep oneCore) (WellUsed oneCore) (loaded false) s ∧
      s.granted false false = true ∧ reportsTso (queryFlags oneCore s false) = true ∧
      TsoKept oneCore s := by
  obtain ⟨s, hs, hgranted, hreports⟩ := @exists_of_events _ _ (WellUsed oneCore) (mmStep oneCore) _
    (fun s => s.granted false false = true ∧ reportsTso (queryFlags oneCore s false) = true) _
    (.callEnable 0 false :: statements 8 ++
      [.switch 0 true, .switch 0 false, .callQuery 0 false, .run 0 0]) (loaded false) (by decide)
  have hreach := Reaches.of_events hs
  exact ⟨s, hreach, hgranted, hreports,
    tsoKept_of_reaches (fun _ c hc => by rw [List.mem_singleton.mp hc]; decide)
      (mmInit_loaded false) hreach⟩

/-- A second thread enables the fd: ENABLE returns 0 and the bit is clear. -/
theorem not_tsoKept_shared :
    MmInit oneCore (loaded false) ∧
      ∃ s, Reaches (mmStep oneCore) (fun _ _ => True) (loaded false) s ∧ ¬ TsoKept oneCore s := by
  obtain ⟨s, hs, hgranted, hpc, hrunning, hbit⟩ := @exists_of_events _ _ (fun _ _ => True)
    (mmStep oneCore) _
    (fun s => s.granted true false = true ∧ s.pc true = .user ∧ s.running 0 = true ∧
      controlBit oneCore (s.regs 0) = false) _
    (.callEnable 0 false :: statements 8 ++ .switch 0 true :: .callEnable 0 false ::
      statements 3) (loaded false) (by decide)
  refine ⟨mmInit_loaded false, s, Reaches.of_events hs, fun hkept => ?_⟩
  have hset := hkept.granted true false hgranted hpc 0 (List.mem_singleton.mpr rfl) hrunning
  rw [hbit] at hset
  cases hset

end Oryx
