/-
Oryx/NoLeak.lean

TSO and the other threads: when a thread without a grant may run on a core
whose control bit is set.

`oryx_disable` clears `g->enabled` first, unlinks the notifier next, and
clears the control bit last.  A thread that loses its core in between takes
the grant with it and leaves the bit: `oryx_sched_out` sees no grant, or is
not called at all.  In every run with one fd a thread in which no switch hands
a set bit over in that window, the bit is clear wherever a thread without a
grant runs; and the first switch that hands one to such a thread leaves it set
there (`noLeak_of_reaches`).
-/
import Oryx.DriverCalls

namespace Oryx

variable {Thread Fd : Type}

/-! ### The property and the condition -/

/-- Every call of a thread is on its own fd. -/
def OwnFd (fd : Thread → Fd) (s : MmState Thread Fd) : MmEvent Thread Fd → Prop
  | .callEnable c f | .callDisable c f | .callClose c f | .callQuery c f => f = fd (s.running c)
  | _ => True

/-- Where a thread without a grant runs, the control bit is clear. -/
def NoLeak (cfg : MmConfig) (s : MmState Thread Fd) : Prop :=
  ∀ c ∈ cfg.online, (∀ f, s.holds (s.running c) f = false) → controlBit cfg (s.regs c) = false

/-- The thread has TSO enabled, or is in `oryx_disable` and still to clear the bit. -/
def Covered (fd : Thread → Fd) (s : MmState Thread Fd) (t : Thread) : Prop :=
  s.enabled (fd t) = true ∨ (s.pc t).leaving = true

/-- No set bit is handed over by a thread in `oryx_disable` after `g->enabled = false` and before
`oryx_apply(false)`, to a thread that is not covered. -/
def NoHandOver (cfg : MmConfig) (fd : Thread → Fd) (s : MmState Thread Fd) :
    MmEvent Thread Fd → Prop
  | .switch c next =>
      (s.pc (s.running c)).leaving = true → controlBit cfg (s.regs c) = true → Covered fd s next
  | _ => True

/-! ### The invariant -/

/-- Each thread keeps to its own fd, and a bit that is set covers the thread that runs. -/
structure LeakInv (cfg : MmConfig) (fd : Thread → Fd) (s : MmState Thread Fd) : Prop where
  calls : CallsOk s
  one : OneCore cfg s
  own : ∀ t f, (s.pc t).on = some f → f = fd t
  list : ∀ t f, s.onList f = some t → f = fd t
  holds : ∀ t, Covered fd s t → s.holds t (fd t) = true
  bit : ∀ c ∈ cfg.online, controlBit cfg (s.regs c) = true → Covered fd s (s.running c)

section Invariant

variable {cfg : MmConfig} {fd : Thread → Fd} {s s' : MmState Thread Fd}

theorem LeakInv.noLeak (h : LeakInv cfg fd s) : NoLeak cfg s := by
  intro c hc hfree
  cases hb : controlBit cfg (s.regs c) with
  | false => rfl
  | true =>
    have hholds := h.holds _ (h.bit c hc hb)
    rw [hfree] at hholds
    cases hholds

theorem MmInit.leakInv (h : MmInit cfg s) : LeakInv cfg fd s where
  calls := h.callsOk
  one := h.running
  own := by
    intro t f hon
    rw [h.pc] at hon
    cases hon
  list := by
    intro t f hl
    rw [h.onList] at hl
    cases hl
  holds := by
    rintro t (hen | hl)
    · rw [h.enabled] at hen
      cases hen
    · rw [h.pc] at hl
      cases hl
  bit := by
    intro c hc hb
    rw [h.bits c hc] at hb
    cases hb

/-- A grant has its notifier in a list. -/
theorem CallsOk.linked (h : CallsOk s) {f : Fd} (hen : s.enabled f = true) :
    ∃ t, s.onList f = some t := by
  apply Option.isSome_iff_exists.mp
  by_cases hw : ∃ t, (s.pc t).writes = some f
  · -- by the statement the writing call is at
    obtain ⟨t, ht⟩ := hw
    have hmode := h.mode t f (Pc.on_of_writes ht)
    rw [hen] at hmode
    cases hp : s.pc t with
    | user | query | queried =>
      rw [hp] at hmode
      exact hmode.symm
    | enable f' p =>
      rw [hp] at hmode
      cases p with
      | checkConfirmed | checkEnabled | ret => exact hmode.symm
      | restrict | migrate | init | register | setEnabled => cases hmode.1
      | apply => exact hmode.2
    | disable f' p =>
      rw [hp] at hmode
      cases p with
      | checkEnabled => exact hmode.symm
      | clearEnabled => exact hmode.2
      | unregister | apply | ret => cases hmode.1
  · -- with no call at work, enabled is linked
    rw [← h.settled fun t ht => hw ⟨t, ht⟩]
    exact hen

/-- With one fd a thread, the notifiers of a thread have a grant when its fd has. -/
theorem LeakInv.any_enabled (h : LeakInv cfg fd s) (hfd : Function.Injective fd) (t : Thread) :
    (s.notifiers t).any s.enabled = s.enabled (fd t) := by
  rw [Bool.eq_iff_iff, List.any_eq_true]
  constructor
  · rintro ⟨f, hmem, hen⟩
    rw [← h.list t f ((h.calls.lists.mem t f).mp hmem)]
    exact hen
  · intro hen
    obtain ⟨t', ht'⟩ := h.calls.linked hen
    have hsame := hfd (h.list t' (fd t) ht')
    subst hsame
    exact ⟨fd t, (h.calls.lists.mem t (fd t)).mpr ht', hen⟩

/-- Own fds do not overlap. -/
theorem LeakInv.noOverlap (h : LeakInv cfg fd s) (hfd : Function.Injective fd)
    {e : MmEvent Thread Fd} (hown : OwnFd fd s e)
    (huser : ∀ c f, e = .callEnable c f ∨ e = .callDisable c f ∨ e = .callClose c f ∨
      e = .callQuery c f → s.pc (s.running c) = .user) : NoOverlap s e := by
  have key : ∀ c f, f = fd (s.running c) → s.pc (s.running c) = .user →
      ∀ t, (s.pc t).on ≠ some f := by
    intro c f hf hpc t hon
    have hsame := hfd (hf.symm.trans (h.own t f hon))
    subst hsame
    rw [hpc] at hon
    cases hon
  cases e with
  | callEnable c f => exact key c f hown (huser c f (Or.inl rfl))
  | callDisable c f => exact key c f hown (huser c f (Or.inr (Or.inl rfl)))
  | callClose c f => exact key c f hown (huser c f (Or.inr (Or.inr (Or.inl rfl))))
  | callQuery c f =>
    exact fun t hw => key c f hown (huser c f (Or.inr (Or.inr (Or.inr rfl)))) t
      (Pc.on_of_writes hw)
  | run | switch | setAffinity | havoc => trivial

/-! ### Switches and calls -/

theorem LeakInv.switch (h : LeakInv cfg fd s) (hfd : Function.Injective fd) {c : Nat}
    {next : Thread} (hno : NoHandOver cfg fd s (.switch c next))
    (hcalls : CallsOk (schedSwitch cfg s c next)) (hone : OneCore cfg (schedSwitch cfg s c next))
    (hc : c ∈ cfg.online) : LeakInv cfg fd (schedSwitch cfg s c next) := by
  refine ⟨hcalls, hone, h.own, h.list, h.holds, fun c' hc' hb => ?_⟩
  rw [controlBit_schedSwitch, h.any_enabled hfd, h.any_enabled hfd] at hb
  show Covered fd s (Function.update s.running c next c')
  by_cases hcc : c' = c
  · subst hcc
    rw [Function.update_self]
    rw [if_pos rfl, Bool.or_eq_true, Bool.and_eq_true, Bool.and_eq_true] at hb
    rcases hb with ⟨hbit, hprev⟩ | ⟨hnext, -⟩
    · -- the bit stays: the thread that leaves is in the window
      rcases h.bit c' hc hbit with hen | hleaving
      · rw [hen] at hprev
        cases hprev
      · exact hno hleaving hbit
    · exact Or.inl hnext
  · rw [Function.update_of_ne hcc]
    rw [if_neg hcc] at hb
    exact h.bit c' hc' hb

/-- A call that starts: only the thread's place changes, to one outside the window. -/
theorem LeakInv.enter [DecidableEq Thread] (h : LeakInv cfg fd s) {c : Nat} {f : Fd} {p : Pc Fd}
    (huser : s.pc (s.running c) = .user) (hf : f = fd (s.running c)) (hp : p.on = some f)
    (hquiet : p.leaving = false) {s₁ : MmState Thread Fd}
    (hs₁ : s₁ = s.goto (s.running c) p) (hcalls : CallsOk s₁) : LeakInv cfg fd s₁ := by
  subst hs₁
  have hleaving : ∀ t, ((s.goto (s.running c) p).pc t).leaving = (s.pc t).leaving := by
    intro t
    by_cases ht : t = s.running c
    · rw [ht, goto_pc, hquiet, huser]
      rfl
    · rw [show (s.goto (s.running c) p).pc t = s.pc t from Function.update_of_ne ht _ _]
  -- a call that starts covers no thread and uncovers none
  have hcov : ∀ t, Covered fd (s.goto (s.running c) p) t ↔ Covered fd s t := by
    intro t
    rw [Covered, Covered, hleaving]
    exact Iff.rfl
  refine ⟨hcalls, h.one, fun t f' hon => ?_, h.list, fun t ht => h.holds t ((hcov t).mp ht),
    fun c' hc' hb => (hcov _).mpr (h.bit c' hc' hb)⟩
  by_cases ht : t = s.running c
  · subst ht
    rw [goto_pc, hp] at hon
    cases hon
    exact hf
  · rw [show (s.goto (s.running c) p).pc t = s.pc t from Function.update_of_ne ht _ _] at hon
    exact h.own t f' hon

/-! ### One statement -/

/-- What a thread's own statements keep: covered threads hold a grant, and a set bit is
covered. -/
def Kept (cfg : MmConfig) (fd : Thread → Fd) (s : MmState Thread Fd) (c : Nat) (t : Thread) : Prop :=
  (Covered fd s t → s.holds t (fd t) = true) ∧
    (controlBit cfg (s.regs c) = true → Covered fd s t)

/-- Statements that change neither the grant nor the bit, in or out of the window as before. -/
theorem Kept.of_same {c : Nat} {t : Thread} (h : Kept cfg fd s c t)
    (hen : s'.enabled (fd t) = s.enabled (fd t)) (hpc : (s'.pc t).leaving = (s.pc t).leaving)
    (hholds : s'.holds t (fd t) = s.holds t (fd t)) (hregs : s'.regs c = s.regs c) :
    Kept cfg fd s' c t := by
  rw [Kept, Covered, hen, hpc, hholds, hregs]
  exact h

variable [DecidableEq Thread] [DecidableEq Fd]

theorem kept_enable {c : Nat} {t : Thread} {fail : CInt} {p : EnablePc}
    (hpc : s.pc t = .enable (fd t) p)
    (hmode : (s.pc t).Mode (s.enabled (fd t)) (s.onList (fd t)).isSome)
    (h : Kept cfg fd s c t) : Kept cfg fd (oryxEnable cfg s c t (fd t) fail p) c t := by
  rw [hpc] at hmode
  -- an ENABLE never leaves
  have hquiet : (s.pc t).leaving = false := by
    rw [hpc]
    rfl
  have hgoto : ∀ (s₁ : MmState Thread Fd) (q : EnablePc),
      ((s₁.goto t (.enable (fd t) q)).pc t).leaving = (s.pc t).leaving := by
    intro s₁ q
    rw [goto_pc, hquiet]
    rfl
  cases p with
  | checkConfirmed | checkEnabled => exact h.of_same rfl (hgoto _ _) rfl rfl
  | restrict =>
    rw [oryxEnable]
    split
    · exact h.of_same rfl (hgoto _ _) rfl rfl
    split
    · exact h.of_same rfl (hgoto _ _) rfl rfl
    split
    · exact h.of_same rfl (hgoto _ _) rfl rfl
    · exact h.of_same rfl (hgoto s _) rfl rfl
  | migrate =>
    rw [oryxEnable]
    split
    · exact h.of_same rfl (hgoto _ _) rfl rfl
    · exact h
  | init | register => exact h.of_same rfl (hgoto _ _) rfl rfl
  -- from here on the thread is covered, and holds
  | setEnabled =>
    have hen : (oryxEnable cfg s c t (fd t) fail .setEnabled).enabled (fd t) = true :=
      Function.update_self _ _ _
    exact ⟨fun _ => if_pos ⟨rfl, rfl⟩, fun _ => Or.inl hen⟩
  -- the bit is set for a thread that is covered
  | apply =>
    have hen : (oryxEnable cfg s c t (fd t) fail .apply).enabled (fd t) = true := by
      rw [oryxEnable]
      split
      · exact hmode.1
      · exact hmode.1
    refine ⟨fun _ => ?_, fun _ => Or.inl hen⟩
    rw [oryxEnable]
    split
    · exact h.1 (Or.inl hmode.1)
    · exact h.1 (Or.inl hmode.1)
  | ret rc =>
    have huser : ∀ s₁ : MmState Thread Fd,
        ((s₁.goto t .user).pc t).leaving = (s.pc t).leaving := by
      intro s₁
      rw [goto_pc, hquiet]
      rfl
    rw [oryxEnable]
    split
    · exact h.of_same rfl (huser _) rfl rfl
    · exact h.of_same rfl (huser _) rfl rfl

theorem kept_disable {c : Nat} {t : Thread} {p : DisablePc} (hpc : s.pc t = .disable (fd t) p)
    (hmode : (s.pc t).Mode (s.enabled (fd t)) (s.onList (fd t)).isSome)
    (h : Kept cfg fd s c t) : Kept cfg fd (oryxDisable cfg s c t (fd t) p) c t := by
  rw [hpc] at hmode
  have hleaving : ∀ (s₁ : MmState Thread Fd) (q : Pc Fd),
      ((s₁.goto t q).pc t).leaving = q.leaving := by
    intro s₁ q
    rw [goto_pc]
  have hwas : (s.pc t).leaving = (Pc.disable (fd t) p).leaving := by rw [hpc]
  cases p with
  | checkEnabled =>
    refine h.of_same rfl ?_ rfl rfl
    rw [oryxDisable, hleaving, hwas]
    split
    · rfl
    · rfl
  | clearEnabled =>
    -- the window opens
    have hcov : Covered fd (oryxDisable cfg s c t (fd t) .clearEnabled) t :=
      Or.inr (hleaving _ _)
    exact ⟨fun _ => h.1 (Or.inl hmode.1), fun _ => hcov⟩
  | unregister =>
    refine h.of_same ?_ ((hleaving _ _).trans hwas.symm) ?_ ?_
    all_goals
      obtain ⟨t', ht'⟩ := Option.isSome_iff_exists.mp hmode.2
      rw [oryxDisable, preemptNotifierUnregister_of_some ht']
      rfl
  | apply =>
    -- the window closes, the bit is clear
    have hbit : controlBit cfg ((oryxDisable cfg s c t (fd t) .apply).regs c) = false := by
      apply Eq.trans (congrArg (controlBit cfg) (Function.update_self _ _ _))
      exact controlBit_apply cfg false _
    refine ⟨fun hcov => h.1 (Or.inr hwas), fun hb => ?_⟩
    rw [hbit] at hb
    cases hb
  | ret =>
    have hno : ¬ Covered fd (oryxDisable cfg s c t (fd t) .ret) t := by
      rintro (hen | hl)
      · exact Bool.false_ne_true (hmode.1.symm.trans hen)
      · rw [oryxDisable, hleaving] at hl
        cases hl
    refine ⟨fun hcov => absurd hcov hno, fun hb => ?_⟩
    rcases h.2 hb with hen | hl
    · exact absurd (hmode.1.symm.trans hen) Bool.false_ne_true
    · rw [hwas] at hl
      cases hl

theorem kept_run {c : Nat} {t : Thread} {fail : CInt}
    (hrun : runStatement cfg s c t fail = some s') (hon : (s.pc t).on = some (fd t))
    (hmode : (s.pc t).Mode (s.enabled (fd t)) (s.onList (fd t)).isSome)
    (h : Kept cfg fd s c t) : Kept cfg fd s' c t := by
  unfold runStatement at hrun
  cases hp : s.pc t with
  | user =>
    rw [hp] at hon
    cases hon
  | enable f p =>
    rw [hp] at hrun hon
    cases hon
    cases hrun
    exact kept_enable hp hmode h
  | disable f p =>
    rw [hp] at hrun hon
    cases hon
    cases hrun
    exact kept_disable hp hmode h
  | query f | queried f flags =>
    rw [hp] at hrun
    cases hrun
    refine h.of_same rfl ?_ rfl rfl
    rw [goto_pc, hp]
    rfl

/-! ### Steps -/

theorem LeakInv.run (h : LeakInv cfg fd s) (hfd : Function.Injective fd) {c : Nat} {fail : CInt}
    (hc : c ∈ cfg.online) (hrun : runStatement cfg s c (s.running c) fail = some s')
    (hcalls : CallsOk s') (hone : OneCore cfg s') : LeakInv cfg fd s' := by
  obtain ⟨f, hon⟩ := on_of_runStatement hrun
  have hf := h.own _ f hon
  subst hf
  have hmode := h.calls.mode _ _ hon
  have htouch := runStatement_touches hrun hon
  have hadv := runStatement_advances hrun hon h.calls.lists hmode
  have hkept := kept_run hrun hon hmode
    ⟨h.holds (s.running c), h.bit c hc⟩
  have hothers : ∀ t, t ≠ s.running c → (Covered fd s' t ↔ Covered fd s t) := by
    intro t ht
    rw [Covered, Covered, htouch.pc t ht, htouch.enabled (fd t) fun e => ht (hfd e)]
  refine ⟨hcalls, hone, fun t f' hon' => ?_, fun t f' hl => ?_, fun t hcov => ?_,
    fun c' hc' hb => ?_⟩
  · -- the fd of a call is the thread's own
    by_cases ht : t = s.running c
    · subst ht
      rcases hadv.next with ⟨hsame, -⟩ | huser
      · exact Option.some.inj (hon'.symm.trans hsame)
      · rw [huser] at hon'
        cases hon'
    · rw [htouch.pc t ht] at hon'
      exact h.own t f' hon'
  · -- a node is in its owner's list
    by_cases hff : f' = fd (s.running c)
    · subst hff
      rcases htouch.linked with hsame | hmine | hnone
      · rw [hsame] at hl
        exact h.list t _ hl
      · rw [hmine] at hl
        cases hl
        rfl
      · rw [hnone] at hl
        cases hl
    · rw [htouch.onList f' hff] at hl
      exact h.list t f' hl
  · -- a thread that is covered holds its grant
    by_cases ht : t = s.running c
    · subst ht
      exact hkept.1 hcov
    · rw [htouch.holds t (fd t) (Or.inl ht)]
      exact h.holds t ((hothers t ht).mp hcov)
  · -- a bit that is set covers the running thread
    rw [htouch.running]
    by_cases hcc : c' = c
    · subst hcc
      exact hkept.2 hb
    · have ht : s.running c' ≠ s.running c := fun e => hcc (h.one c' hc' c hc e)
      rw [htouch.regs c' hcc] at hb
      exact (hothers _ ht).mpr (h.bit c' hc' hb)

theorem LeakInv.step (h : LeakInv cfg fd s) (hfd : Function.Injective fd)
    {e : MmEvent Thread Fd} (hown : OwnFd fd s e) (hno : NoHandOver cfg fd s e)
    (hstep : mmStep cfg s e = some s') : LeakInv cfg fd s' := by
  -- a thread is in one call at most, and its fd is its own
  have hover : NoOverlap s e := by
    apply h.noOverlap hfd hown
    intro c f he
    rcases he with rfl | rfl | rfl | rfl
    · exact (enterCall_some hstep).2.1
    · obtain ⟨s₁, hent, -⟩ := Option.map_eq_some_iff.mp hstep
      exact (enterCall_some hent).2.1
    · obtain ⟨s₁, hent, -⟩ := Option.map_eq_some_iff.mp hstep
      exact (enterCall_some hent).2.1
    · exact (enterCall_some hstep).2.1
  have hcalls := h.calls.step hover hstep
  have hone := h.one.step h.calls.lists.broken hstep
  cases e with
  | callEnable c f | callQuery c f =>
    obtain ⟨-, huser, hs'⟩ := enterCall_some hstep
    exact h.enter huser hown rfl rfl hs' hcalls
  | callDisable c f | callClose c f =>
    obtain ⟨s₁, hent, rfl⟩ := Option.map_eq_some_iff.mp hstep
    obtain ⟨-, huser, hs₁⟩ := enterCall_some hent
    have hnext := h.enter huser hown rfl rfl hs₁
      ⟨⟨hcalls.lists.broken, hcalls.lists.mem, hcalls.lists.nodup⟩, hcalls.alone, hcalls.mode,
        hcalls.idle⟩
    exact ⟨hcalls, hone, hnext.own, hnext.list, hnext.holds, hnext.bit⟩
  | run c fail =>
    simp only [mmStep] at hstep
    split at hstep
    · next hc => exact h.run hfd hc hstep hcalls hone
    · cases hstep
  | switch c next =>
    obtain ⟨hc, -, -, rfl⟩ := switch_some hstep
    exact h.switch hfd hno hcalls hone hc
  | setAffinity t mask =>
    cases hstep
    exact ⟨hcalls, hone, h.own, h.list, h.holds, h.bit⟩
  | havoc s₁ =>
    simp only [mmStep] at hstep
    rw [h.calls.lists.broken, if_neg Bool.false_ne_true] at hstep
    cases hstep

/-- A switch that hands a set bit to a thread without a grant leaks it. -/
theorem LeakInv.leak_of_switch (hI : LeakInv cfg fd s) (hfd : Function.Injective fd) {c : Nat}
    {next : Thread} (hstep : mmStep cfg s (.switch c next) = some s')
    (hleaving : (s.pc (s.running c)).leaving = true) (hbit : controlBit cfg (s.regs c) = true)
    (hfree : ∀ f, s.holds next f = false) : ¬ NoLeak cfg s' := by
  obtain ⟨hc, -, -, rfl⟩ := switch_some hstep
  intro hno
  have hrunning : (schedSwitch cfg s c next).running c = next := Function.update_self _ _ _
  have hclear := hno c hc fun f => by
    rw [hrunning]
    exact hfree f
  -- the notifier of the thread that leaves sees no grant
  have hdisabled : s.enabled (fd (s.running c)) = false := by
    cases hp : s.pc (s.running c) with
    | user | enable | query | queried =>
      rw [hp] at hleaving
      cases hleaving
    | disable f p =>
      have hon : (s.pc (s.running c)).on = some f := by rw [hp]; rfl
      have hmode := hI.calls.mode _ f hon
      rw [← hI.own _ f hon]
      rw [hp] at hmode hleaving
      cases p with
      | checkEnabled | clearEnabled | ret => cases hleaving
      | unregister | apply => exact hmode.1
  rw [controlBit_schedSwitch, if_pos rfl, hI.any_enabled hfd, hI.any_enabled hfd, hbit,
    hdisabled] at hclear
  cases hclear

/-- **TSO does not leak** in a run in which no switch hands a set bit over, and the first switch
that hands one to a thread without a grant leaks it. -/
theorem noLeak_of_reaches (hfd : Function.Injective fd) {s₀ : MmState Thread Fd}
    (hinit : MmInit cfg s₀)
    (h : Reaches (mmStep cfg) (fun s e => OwnFd fd s e ∧ NoHandOver cfg fd s e) s₀ s) :
    NoLeak cfg s ∧ ∀ c next s', mmStep cfg s (.switch c next) = some s' →
      ¬ NoHandOver cfg fd s (.switch c next) → (∀ f, s.holds next f = false) → ¬ NoLeak cfg s' := by
  have hI : LeakInv cfg fd s :=
    h.invariant (fun _ _ _ hI hok hstep => hI.step hfd hok.1 hok.2 hstep) hinit.leakInv
  refine ⟨hI.noLeak, fun c next s' hstep hover hfree => ?_⟩
  simp only [NoHandOver, Classical.not_imp] at hover
  exact hI.leak_of_switch hfd hstep hover.1 hover.2.1 hfree

end Invariant

/-! ### One core, two threads -/

instance {fd : Thread → Fd} [DecidableEq Fd] (s : MmState Thread Fd) :
    ∀ e : MmEvent Thread Fd, Decidable (OwnFd fd s e)
  | .callEnable c f | .callDisable c f | .callClose c f | .callQuery c f =>
      inferInstanceAs (Decidable (f = fd (s.running c)))
  | .run _ _ | .switch _ _ | .setAffinity _ _ | .havoc _ => inferInstanceAs (Decidable True)

instance {fd : Thread → Fd} (s : MmState Thread Fd) (t : Thread) : Decidable (Covered fd s t) :=
  inferInstanceAs (Decidable (_ ∨ _))

instance {cfg : MmConfig} {fd : Thread → Fd} (s : MmState Thread Fd) :
    ∀ e : MmEvent Thread Fd, Decidable (NoHandOver cfg fd s e)
  | .switch c next => inferInstanceAs (Decidable
      ((s.pc (s.running c)).leaving = true → controlBit cfg (s.regs c) = true → Covered fd s next))
  | .callEnable _ _ | .callDisable _ _ | .callClose _ _ | .callQuery _ _ | .run _ _
  | .setAffinity _ _ | .havoc _ => inferInstanceAs (Decidable True)

/-- One core, a confirmed bit, no core limit. -/
def oneCore : MmConfig where
  regIdx := .actlrEl1
  bit := 1
  confirmed := 1
  eligible := ~~~0
  online := [0]

/-- The driver just loaded, `first` on the core. -/
def loaded (first : Bool) : MmState Bool Bool where
  running _ := first
  regs _ _ := 0
  affinity _ _ := true
  pc _ := .user
  enabled _ := false
  notifiers _ := []
  onList _ := none
  closed _ := false
  broken := false
  holds _ _ := false
  granted _ _ := false

theorem mmInit_loaded (first : Bool) : MmInit oneCore (loaded first) where
  running := by
    intro c hc c' hc' _
    rw [List.mem_singleton.mp hc, List.mem_singleton.mp hc']
  bits := by
    intro c hc
    show controlBit oneCore (fun _ => 0) = false
    decide
  pc _ := rfl
  enabled _ := rfl
  notifiers _ := rfl
  onList _ := rfl
  broken := rfl
  holds _ _ := rfl
  granted _ _ := rfl

/-- The thread on core 0 runs `n` statements. -/
def statements (n : Nat) : List (MmEvent Bool Bool) := List.replicate n (.run 0 0)

/-- ENABLE, DISABLE, then the core goes to the other thread. -/
theorem noLeak_of_reaches_disabled :
    ∃ s, Reaches (mmStep oneCore) (fun s e => OwnFd id s e ∧ NoHandOver oneCore id s e)
      (loaded false) s ∧ s.running 0 = true ∧ NoLeak oneCore s := by
  obtain ⟨s, hs, hrunning⟩ := @exists_of_events _ _
    (fun s e => OwnFd id s e ∧ NoHandOver oneCore id s e) (mmStep oneCore) _ (fun s => s.running 0 = true) _
    (.callEnable 0 false :: statements 8 ++ .callDisable 0 false :: statements 5 ++
      [.switch 0 true]) (loaded false) (by decide)
  have hreach := Reaches.of_events hs
  exact ⟨s, hreach, hrunning,
    (noLeak_of_reaches Function.injective_id (mmInit_loaded false) hreach).1⟩

/-- ENABLE, then DISABLE up to `g->enabled = false`, and the core goes to the other thread. -/
theorem not_noLeak_switch :
    MmInit oneCore (loaded false) ∧
      ∃ s, Reaches (mmStep oneCore) (OwnFd id) (loaded false) s ∧ ¬ NoLeak oneCore s := by
  obtain ⟨s, hs, hleak⟩ := @exists_of_events _ _ (OwnFd id) (mmStep oneCore) _
    (fun s => s.running 0 = true ∧ controlBit oneCore (s.regs 0) = true ∧
      ∀ f, s.holds (s.running 0) f = false) _
    (.callEnable 0 false :: statements 8 ++ .callDisable 0 false :: statements 2 ++
      [.switch 0 true]) (loaded false) (by decide)
  obtain ⟨-, hbit, hfree⟩ := hleak
  refine ⟨mmInit_loaded false, s, Reaches.of_events hs, fun hno => ?_⟩
  rw [hno 0 (List.mem_singleton.mpr rfl) hfree] at hbit
  cases hbit

end Oryx
