/-
Oryx/Unconfirmed.lean

The driver on hardware whose control bit is not confirmed.

`oryx_enable` turns every caller away with `-ENODEV`, so nothing of the driver
ever runs that writes a register: `Inert` holds in every state, whoever calls
and however the calls overlap (`unconfirmed_inert`).  The library passes the
refusal on: no thread comes out of `oryx_mm_thread_tso_on` with an fd
(`unconfirmed_refused`).
-/
import Oryx.MmClient

namespace Oryx

variable {Thread Fd : Type}

/-! ### No confirmed bit -/

/-- Where a thread can be in the driver when no call gets past `oryx_confirmed`. -/
def Pc.turnedAway : Pc Fd → Prop
  | .enable _ .checkConfirmed | .disable _ .checkEnabled | .disable _ .ret => True
  | .enable _ (.ret rc) => rc = mmErrNoDev
  | .enable _ _ | .disable _ _ => False
  | .queried _ flags => reportsTso flags = false
  | .user | .query _ => True

/-- The driver does nothing to the cores. -/
structure Inert (regs : Nat → CoreRegs) (m : MmState Thread Fd) : Prop where
  regs : m.regs = regs
  enabled : ∀ f, m.enabled f = false
  notifiers : ∀ t, m.notifiers t = []
  granted : ∀ t f, m.granted t f = false
  broken : m.broken = false
  pc : ∀ t, (m.pc t).turnedAway

section Unconfirmed

variable [DecidableEq Thread] [DecidableEq Fd] {cfg : MmConfig} {regs : Nat → CoreRegs}
  {m m' : MmState Thread Fd}

omit [DecidableEq Fd] in
theorem Inert.goto (h : Inert regs m) (t : Thread) {q : Pc Fd} (hq : q.turnedAway) :
    Inert regs (m.goto t q) where
  regs := h.regs
  enabled := h.enabled
  notifiers := h.notifiers
  granted := h.granted
  broken := h.broken
  pc := by
    intro t'
    by_cases ht : t' = t
    · subst ht
      rw [goto_pc]
      exact hq
    · rw [goto_pc_of_ne ht]
      exact h.pc t'

theorem Inert.run (h : Inert regs m) (hconf : cfg.confirmed = 0) {c : Nat} {t : Thread}
    {fail : CInt} (hrun : runStatement cfg m c t fail = some m') : Inert regs m' := by
  have hpc := h.pc t
  unfold runStatement at hrun
  cases hp : m.pc t with
  | user =>
    rw [hp] at hrun
    cases hrun
  | enable f q =>
    rw [hp] at hrun hpc
    cases hrun
    cases q with
    | checkConfirmed =>
      rw [oryxEnable, if_pos hconf]
      exact h.goto t rfl
    | ret rc =>
      have hrc : rc ≠ 0 := by
        rw [show rc = mmErrNoDev from hpc]
        decide
      rw [oryxEnable, if_neg hrc]
      exact h.goto t trivial
    | checkEnabled | restrict | migrate | init | register | setEnabled | apply => cases hpc
  | disable f q =>
    rw [hp] at hrun hpc
    cases hrun
    cases q with
    | checkEnabled =>
      rw [oryxDisable, h.enabled, if_neg Bool.false_ne_true]
      exact h.goto t trivial
    | ret =>
      have hnext := h.goto t (q := .user) trivial
      exact ⟨hnext.regs, hnext.enabled, hnext.notifiers, hnext.granted, hnext.broken, hnext.pc⟩
    | clearEnabled | unregister | apply => cases hpc
  | query f =>
    rw [hp] at hrun
    cases hrun
    refine h.goto t ?_
    show reportsTso (queryFlags cfg m f) = false
    rw [reportsTso_queryFlags, h.enabled]
  | queried f flags =>
    rw [hp] at hrun
    cases hrun
    exact h.goto t trivial

omit [DecidableEq Thread] in
/-- Nothing is granted, so nothing is taken back. -/
theorem Inert.revoke (h : Inert regs m) (f : Fd) : Inert regs (m.revoke f) where
  regs := h.regs
  enabled := h.enabled
  notifiers := h.notifiers
  granted := by
    intro t f'
    show (if f' = f then false else m.granted t f') = false
    rw [h.granted, ite_self]
  broken := h.broken
  pc := h.pc

omit [DecidableEq Thread] [DecidableEq Fd] in
theorem Inert.switch (h : Inert regs m) (c : Nat) (next : Thread) :
    Inert regs (schedSwitch cfg m c next) where
  regs := by
    -- the lists are empty, so no notifier fires
    have hsame : schedSwitch cfg m c next =
        { m with
          running := Function.update m.running c next
          regs := Function.update m.regs c (m.regs c) } := by
      unfold schedSwitch
      rw [h.notifiers, h.notifiers]
      rfl
    rw [hsame]
    exact (Function.update_eq_self c m.regs).trans h.regs
  enabled := h.enabled
  notifiers := h.notifiers
  granted := h.granted
  broken := h.broken
  pc := h.pc

theorem Inert.step (h : Inert regs m) (hconf : cfg.confirmed = 0) {e : MmEvent Thread Fd}
    (hstep : mmStep cfg m e = some m') : Inert regs m' := by
  cases e with
  | callEnable c f =>
    obtain ⟨-, -, rfl⟩ := enterCall_some hstep
    exact h.goto _ trivial
  | callQuery c f =>
    obtain ⟨-, -, rfl⟩ := enterCall_some hstep
    exact h.goto _ trivial
  | callDisable c f =>
    obtain ⟨m₁, hent, rfl⟩ := Option.map_eq_some_iff.mp hstep
    obtain ⟨-, -, rfl⟩ := enterCall_some hent
    exact (h.goto _ (q := .disable f .checkEnabled) trivial).revoke f
  | callClose c f =>
    obtain ⟨m₁, hent, rfl⟩ := Option.map_eq_some_iff.mp hstep
    obtain ⟨-, -, rfl⟩ := enterCall_some hent
    have hnext := (h.goto (m.running c) (q := .disable f .checkEnabled) trivial).revoke f
    exact ⟨hnext.regs, hnext.enabled, hnext.notifiers, hnext.granted, hnext.broken, hnext.pc⟩
  | run c fail =>
    simp only [mmStep] at hstep
    split at hstep
    · exact h.run hconf hstep
    · cases hstep
  | switch c next =>
    obtain ⟨-, -, -, rfl⟩ := switch_some hstep
    exact h.switch c next
  | setAffinity t mask =>
    cases hstep
    exact ⟨h.regs, h.enabled, h.notifiers, h.granted, h.broken, h.pc⟩
  | havoc m₁ =>
    simp only [mmStep] at hstep
    rw [h.broken, if_neg Bool.false_ne_true] at hstep
    cases hstep

omit [DecidableEq Thread] [DecidableEq Fd] in
theorem MmInit.inert (h : MmInit cfg m) : Inert m.regs m where
  regs := rfl
  enabled := h.enabled
  notifiers := h.notifiers
  granted := h.granted
  broken := h.broken
  pc := by
    intro t
    rw [h.pc]
    trivial

/-- **Fail closed**: with no confirmed control bit no use of the driver, however its calls
overlap and whoever shares an fd, writes a register, grants TSO or reports it. -/
theorem unconfirmed_inert (hconf : cfg.confirmed = 0) {m₀ : MmState Thread Fd}
    (hinit : MmInit cfg m₀) (h : Reaches (mmStep cfg) (fun _ _ => True) m₀ m) :
    Inert m₀.regs m :=
  h.invariant (fun _ _ _ hI _ hstep => hI.step hconf hstep) hinit.inert

/-- `oneCore` without its confirmed bit. -/
def noBit : MmConfig := { oneCore with confirmed := 0 }

theorem mmInit_loaded_noBit (first : Bool) : MmInit noBit (loaded first) :=
  have h := mmInit_loaded first
  ⟨h.running, h.bits, h.pc, h.enabled, h.notifiers, h.onList, h.broken, h.holds, h.granted⟩

/-- Both threads call ENABLE on one fd, the first is about to return with `-ENODEV`. -/
theorem unconfirmed_inert_shared :
    ∃ m, Reaches (mmStep noBit) (fun _ _ => True) (loaded false) m ∧
      m.pc false = .enable false (.ret mmErrNoDev) ∧
      m.pc true = .enable false .checkConfirmed ∧ Inert (loaded false).regs m := by
  obtain ⟨m, hm, hfirst, hsecond⟩ := @exists_of_events _ _ (fun _ _ => True) (mmStep noBit) _
    (fun m => m.pc false = .enable false (.ret mmErrNoDev) ∧
      m.pc true = .enable false .checkConfirmed) _
    [.callEnable 0 false, .run 0 0, .switch 0 true, .callEnable 0 false] (loaded false) (by decide)
  have hreach := Reaches.of_events hm
  exact ⟨m, hreach, hfirst, hsecond, unconfirmed_inert rfl (mmInit_loaded_noBit false) hreach⟩

/-! ### The library without the bit -/

/-- Where a thread can be in the library when no ENABLE succeeds. -/
def ClientPc.refused : ClientPc Fd → Prop
  | .outside | .opened _ | .turningOn _ | .givingUp _ | .closing _ => True
  | .held _ _ | .enabling _ _ | .querying _ _ | .disabling _ => False

omit [DecidableEq Thread] [DecidableEq Fd] in
theorem refused_afterCall {p : ClientPc Fd} {q : Pc Fd} (hp : p.refused) (hq : q.turnedAway) :
    (p.afterCall q).refused := by
  unfold ClientPc.afterCall
  split
  · next f _ rc =>
    have hrc : ClientPc.oryxMmEnableTso rc ≠ 0 := by
      rw [show rc = mmErrNoDev from hq]
      decide
    rw [if_pos hrc]
    trivial
  · cases hp
  · cases hp
  · cases hp
  · trivial
  · exact hp

/-- The driver does nothing, and no thread is past ENABLE in the library. -/
structure ClientRefused (regs : Nat → CoreRegs) (s : ClientState Thread Fd) : Prop where
  kernel : Inert regs s.kernel
  pc : ∀ t, (s.pc t).refused

variable {s s' : ClientState Thread Fd}

omit [DecidableEq Fd] in
/-- One thread goes on in the library, the driver does one step. -/
theorem ClientRefused.update (h : ClientRefused regs s) {k : MmState Thread Fd}
    (hk : Inert regs k) (t : Thread) {p : ClientPc Fd} (hp : p.refused) :
    ClientRefused regs { s with kernel := k, pc := Function.update s.pc t p } where
  kernel := hk
  pc := by
    intro t'
    show (Function.update s.pc t p t').refused
    by_cases ht : t' = t
    · subst ht
      rw [Function.update_self]
      exact hp
    · rw [Function.update_of_ne ht]
      exact h.pc t'

theorem ClientRefused.call (h : ClientRefused regs s) (hconf : cfg.confirmed = 0) {c : Nat}
    {start : ClientPc Fd → Option (Fd × ClientPc Fd)} {call : Nat → Fd → MmEvent Thread Fd}
    (hstart : ∀ {p f p'}, ClientPc.refused p → start p = some (f, p') → p'.refused)
    (hcall : clientCall cfg s c start call = some s') : ClientRefused regs s' := by
  obtain ⟨f, p, k, hs, hk, rfl⟩ := clientCall_some hcall
  exact h.update (h.kernel.step hconf hk) _ (hstart (h.pc _) hs)

theorem ClientRefused.step (h : ClientRefused regs s) (hconf : cfg.confirmed = 0)
    {e : ClientEvent Thread Fd} (hstep : clientStep cfg s e = some s') :
    ClientRefused regs s' := by
  cases e with
  | openDevice c fd =>
    simp only [clientStep] at hstep
    split at hstep
    · cases fd with
      | none =>
        cases hstep
        exact h
      | some f =>
        have hopen : oryxMmOpen s (s.kernel.running c) f = some s' := hstep
        unfold oryxMmOpen at hopen
        split at hopen
        · cases hopen
        · cases hopen
          have hnext := h.update h.kernel (s.kernel.running c) (p := .opened f) trivial
          exact ⟨hnext.kernel, hnext.pc⟩
    · cases hstep
  | enable c =>
    refine h.call hconf ?_ hstep
    intro p f p' hp hs
    cases p with
    | opened =>
      cases hs
      trivial
    | held => cases hp
    | outside | turningOn | givingUp | enabling | querying | disabling | closing => cases hs
  -- a thread without an fd that is on makes no other call but close
  | query c =>
    refine h.call hconf ?_ hstep
    intro p f p' hp hs
    cases p with
    | held => cases hp
    | outside | opened | turningOn | givingUp | enabling | querying | disabling | closing =>
      cases hs
  | disable c =>
    refine h.call hconf ?_ hstep
    intro p f p' hp hs
    cases p with
    | held => cases hp
    | outside | opened | turningOn | givingUp | enabling | querying | disabling | closing =>
      cases hs
  | close c =>
    refine h.call hconf ?_ hstep
    intro p f p' hp hs
    cases p with
    | givingUp =>
      cases hs
      trivial
    | held => cases hp
    | outside | opened | turningOn | enabling | querying | disabling | closing => cases hs
  | run c fail =>
    obtain ⟨k, hk, rfl⟩ := Option.map_eq_some_iff.mp hstep
    exact h.update (h.kernel.step hconf hk) _
      (refused_afterCall (h.pc _) (h.kernel.pc (s.kernel.running c)))
  | switch c next =>
    obtain ⟨k, hk, rfl⟩ := Option.map_eq_some_iff.mp hstep
    exact ⟨h.kernel.step hconf hk, h.pc⟩
  | setAffinity t mask =>
    cases hstep
    exact ⟨⟨h.kernel.regs, h.kernel.enabled, h.kernel.notifiers, h.kernel.granted,
      h.kernel.broken, h.kernel.pc⟩, h.pc⟩

end Unconfirmed

end Oryx
