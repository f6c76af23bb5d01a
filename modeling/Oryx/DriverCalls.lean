/-
Oryx/DriverCalls.lean

What one statement of the driver touches, and what holds of the kernel's lists
as long as no two calls that write the same fd overlap.

* `Touches s s' c t f` is the frame of a statement that thread `t` runs on core
  `c` in a call on fd `f` (`runStatement_touches`).
* `Pc.Mode` is what the code assumes at each statement about `g->enabled` and
  about whether the notifier is linked.
* `CallsOk` collects the invariant: lists intact, calls that write an fd
  alone on it, and the mode of each call.  Every step that starts no
  overlapping call keeps it (`CallsOk.step`).
-/
import Oryx.Driver
import Mathlib.Data.List.Nodup

namespace Oryx

variable {Thread Fd : Type}

/-! ### Calls -/

/-- The fd of the call a thread is in. -/
def Pc.on : Pc Fd → Option Fd
  | .user => none
  | .enable f _ => some f
  | .disable f _ => some f
  | .query f => some f
  | .queried f _ => some f

/-- The fd that the call a thread is in may write. -/
def Pc.writes : Pc Fd → Option Fd
  | .enable f _ => some f
  | .disable f _ => some f
  | _ => none

theorem Pc.on_of_writes {p : Pc Fd} {f : Fd} (h : p.writes = some f) : p.on = some f := by
  cases p with
  | enable | disable => exact h
  | user | query | queried => cases h

/-- What a statement assumes about `g->enabled` and the links of the notifier. -/
def Pc.Mode (enabled linked : Bool) : Pc Fd → Prop
  | .enable _ .restrict | .enable _ .migrate | .enable _ .init | .enable _ .register
  | .disable _ .apply | .disable _ .ret => enabled = false ∧ linked = false
  | .enable _ .setEnabled | .disable _ .unregister => enabled = false ∧ linked = true
  | .enable _ .apply | .disable _ .clearEnabled => enabled = true ∧ linked = true
  | _ => enabled = linked

/-- Between `g->enabled = false` and the end of `oryx_apply(false)`. -/
def Pc.leaving : Pc Fd → Bool
  | .disable _ .unregister => true
  | .disable _ .apply => true
  | _ => false

/-- A statement of `t` on core `c`, in a call on `f`, leaves everything else alone. -/
structure Touches (s s' : MmState Thread Fd) (c : Nat) (t : Thread) (f : Fd) : Prop where
  running : s'.running = s.running
  regs : ∀ c' ≠ c, s'.regs c' = s.regs c'
  affinity : ∀ t' ≠ t, s'.affinity t' = s.affinity t'
  pc : ∀ t' ≠ t, s'.pc t' = s.pc t'
  enabled : ∀ f' ≠ f, s'.enabled f' = s.enabled f'
  onList : ∀ f' ≠ f, s'.onList f' = s.onList f'
  linked : s'.onList f = s.onList f ∨ s'.onList f = some t ∨ s'.onList f = none
  holds : ∀ t' f', t' ≠ t ∨ f' ≠ f → s'.holds t' f' = s.holds t' f'
  granted : ∀ t' f', t' ≠ t ∨ f' ≠ f → s'.granted t' f' = s.granted t' f'

/-- The kernel's lists are what `onList` says. -/
structure ListsIntact (s : MmState Thread Fd) : Prop where
  broken : s.broken = false
  mem : ∀ t f, f ∈ s.notifiers t ↔ s.onList f = some t
  nodup : ∀ t, (s.notifiers t).Nodup

/-- The invariant of calls that do not overlap. -/
structure CallsOk (s : MmState Thread Fd) : Prop where
  lists : ListsIntact s
  alone : ∀ t t' f, (s.pc t).writes = some f → (s.pc t').on = some f → t' = t
  mode : ∀ t f, (s.pc t).on = some f → (s.pc t).Mode (s.enabled f) (s.onList f).isSome
  idle : ∀ f, (∀ t, (s.pc t).on ≠ some f) → s.enabled f = (s.onList f).isSome

/-- The event starts no call that overlaps another on its fd, one of the two writing it. -/
def NoOverlap (s : MmState Thread Fd) : MmEvent Thread Fd → Prop
  | .callEnable _ f | .callDisable _ f | .callClose _ f => ∀ t, (s.pc t).on ≠ some f
  | .callQuery _ f => ∀ t, (s.pc t).writes ≠ some f
  | _ => True

/-! ### Lists -/

theorem ListsIntact.init {s : MmState Thread Fd} (h : ListsIntact s) {f : Fd} (hf : s.onList f = none) :
    ListsIntact (s.preemptNotifierInit f) where
  broken := by
    show (s.broken || (s.onList f).isSome) = false
    rw [h.broken, hf]
    rfl
  mem := h.mem
  nodup := h.nodup

section

variable [DecidableEq Thread] [DecidableEq Fd] {s : MmState Thread Fd}

theorem ListsIntact.register (h : ListsIntact s) {f : Fd} (hf : s.onList f = none) (t : Thread) :
    ListsIntact (s.preemptNotifierRegister t f) where
  broken := by
    -- a node that is linked twice would break the list
    show (s.broken || (s.onList f).isSome) = false
    rw [h.broken, hf]
    rfl
  mem := by
    intro t' f'
    show f' ∈ Function.update s.notifiers t (f :: s.notifiers t) t' ↔
      Function.update s.onList f (some t) f' = some t'
    by_cases hf' : f' = f
    · subst hf'
      rw [Function.update_self]
      by_cases ht : t' = t
      · subst ht
        rw [Function.update_self]
        exact iff_of_true List.mem_cons_self rfl
      · -- it is on the list of `t` and on no other
        rw [Function.update_of_ne ht, h.mem, hf]
        exact iff_of_false (fun e => nomatch e) (fun e => ht (Option.some.inj e).symm)
    · rw [Function.update_of_ne hf']
      by_cases ht : t' = t
      · subst ht
        rw [Function.update_self, List.mem_cons, h.mem]
        exact or_iff_right hf'
      · rw [Function.update_of_ne ht, h.mem]
  nodup := by
    intro t'
    show (Function.update s.notifiers t (f :: s.notifiers t) t').Nodup
    by_cases ht : t' = t
    · subst ht
      rw [Function.update_self]
      refine List.nodup_cons.mpr ⟨fun hmem => ?_, h.nodup t'⟩
      rw [h.mem, hf] at hmem
      cases hmem
    · rw [Function.update_of_ne ht]
      exact h.nodup t'

theorem preemptNotifierUnregister_of_some {f : Fd} {t : Thread} (hf : s.onList f = some t) :
    s.preemptNotifierUnregister f =
      { s with
        notifiers := Function.update s.notifiers t ((s.notifiers t).erase f)
        onList := Function.update s.onList f none } := by
  rw [MmState.preemptNotifierUnregister, hf]

theorem ListsIntact.unregister (h : ListsIntact s) {f : Fd} {t : Thread}
    (hf : s.onList f = some t) : ListsIntact (s.preemptNotifierUnregister f) := by
  rw [preemptNotifierUnregister_of_some hf]
  refine ⟨h.broken, fun t' f' => ?_, fun t' => ?_⟩
  · show f' ∈ Function.update s.notifiers t ((s.notifiers t).erase f) t' ↔
      Function.update s.onList f none f' = some t'
    by_cases hf' : f' = f
    · subst hf'
      rw [Function.update_self]
      refine iff_of_false (fun hmem => ?_) (fun e => nomatch e)
      by_cases ht : t' = t
      · subst ht
        rw [Function.update_self] at hmem
        exact (h.nodup t').not_mem_erase hmem
      · rw [Function.update_of_ne ht, h.mem, hf] at hmem
        exact ht (Option.some.inj hmem).symm
    · rw [Function.update_of_ne hf']
      by_cases ht : t' = t
      · subst ht
        rw [Function.update_self, List.mem_erase_of_ne hf', h.mem]
      · rw [Function.update_of_ne ht, h.mem]
  · show (Function.update s.notifiers t ((s.notifiers t).erase f) t').Nodup
    by_cases ht : t' = t
    · subst ht
      rw [Function.update_self]
      exact (h.nodup t').erase f
    · rw [Function.update_of_ne ht]
      exact h.nodup t'

end

/-! ### Frames -/

section Frames

variable {c : Nat} {t : Thread} {f : Fd}

theorem Touches.refl (s : MmState Thread Fd) : Touches s s c t f where
  running := rfl
  regs _ _ := rfl
  affinity _ _ := rfl
  pc _ _ := rfl
  enabled _ _ := rfl
  onList _ _ := rfl
  linked := Or.inl rfl
  holds _ _ _ := rfl
  granted _ _ _ := rfl

theorem Touches.trans {s₁ s₂ s₃ : MmState Thread Fd} (h : Touches s₁ s₂ c t f)
    (h' : Touches s₂ s₃ c t f) : Touches s₁ s₃ c t f where
  running := h'.running.trans h.running
  regs c' hc := (h'.regs c' hc).trans (h.regs c' hc)
  affinity t' ht := (h'.affinity t' ht).trans (h.affinity t' ht)
  pc t' ht := (h'.pc t' ht).trans (h.pc t' ht)
  enabled f' hf := (h'.enabled f' hf).trans (h.enabled f' hf)
  onList f' hf := (h'.onList f' hf).trans (h.onList f' hf)
  linked := by
    rcases h'.linked with hsame | hnew
    · rw [hsame]
      exact h.linked
    · exact Or.inr hnew
  holds t' f' hne := (h'.holds t' f' hne).trans (h.holds t' f' hne)
  granted t' f' hne := (h'.granted t' f' hne).trans (h.granted t' f' hne)

variable (s : MmState Thread Fd)

theorem touches_apply (cfg : MmConfig) (on : Bool) : Touches s (s.apply cfg c on) c t f :=
  { (Touches.refl s : Touches s s c t f) with regs := fun _ hc => Function.update_of_ne hc _ _ }

theorem touches_init : Touches s (s.preemptNotifierInit f) c t f := { Touches.refl s with }

theorem touches_setEnabled [DecidableEq Fd] (on : Bool) : Touches s (s.setEnabled f on) c t f :=
  { Touches.refl s with enabled := fun _ hf => Function.update_of_ne hf _ _ }

variable [DecidableEq Thread]

theorem touches_goto (p : Pc Fd) : Touches s (s.goto t p) c t f :=
  { Touches.refl s with pc := fun _ ht => Function.update_of_ne ht _ _ }

theorem touches_affinity (mask : Nat → Bool) :
    Touches s { s with affinity := Function.update s.affinity t mask } c t f :=
  { Touches.refl s with affinity := fun _ ht => Function.update_of_ne ht _ _ }

theorem goto_pc (p : Pc Fd) : (s.goto t p).pc t = p :=
  Function.update_self _ _ _

variable [DecidableEq Fd]

theorem touches_register : Touches s (s.preemptNotifierRegister t f) c t f :=
  { Touches.refl s with
    onList := fun _ hf => Function.update_of_ne hf _ _
    linked := Or.inr (Or.inl (Function.update_self _ _ _)) }

theorem touches_unregister : Touches s (s.preemptNotifierUnregister f) c t f := by
  unfold MmState.preemptNotifierUnregister
  split
  · exact { Touches.refl s with }
  · exact { Touches.refl s with
      onList := fun _ hf => Function.update_of_ne hf _ _
      linked := Or.inr (Or.inr (Function.update_self _ _ _)) }

theorem touches_grant : Touches s (s.grant t f) c t f :=
  { Touches.refl s with
    granted := fun _ _ hne => if_neg fun h => hne.elim (absurd h.1) (absurd h.2) }

theorem touches_setHolds (on : Bool) : Touches s (s.setHolds t f on) c t f :=
  { Touches.refl s with
    holds := fun _ _ hne => if_neg fun h => hne.elim (absurd h.1) (absurd h.2) }

theorem oryxEnable_touches (cfg : MmConfig) (fail : CInt) (p : EnablePc) :
    Touches s (oryxEnable cfg s c t f fail p) c t f := by
  cases p with
  | checkConfirmed | checkEnabled => exact touches_goto s _
  | restrict =>
    rw [oryxEnable]
    split
    · exact touches_goto s _
    split
    · exact touches_goto s _
    split
    · exact touches_goto s _
    · exact (touches_goto s _).trans (touches_affinity (s.goto t _) _)
  | migrate =>
    rw [oryxEnable]
    split
    · exact touches_goto s _
    · exact .refl s
  | init => exact (touches_init s).trans (touches_goto _ _)
  | register => exact (touches_register s).trans (touches_goto _ _)
  -- each statement writes its own fields and moves its thread
  | setEnabled =>
    exact ((touches_setEnabled s true).trans (touches_setHolds _ true)).trans (touches_goto _ _)
  | apply =>
    refine Touches.trans ?_ (touches_goto _ _)
    split
    · exact touches_apply s cfg true
    · exact .refl s
  | ret rc =>
    refine Touches.trans ?_ (touches_goto _ _)
    split
    · exact touches_grant s
    · exact .refl s

theorem oryxDisable_touches (cfg : MmConfig) (p : DisablePc) :
    Touches s (oryxDisable cfg s c t f p) c t f := by
  cases p with
  | checkEnabled => exact touches_goto s _
  | clearEnabled => exact (touches_setEnabled s false).trans (touches_goto _ _)
  | unregister => exact (touches_unregister s).trans (touches_goto _ _)
  | apply => exact (touches_apply s cfg false).trans (touches_goto _ _)
  | ret => exact (touches_setHolds s false).trans (touches_goto _ _)

/-- **What a statement touches**: the thread that runs it, the fd of its call and the core. -/
theorem runStatement_touches {cfg : MmConfig} {fail : CInt} {s s' : MmState Thread Fd}
    (h : runStatement cfg s c t fail = some s') (hf : (s.pc t).on = some f) :
    Touches s s' c t f := by
  unfold runStatement at h
  cases hp : s.pc t with
  | user =>
    rw [hp] at hf
    cases hf
  | enable f' p =>
    rw [hp] at h hf
    cases hf
    cases h
    exact oryxEnable_touches s cfg fail p
  | disable f' p =>
    rw [hp] at h hf
    cases hf
    cases h
    exact oryxDisable_touches s cfg p
  | query f' =>
    rw [hp] at h
    cases h
    exact touches_goto s _
  | queried f' flags =>
    rw [hp] at h
    cases h
    exact touches_goto s _

end Frames

/-! ### Modes -/

section Modes

variable {cfg : MmConfig} {s s' : MmState Thread Fd} {c : Nat} {t : Thread} {f : Fd} {fail : CInt}

/-- After a statement in the right mode the thread is in the right mode at the next one, or back
in user code. -/
structure Advances (s s' : MmState Thread Fd) (t : Thread) (f : Fd) : Prop where
  lists : ListsIntact s'
  next : (s'.pc t).on = some f ∧ (∀ f', (s'.pc t).writes = some f' → (s.pc t).writes = some f') ∨
    s'.pc t = .user
  mode : (s'.pc t).Mode (s'.enabled f) (s'.onList f).isSome

variable [DecidableEq Thread]

/-- A statement that leads to `p` advances, when it leaves the lists and the mode of `p`. -/
theorem Advances.of_goto {s₁ : MmState Thread Fd} {p : Pc Fd} (hlists : ListsIntact s₁)
    (hnext : p.on = some f ∧ (∀ f', p.writes = some f' → (s.pc t).writes = some f') ∨ p = .user)
    (hmode : p.Mode (s₁.enabled f) (s₁.onList f).isSome) : Advances s (s₁.goto t p) t f where
  lists := ⟨hlists.broken, hlists.mem, hlists.nodup⟩
  next := by
    rw [goto_pc]
    exact hnext
  mode := by
    rw [goto_pc]
    exact hmode

/-- The next statement of the same call. -/
theorem Advances.enable {s₁ : MmState Thread Fd} {p p' : EnablePc} (hpc : s.pc t = .enable f p)
    (hlists : ListsIntact s₁)
    (hmode : (Pc.enable f p').Mode (s₁.enabled f) (s₁.onList f).isSome) :
    Advances s (s₁.goto t (.enable f p')) t f := by
  refine .of_goto hlists (Or.inl ⟨rfl, fun f' hf' => ?_⟩) hmode
  rw [hpc]
  exact hf'

theorem Advances.disable {s₁ : MmState Thread Fd} {p p' : DisablePc}
    (hpc : s.pc t = .disable f p) (hlists : ListsIntact s₁)
    (hmode : (Pc.disable f p').Mode (s₁.enabled f) (s₁.onList f).isSome) :
    Advances s (s₁.goto t (.disable f p')) t f := by
  refine .of_goto hlists (Or.inl ⟨rfl, fun f' hf' => ?_⟩) hmode
  rw [hpc]
  exact hf'

variable [DecidableEq Fd]

theorem oryxEnable_advances {p : EnablePc} (hpc : s.pc t = .enable f p) (hlists : ListsIntact s)
    (hmode : (s.pc t).Mode (s.enabled f) (s.onList f).isSome) :
    Advances s (oryxEnable cfg s c t f fail p) t f := by
  -- a statement that waits leaves everything as it is
  have hstay : Advances s s t f :=
    ⟨hlists, Or.inl ⟨by rw [hpc]; rfl, fun f' hf' => hf'⟩, hmode⟩
  rw [hpc] at hmode
  cases p with
  | checkConfirmed =>
    refine .enable hpc hlists ?_
    split
    · exact hmode
    · exact hmode
  | checkEnabled =>
    refine .enable hpc hlists ?_
    cases hen : s.enabled f with
    | true => exact hen.symm.trans hmode
    | false => exact ⟨rfl, hmode.symm.trans hen⟩
  | restrict =>
    rw [oryxEnable]
    split
    · exact .enable hpc hlists hmode
    split
    · exact .enable hpc hlists (hmode.1.trans hmode.2.symm)
    split
    · exact .enable hpc hlists (hmode.1.trans hmode.2.symm)
    · -- the mask is no list
      have hmoved : ListsIntact
          { s with affinity := Function.update s.affinity t (eligibleMask cfg) } :=
        ⟨hlists.broken, hlists.mem, hlists.nodup⟩
      exact .enable hpc hmoved hmode
  | migrate =>
    rw [oryxEnable]
    split
    · exact .enable hpc hlists hmode
    · exact hstay
  | init =>
    have hfree : s.onList f = none :=
      Option.isNone_iff_eq_none.mp (Option.isSome_eq_false_iff.mp hmode.2)
    exact .enable hpc (hlists.init hfree) hmode
  -- the node was on no list, so it goes on one
  | register =>
    have hfree : s.onList f = none :=
      Option.isNone_iff_eq_none.mp (Option.isSome_eq_false_iff.mp hmode.2)
    refine .enable hpc (hlists.register hfree t) ⟨hmode.1, ?_⟩
    show (Function.update s.onList f (some t) f).isSome = true
    rw [Function.update_self]
    rfl
  | setEnabled =>
    refine .enable hpc ⟨hlists.broken, hlists.mem, hlists.nodup⟩ ⟨?_, hmode.2⟩
    exact Function.update_self _ _ _
  | apply =>
    refine .enable hpc ?_ ?_
    · split
      · exact ⟨hlists.broken, hlists.mem, hlists.nodup⟩
      · exact hlists
    · split
      · exact hmode.1.trans hmode.2.symm
      · exact hmode.1.trans hmode.2.symm
  -- back in user code no call is on the fd
  | ret rc =>
    refine .of_goto ?_ (Or.inr rfl) ?_
    · split
      · exact ⟨hlists.broken, hlists.mem, hlists.nodup⟩
      · exact hlists
    · split
      · exact hmode
      · exact hmode

theorem oryxDisable_advances {p : DisablePc} (hpc : s.pc t = .disable f p)
    (hlists : ListsIntact s) (hmode : (s.pc t).Mode (s.enabled f) (s.onList f).isSome) :
    Advances s (oryxDisable cfg s c t f p) t f := by
  rw [hpc] at hmode
  cases p with
  | checkEnabled =>
    refine .disable hpc hlists ?_
    cases hen : s.enabled f with
    | true => exact ⟨rfl, hmode.symm.trans hen⟩
    | false => exact ⟨rfl, hmode.symm.trans hen⟩
  | clearEnabled =>
    refine .disable hpc ⟨hlists.broken, hlists.mem, hlists.nodup⟩ ⟨?_, hmode.2⟩
    exact Function.update_self _ _ _
  | unregister =>
    obtain ⟨t', ht'⟩ := Option.isSome_iff_exists.mp hmode.2
    refine .disable hpc (hlists.unregister ht') ?_
    rw [preemptNotifierUnregister_of_some ht']
    refine ⟨hmode.1, ?_⟩
    show (Function.update s.onList f none f).isSome = false
    rw [Function.update_self]
    rfl
  | apply => exact .disable hpc ⟨hlists.broken, hlists.mem, hlists.nodup⟩ hmode
  | ret =>
    exact .of_goto ⟨hlists.broken, hlists.mem, hlists.nodup⟩ (Or.inr rfl)
      (hmode.1.trans hmode.2.symm)

theorem runStatement_advances (h : runStatement cfg s c t fail = some s')
    (hf : (s.pc t).on = some f) (hlists : ListsIntact s)
    (hmode : (s.pc t).Mode (s.enabled f) (s.onList f).isSome) : Advances s s' t f := by
  unfold runStatement at h
  cases hp : s.pc t with
  | user =>
    rw [hp] at h
    cases h
  | enable f' p =>
    rw [hp] at h hf
    cases hf
    cases h
    exact oryxEnable_advances hp hlists hmode
  | disable f' p =>
    rw [hp] at h hf
    cases hf
    cases h
    exact oryxDisable_advances hp hlists hmode
  | query f' =>
    rw [hp] at h hf hmode
    cases hf
    cases h
    exact .of_goto hlists (Or.inl ⟨rfl, fun f' hf' => nomatch hf'⟩) hmode
  | queried f' flags =>
    rw [hp] at h hf hmode
    cases hf
    cases h
    exact .of_goto hlists (Or.inr rfl) hmode

end Modes

/-! ### Steps -/

theorem Pc.mode_of_not_writes {p : Pc Fd} (h : p.writes = none) (e l : Bool) :
    p.Mode e l ↔ e = l := by
  cases p with
  | user | query | queried => exact Iff.rfl
  | enable | disable => cases h

section Steps

variable {s s' : MmState Thread Fd}

/-- Where no call writes an fd, it has a grant exactly when its notifier is linked. -/
theorem CallsOk.settled (h : CallsOk s) {f : Fd} (hno : ∀ t, (s.pc t).writes ≠ some f) :
    s.enabled f = (s.onList f).isSome := by
  by_cases hon : ∃ t, (s.pc t).on = some f
  · obtain ⟨t, ht⟩ := hon
    refine (Pc.mode_of_not_writes ?_ _ _).mp (h.mode t f ht)
    cases hw : (s.pc t).writes with
    | none => rfl
    | some f' =>
      have hsame := (Pc.on_of_writes hw).symm.trans ht
      cases hsame
      exact absurd hw (hno t)
  · exact h.idle f fun t ht => hon ⟨t, ht⟩

theorem MmInit.callsOk {cfg : MmConfig} (h : MmInit cfg s) : CallsOk s where
  lists := by
    refine ⟨h.broken, fun t f => ?_, fun t => ?_⟩
    · rw [h.notifiers, h.onList]
      exact iff_of_false List.not_mem_nil (fun e => nomatch e)
    · rw [h.notifiers]
      exact List.nodup_nil
  alone := by
    intro t t' f hw
    rw [h.pc] at hw
    cases hw
  mode := by
    intro t f hon
    rw [h.pc] at hon
    cases hon
  idle := by
    intro f _
    rw [h.enabled, h.onList]
    rfl

variable [DecidableEq Thread]

/-- A call that overlaps no other, one of the two writing the fd. -/
theorem CallsOk.enter (h : CallsOk s) {t : Thread} {f : Fd} {p : Pc Fd} (huser : s.pc t = .user)
    (hp : p.on = some f) (hmode : s.enabled f = (s.onList f).isSome →
      p.Mode (s.enabled f) (s.onList f).isSome)
    (hwriter : p.writes = some f → ∀ t', (s.pc t').on ≠ some f)
    (hno : ∀ t', (s.pc t').writes ≠ some f) : CallsOk (s.goto t p) where
  lists := ⟨h.lists.broken, h.lists.mem, h.lists.nodup⟩
  alone := by
    intro t₁ t₂ f' hw hon
    -- the call that starts may be the writer, the other, both or neither
    by_cases h₁ : t₁ = t
    · subst h₁
      rw [goto_pc] at hw
      have hf := hp.symm.trans (Pc.on_of_writes hw)
      cases hf
      by_cases h₂ : t₂ = t₁
      · exact h₂
      · rw [show (s.goto t₁ p).pc t₂ = s.pc t₂ from Function.update_of_ne h₂ _ _] at hon
        exact absurd hon (hwriter hw t₂)
    · rw [show (s.goto t p).pc t₁ = s.pc t₁ from Function.update_of_ne h₁ _ _] at hw
      by_cases h₂ : t₂ = t
      · subst h₂
        rw [goto_pc, hp] at hon
        cases hon
        exact absurd hw (hno t₁)
      · rw [show (s.goto t p).pc t₂ = s.pc t₂ from Function.update_of_ne h₂ _ _] at hon
        exact h.alone t₁ t₂ f' hw hon
  mode := by
    intro t' f' hon
    by_cases ht : t' = t
    · subst ht
      rw [goto_pc] at hon ⊢
      have hf := hp.symm.trans hon
      cases hf
      exact hmode (h.settled hno)
    · rw [show (s.goto t p).pc t' = s.pc t' from Function.update_of_ne ht _ _] at hon ⊢
      exact h.mode t' f' hon
  idle := by
    intro f' hidle
    apply h.idle f'
    intro t' hon
    by_cases ht : t' = t
    · subst ht
      rw [huser] at hon
      cases hon
    · apply hidle t'
      rw [show (s.goto t p).pc t' = s.pc t' from Function.update_of_ne ht _ _]
      exact hon

variable [DecidableEq Fd] {cfg : MmConfig}

/-- Only a thread in a call runs statements. -/
theorem on_of_runStatement {c : Nat} {t : Thread} {fail : CInt}
    (hrun : runStatement cfg s c t fail = some s') : ∃ f, (s.pc t).on = some f := by
  unfold runStatement at hrun
  cases hp : s.pc t with
  | user =>
    rw [hp] at hrun
    cases hrun
  | enable f | disable f | query f | queried f => exact ⟨f, rfl⟩

/-- The next statement of a call. -/
theorem CallsOk.run (h : CallsOk s) {c : Nat} {t : Thread} {fail : CInt}
    (hrun : runStatement cfg s c t fail = some s') : CallsOk s' := by
  obtain ⟨f, hf⟩ := on_of_runStatement hrun
  have htouch := runStatement_touches hrun hf
  have hadv := runStatement_advances hrun hf h.lists (h.mode t f hf)
  -- the calls in flight are among those before
  have hon : ∀ t' f', (s'.pc t').on = some f' → (s.pc t').on = some f' := by
    intro t' f' hon'
    by_cases ht : t' = t
    · subst ht
      rcases hadv.next with ⟨hsame, -⟩ | huser
      · rw [hf, ← hsame]
        exact hon'
      · rw [huser] at hon'
        cases hon'
    · rw [← htouch.pc t' ht]
      exact hon'
  have hwrites : ∀ t' f', (s'.pc t').writes = some f' → (s.pc t').writes = some f' := by
    intro t' f' hw
    by_cases ht : t' = t
    · subst ht
      rcases hadv.next with ⟨-, hsame⟩ | huser
      · exact hsame f' hw
      · rw [huser] at hw
        cases hw
    · rw [← htouch.pc t' ht]
      exact hw
  refine ⟨hadv.lists, fun t₁ t₂ f' hw hon' => h.alone t₁ t₂ f' (hwrites t₁ f' hw) (hon t₂ f' hon'),
    fun t' f' hon' => ?_, fun f' hidle => ?_⟩
  · -- the mode of a call on `f'`: the step's own, another on its fd, one on another fd
    by_cases ht : t' = t
    · subst ht
      have hsame := hf.symm.trans (hon t' f' hon')
      cases hsame
      exact hadv.mode
    by_cases hff : f' = f
    · -- two calls on the fd: neither writes it
      subst hff
      have hquiet : ∀ t₁ t₂, (s'.pc t₁).on = some f' → t₂ ≠ t₁ → (s.pc t₂).on = some f' →
          (s'.pc t₁).writes = none := by
        intro t₁ t₂ hon₁ hne hon₂
        cases hw : (s'.pc t₁).writes with
        | none => rfl
        | some f₁ =>
          have hf₁ := (Pc.on_of_writes hw).symm.trans hon₁
          cases hf₁
          exact absurd (h.alone t₁ t₂ f' (hwrites t₁ f' hw) hon₂) hne
      rw [Pc.mode_of_not_writes (hquiet t' t hon' (Ne.symm ht) hf)]
      refine (Pc.mode_of_not_writes ?_ _ _).mp hadv.mode
      rcases hadv.next with ⟨hstill, -⟩ | huser
      · exact hquiet t t' hstill ht (hon t' f' hon')
      · rw [huser]
        rfl
    · rw [htouch.pc t' ht, htouch.enabled f' hff, htouch.onList f' hff]
      exact h.mode t' f' (hon t' f' hon')
  · -- an fd without a call in flight
    by_cases hff : f' = f
    · subst hff
      rcases hadv.next with ⟨hstill, -⟩ | huser
      · exact absurd hstill (hidle t)
      · have hmode := hadv.mode
        rw [huser] at hmode
        exact hmode
    · rw [htouch.enabled f' hff, htouch.onList f' hff]
      apply h.idle f'
      intro t' hon'
      by_cases ht : t' = t
      · subst ht
        exact hff (Option.some.inj (hon'.symm.trans hf))
      · apply hidle t'
        rw [htouch.pc t' ht]
        exact hon'

theorem enterCall_some {c : Nat} {f : Fd} {p : Pc Fd} (h : enterCall cfg s c f p = some s') :
    c ∈ cfg.online ∧ s.pc (s.running c) = .user ∧ s' = s.goto (s.running c) p := by
  unfold enterCall at h
  split at h
  · next hc => exact ⟨hc.1, hc.2.1, (Option.some.inj h).symm⟩
  · cases h

/-- **Calls stay in order**: a step that starts no overlapping call keeps the invariant. -/
theorem CallsOk.step (h : CallsOk s) {e : MmEvent Thread Fd} (hno : NoOverlap s e)
    (hstep : mmStep cfg s e = some s') : CallsOk s' := by
  cases e with
  | callEnable c f =>
    obtain ⟨-, huser, rfl⟩ := enterCall_some hstep
    exact h.enter huser rfl id (fun _ => hno) fun t' hw => hno t' (Pc.on_of_writes hw)
  | callDisable c f =>
    obtain ⟨s₁, hent, rfl⟩ := Option.map_eq_some_iff.mp hstep
    obtain ⟨-, huser, rfl⟩ := enterCall_some hent
    have hnext : CallsOk (s.goto (s.running c) (.disable f .checkEnabled)) :=
      h.enter huser rfl id (fun _ => hno) fun t' hw => hno t' (Pc.on_of_writes hw)
    -- taking grants back touches neither calls nor lists
    exact ⟨⟨hnext.lists.broken, hnext.lists.mem, hnext.lists.nodup⟩, hnext.alone, hnext.mode,
      hnext.idle⟩
  | callClose c f =>
    obtain ⟨s₁, hent, rfl⟩ := Option.map_eq_some_iff.mp hstep
    obtain ⟨-, huser, rfl⟩ := enterCall_some hent
    have hnext : CallsOk (s.goto (s.running c) (.disable f .checkEnabled)) :=
      h.enter huser rfl id (fun _ => hno) fun t' hw => hno t' (Pc.on_of_writes hw)
    exact ⟨⟨hnext.lists.broken, hnext.lists.mem, hnext.lists.nodup⟩, hnext.alone, hnext.mode,
      hnext.idle⟩
  | callQuery c f =>
    obtain ⟨-, huser, rfl⟩ := enterCall_some hstep
    exact h.enter huser rfl id (fun hw => nomatch hw) hno
  | run c fail =>
    simp only [mmStep] at hstep
    split at hstep
    · exact h.run hstep
    · cases hstep
  | switch c next =>
    simp only [mmStep] at hstep
    split at hstep
    · cases hstep
      exact ⟨⟨h.lists.broken, h.lists.mem, h.lists.nodup⟩, h.alone, h.mode, h.idle⟩
    · cases hstep
  | setAffinity t mask =>
    cases hstep
    exact ⟨⟨h.lists.broken, h.lists.mem, h.lists.nodup⟩, h.alone, h.mode, h.idle⟩
  -- nothing is havoc while the lists are intact
  | havoc s₁ =>
    simp only [mmStep] at hstep
    rw [h.lists.broken, if_neg Bool.false_ne_true] at hstep
    cases hstep

/-! ### Who runs where -/

/-- No thread runs on two cores. -/
def OneCore (cfg : MmConfig) (s : MmState Thread Fd) : Prop :=
  ∀ c ∈ cfg.online, ∀ c' ∈ cfg.online, s.running c = s.running c' → c = c'

/-- What a step that gives no core to a thread leaves in place. -/
theorem running_of_step {e : MmEvent Thread Fd} (hbroken : s.broken = false)
    (hstep : mmStep cfg s e = some s') (hno : ∀ c next, e ≠ .switch c next) :
    s'.running = s.running := by
  cases e with
  | callEnable | callQuery =>
    obtain ⟨-, -, rfl⟩ := enterCall_some hstep
    rfl
  | callDisable | callClose =>
    obtain ⟨s₁, hent, rfl⟩ := Option.map_eq_some_iff.mp hstep
    obtain ⟨-, -, rfl⟩ := enterCall_some hent
    rfl
  | run c fail =>
    simp only [mmStep] at hstep
    split at hstep
    · cases hon : (s.pc (s.running c)).on with
      | some f => exact (runStatement_touches hstep hon).running
      | none =>
        cases hp : s.pc (s.running c) with
        -- a thread in user code has no statement to run
        | user =>
          rw [runStatement, hp] at hstep
          cases hstep
        | enable | disable | query | queried =>
          rw [hp] at hon
          cases hon
    · cases hstep
  | switch c next => exact absurd rfl (hno c next)
  | setAffinity t mask =>
    cases hstep
    rfl
  | havoc s₁ =>
    simp only [mmStep] at hstep
    rw [hbroken, if_neg Bool.false_ne_true] at hstep
    cases hstep

theorem switch_some {c : Nat} {next : Thread} (hstep : mmStep cfg s (.switch c next) = some s') :
    c ∈ cfg.online ∧ s.affinity next c = true ∧ (∀ c' ∈ cfg.online, s.running c' ≠ next) ∧
      s' = schedSwitch cfg s c next := by
  simp only [mmStep] at hstep
  split at hstep
  · next h => exact ⟨h.1, h.2.1, h.2.2, (Option.some.inj hstep).symm⟩
  · cases hstep

theorem OneCore.step (h : OneCore cfg s) (hbroken : s.broken = false) {e : MmEvent Thread Fd}
    (hstep : mmStep cfg s e = some s') : OneCore cfg s' := by
  by_cases hswitch : ∃ c next, e = .switch c next
  · obtain ⟨c, next, rfl⟩ := hswitch
    obtain ⟨-, -, hfree, rfl⟩ := switch_some hstep
    intro c₁ h₁ c₂ h₂ hsame
    have hrunning : ∀ c', (schedSwitch cfg s c next).running c' =
        if c' = c then next else s.running c' := fun c' => Function.update_apply _ _ _ _
    rw [hrunning, hrunning] at hsame
    split at hsame
    · next hc₁ =>
      split at hsame
      · next hc₂ => rw [hc₁, hc₂]
      · exact absurd hsame.symm (hfree c₂ h₂)
    · split at hsame
      · exact absurd hsame (hfree c₁ h₁)
      · exact h c₁ h₁ c₂ h₂ hsame
  · rw [OneCore, running_of_step hbroken hstep fun c next he => hswitch ⟨c, next, he⟩]
    exact h

end Steps

end Oryx
