/-
Oryx/MmClient.lean

`liboryxmm`: programs that turn hardware TSO on and off through the library.

A thread opens an fd of its own in `oryx_mm_thread_tso_on`, enables TSO on it,
and closes it again if that fails; with the fd in hand it may enable, query
and disable, and at last it closes it.  All of this runs on the driver of
`Driver`, statement by statement, between the statements of the other threads.

Such a program uses the driver well (`ClientInv.step`), so a thread that holds
an fd that is on has TSO wherever it runs, and one that holds none leaves
nothing of itself in the driver (`client_tso`).
-/
import Oryx.Granted

namespace Oryx

variable {Thread Fd : Type}

/-! ### Threads in the library -/

/-- Where a thread is, and the fd it has open.  An fd is on from an ENABLE that returned 0 to the
next DISABLE. -/
inductive ClientPc (Fd : Type)
  | outside
  /-- In `oryx_mm_thread_tso_on`, behind `oryx_mm_open`. -/
  | opened (f : Fd)
  | turningOn (f : Fd)
  /-- Behind an ENABLE that failed. -/
  | givingUp (f : Fd)
  /-- The fd was returned. -/
  | held (f : Fd) (on : Bool)
  | enabling (f : Fd) (on : Bool)
  | querying (f : Fd) (on : Bool)
  | disabling (f : Fd)
  | closing (f : Fd)
  deriving DecidableEq

namespace ClientPc

def fd : ClientPc Fd → Option Fd
  | .outside => none
  | .opened f | .turningOn f | .givingUp f | .held f _ | .enabling f _ | .querying f _
  | .disabling f | .closing f => some f

def on : ClientPc Fd → Bool
  | .held _ on | .enabling _ on | .querying _ on => on
  | _ => false

/-- The callers of `oryx_mm_enable_tso`, and where they are in it. -/
def startEnable : ClientPc Fd → Option (Fd × ClientPc Fd)
  | .opened f => some (f, .turningOn f)
  | .held f on => some (f, .enabling f on)
  | _ => none

/-- `oryx_mm_query`. -/
def startQuery : ClientPc Fd → Option (Fd × ClientPc Fd)
  | .held f on => some (f, .querying f on)
  | _ => none

/-- `oryx_mm_disable`. -/
def startDisable : ClientPc Fd → Option (Fd × ClientPc Fd)
  | .held f _ => some (f, .disabling f)
  | _ => none

/-- `oryx_mm_close`. -/
def startClose : ClientPc Fd → Option (Fd × ClientPc Fd)
  | .givingUp f | .held f _ => some (f, .closing f)
  | _ => none

/-- What `oryx_mm_enable_tso` makes of the result of the ioctl. -/
def oryxMmEnableTso (rc : CInt) : CInt := if rc = 0 then 0 else -1

/-- Where a thread is after a statement of its call: a call that returns leads on. -/
def afterCall : ClientPc Fd → Pc Fd → ClientPc Fd
  | .turningOn f, .enable _ (.ret rc) =>
      if oryxMmEnableTso rc ≠ 0 then .givingUp f else .held f true
  | .enabling f on, .enable _ (.ret rc) =>
      if oryxMmEnableTso rc ≠ 0 then .held f on else .held f true
  | .querying f on, .queried _ _ => .held f on
  | .disabling f, .disable _ .ret => .held f false
  | .closing _, .disable _ .ret => .outside
  | p, _ => p

end ClientPc

/-! ### Programs -/

/-- The driver, the threads, and the fds that were ever opened. -/
structure ClientState (Thread Fd : Type) where
  kernel : MmState Thread Fd
  pc : Thread → ClientPc Fd
  opened : Fd → Bool

/-- What can happen next; the thread that acts is the one on core `c`. -/
inductive ClientEvent (Thread Fd : Type)
  /-- `oryx_mm_thread_tso_on` is called and opens the device, if it can. -/
  | openDevice (c : Nat) (fd : Option Fd)
  | enable (c : Nat)
  | query (c : Nat)
  | disable (c : Nat)
  | close (c : Nat)
  | run (c : Nat) (fail : CInt)
  | switch (c : Nat) (next : Thread)
  | setAffinity (t : Thread) (mask : Nat → Bool)

/-- User space pins threads to eligible cores only. -/
def Narrow (cfg : MmConfig) (_ : ClientState Thread Fd) : ClientEvent Thread Fd → Prop
  | .setAffinity _ mask => ∀ c ∈ cfg.online, mask c = true → oryxCoreEligible cfg c = true
  | _ => True

section Steps

variable [DecidableEq Thread] [DecidableEq Fd] (cfg : MmConfig)

/-- A call on the fd in hand. -/
def clientCall (s : ClientState Thread Fd) (c : Nat)
    (start : ClientPc Fd → Option (Fd × ClientPc Fd)) (call : Nat → Fd → MmEvent Thread Fd) :
    Option (ClientState Thread Fd) :=
  (start (s.pc (s.kernel.running c))).bind fun r =>
    (mmStep cfg s.kernel (call c r.1)).map fun k =>
      { s with kernel := k, pc := Function.update s.pc (s.kernel.running c) r.2 }

/-- `oryx_mm_open` gives an fd that nobody had before. -/
def oryxMmOpen (s : ClientState Thread Fd) (t : Thread) (f : Fd) :
    Option (ClientState Thread Fd) :=
  if s.opened f then none
  else
    some { s with
      pc := Function.update s.pc t (.opened f)
      opened := Function.update s.opened f true }

def clientStep (s : ClientState Thread Fd) :
    ClientEvent Thread Fd → Option (ClientState Thread Fd)
  | .openDevice c fd =>
      if c ∈ cfg.online ∧ s.pc (s.kernel.running c) = .outside then
        -- without an fd the function returns -1
        fd.elim (some s) (oryxMmOpen s (s.kernel.running c))
      else none
  | .enable c => clientCall cfg s c ClientPc.startEnable .callEnable
  | .query c => clientCall cfg s c ClientPc.startQuery .callQuery
  | .disable c => clientCall cfg s c ClientPc.startDisable .callDisable
  | .close c => clientCall cfg s c ClientPc.startClose .callClose
  | .run c fail =>
      let t := s.kernel.running c
      (mmStep cfg s.kernel (.run c fail)).map fun k =>
        { s with
          kernel := k
          pc := Function.update s.pc t ((s.pc t).afterCall (s.kernel.pc t)) }
  | .switch c next =>
      (mmStep cfg s.kernel (.switch c next)).map fun k => { s with kernel := k }
  | .setAffinity t mask =>
      (mmStep cfg s.kernel (.setAffinity t mask)).map fun k => { s with kernel := k }

end Steps

/-- The driver just loaded, no thread in the library. -/
structure ClientInit (cfg : MmConfig) (s : ClientState Thread Fd) : Prop where
  kernel : MmInit cfg s.kernel
  pc : ∀ t, s.pc t = .outside

/-! ### What the library keeps -/

/-- The call that a thread is in, by where it is in the library. -/
def ClientPc.CallIs : ClientPc Fd → Pc Fd → Prop
  | .outside, p | .opened _, p | .givingUp _, p | .held _ _, p => p = .user
  | .turningOn f, p | .enabling f _, p => ∃ q, p = .enable f q
  | .querying f _, p => p = .query f ∨ ∃ flags, p = .queried f flags
  | .disabling f, p | .closing f, p => ∃ q, p = .disable f q

/-- Each fd is in the hands of one thread, the driver knows the notifier of an fd on no other
thread, and a grant is an fd that is on. -/
structure ClientInv (cfg : MmConfig) (s : ClientState Thread Fd) : Prop where
  grants : GrantInv cfg s.kernel
  call : ∀ t, (s.pc t).CallIs (s.kernel.pc t)
  own : ∀ t t' f, (s.pc t).fd = some f → (s.pc t').fd = some f → t' = t
  opened : ∀ t f, (s.pc t).fd = some f → s.opened f = true
  links : ∀ t f, s.kernel.onList f = some t → (s.pc t).fd = some f
  granted : ∀ t f, s.kernel.granted t f = true ↔ (s.pc t).fd = some f ∧ (s.pc t).on = true

section Invariant

variable {cfg : MmConfig} {s s' : ClientState Thread Fd}

theorem ClientInit.clientInv (h : ClientInit cfg s) : ClientInv cfg s where
  grants := h.kernel.grantInv
  call := by
    intro t
    rw [h.pc, h.kernel.pc]
    rfl
  own := by
    intro t t' f hf
    rw [h.pc] at hf
    cases hf
  opened := by
    intro t f hf
    rw [h.pc] at hf
    cases hf
  links := by
    intro t f hl
    rw [h.kernel.onList] at hl
    cases hl
  granted := by
    intro t f
    rw [h.kernel.granted, h.pc]
    refine iff_of_false Bool.false_ne_true ?_
    rintro ⟨hf, -⟩
    cases hf

/-- A call of a thread is on its own fd. -/
theorem ClientInv.fd_of_on (h : ClientInv cfg s) {t : Thread} {f : Fd}
    (hon : (s.kernel.pc t).on = some f) : (s.pc t).fd = some f := by
  have hcall := h.call t
  cases hp : s.pc t with
  | outside | opened | givingUp | held =>
    rw [hp] at hcall
    rw [show s.kernel.pc t = .user from hcall] at hon
    cases hon
  | turningOn | enabling | disabling | closing =>
    rw [hp] at hcall
    obtain ⟨q, hq⟩ := hcall
    rw [hq] at hon
    exact hon
  | querying =>
    rw [hp] at hcall
    rcases hcall with hq | ⟨flags, hq⟩
    · rw [hq] at hon
      exact hon
    · rw [hq] at hon
      exact hon

/-- Nobody is in a call on the fd of a thread that runs its own code. -/
theorem ClientInv.no_call (h : ClientInv cfg s) {t : Thread} {f : Fd} (hf : (s.pc t).fd = some f)
    (huser : s.kernel.pc t = .user) (t' : Thread) : (s.kernel.pc t').on ≠ some f := by
  intro hon
  cases h.own t t' f hf (h.fd_of_on hon)
  rw [huser] at hon
  cases hon

/-- A grant hangs on the thread that has the fd. -/
theorem ClientInv.onList_of_enabled (h : ClientInv cfg s) {t : Thread} {f : Fd}
    (hf : (s.pc t).fd = some f) (huser : s.kernel.pc t = .user)
    (hen : s.kernel.enabled f = true) : s.kernel.onList f = some t := by
  have hsettled := h.grants.calls.settled fun t' hw => h.no_call hf huser t' (Pc.on_of_writes hw)
  rw [hen] at hsettled
  obtain ⟨t', hl⟩ := Option.isSome_iff_exists.mp hsettled.symm
  cases h.own t t' f hf (h.links t' f hl)
  exact hl

/-- The caller's list has no grant but that of its fd. -/
theorem ClientInv.only_grant (h : ClientInv cfg s) {t : Thread} {f f' : Fd}
    (hf : (s.pc t).fd = some f) (hne : f' ≠ f) : s.kernel.onList f' ≠ some t := by
  intro hl
  exact hne (Option.some.inj ((h.links t f' hl).symm.trans hf))

/-! ### Calls that start -/

theorem startEnable_some {p p' : ClientPc Fd} {f : Fd} (h : p.startEnable = some (f, p')) :
    p.fd = some f ∧ p'.fd = p.fd ∧ p'.on = p.on ∧ p'.CallIs (.enable f .checkConfirmed) := by
  cases p with
  | opened | held =>
    cases h
    exact ⟨rfl, rfl, rfl, _, rfl⟩
  | outside | turningOn | givingUp | enabling | querying | disabling | closing => cases h

theorem startQuery_some {p p' : ClientPc Fd} {f : Fd} (h : p.startQuery = some (f, p')) :
    p.fd = some f ∧ p'.fd = p.fd ∧ p'.on = p.on ∧ p'.CallIs (.query f) := by
  cases p with
  | held =>
    cases h
    exact ⟨rfl, rfl, rfl, Or.inl rfl⟩
  | outside | opened | turningOn | givingUp | enabling | querying | disabling | closing => cases h

theorem startDisable_some {p p' : ClientPc Fd} {f : Fd} (h : p.startDisable = some (f, p')) :
    p.fd = some f ∧ p'.fd = p.fd ∧ p'.on = false ∧ p'.CallIs (.disable f .checkEnabled) := by
  cases p with
  | held =>
    cases h
    exact ⟨rfl, rfl, rfl, _, rfl⟩
  | outside | opened | turningOn | givingUp | enabling | querying | disabling | closing => cases h

theorem startClose_some {p p' : ClientPc Fd} {f : Fd} (h : p.startClose = some (f, p')) :
    p.fd = some f ∧ p'.fd = p.fd ∧ p'.on = false ∧ p'.CallIs (.disable f .checkEnabled) := by
  cases p with
  | givingUp | held =>
    cases h
    exact ⟨rfl, rfl, rfl, _, rfl⟩
  | outside | opened | turningOn | enabling | querying | disabling | closing => cases h

variable [DecidableEq Thread]

/-- A thread that goes on with the fd it has changes nobody's fd. -/
theorem fd_update {t : Thread} {p : ClientPc Fd} (h : p.fd = (s.pc t).fd) (t' : Thread) :
    (Function.update s.pc t p t').fd = (s.pc t').fd := by
  by_cases ht : t' = t
  · subst ht
    rw [Function.update_self]
    exact h
  · rw [Function.update_of_ne ht]

/-- A call that starts keeps the fds in their hands. -/
theorem ClientInv.enter (h : ClientInv cfg s) {t : Thread} {p : ClientPc Fd} {q : Pc Fd}
    {k : MmState Thread Fd} (hgrants : GrantInv cfg k) (hpc : k.pc = Function.update s.kernel.pc t q)
    (hl : k.onList = s.kernel.onList) (hfd : p.fd = (s.pc t).fd) (hcall : p.CallIs q)
    (hgranted : ∀ t' f, k.granted t' f = true ↔
      (s.pc t').fd = some f ∧ (Function.update s.pc t p t').on = true) :
    ClientInv cfg { s with kernel := k, pc := Function.update s.pc t p } where
  grants := hgrants
  call := by
    intro t'
    show (Function.update s.pc t p t').CallIs (k.pc t')
    rw [hpc]
    by_cases ht : t' = t
    · subst ht
      rw [Function.update_self, Function.update_self]
      exact hcall
    · rw [Function.update_of_ne ht, Function.update_of_ne ht]
      exact h.call t'
  own := by
    intro t₁ t₂ f h₁ h₂
    exact h.own t₁ t₂ f ((fd_update hfd t₁).symm.trans h₁) ((fd_update hfd t₂).symm.trans h₂)
  opened := by
    intro t' f hf
    exact h.opened t' f ((fd_update hfd t').symm.trans hf)
  links := by
    intro t' f hl'
    exact (fd_update hfd t').trans (h.links t' f ((congrFun hl f).symm.trans hl'))
  granted := by
    intro t' f
    show k.granted t' f = true ↔
      (Function.update s.pc t p t').fd = some f ∧ (Function.update s.pc t p t').on = true
    rw [fd_update hfd]
    exact hgranted t' f

/-- ENABLE and QUERY are called with the grants as they are. -/
theorem ClientInv.granted_same (h : ClientInv cfg s) {t : Thread} {p : ClientPc Fd}
    (hon : p.on = (s.pc t).on) (t' : Thread) (f : Fd) : s.kernel.granted t' f = true ↔
      (s.pc t').fd = some f ∧ (Function.update s.pc t p t').on = true := by
  rw [h.granted]
  by_cases ht : t' = t
  · subst ht
    rw [Function.update_self, hon]
  · rw [Function.update_of_ne ht]

/-- DISABLE and close are called on the one grant the thread can have. -/
theorem ClientInv.granted_revoke [DecidableEq Fd] (h : ClientInv cfg s) {t : Thread} {f : Fd}
    {p : ClientPc Fd} (hf : (s.pc t).fd = some f) (hoff : p.on = false) (t' : Thread) (f' : Fd) :
    (s.kernel.revoke f).granted t' f' = true ↔
      (s.pc t').fd = some f' ∧ (Function.update s.pc t p t').on = true := by
  show (if f' = f then false else s.kernel.granted t' f') = true ↔ _
  by_cases ht : t' = t
  · subst ht
    rw [Function.update_self, hoff]
    refine iff_of_false ?_ (fun hon => Bool.false_ne_true hon.2)
    split
    · exact Bool.false_ne_true
    · next hne =>
      rw [h.granted]
      intro hg
      exact hne (Option.some.inj (hg.1.symm.trans hf))
  · rw [Function.update_of_ne ht]
    split
    · next hff =>
      subst hff
      refine iff_of_false Bool.false_ne_true ?_
      intro hg
      exact ht (h.own t t' f' hf hg.1)
    · exact h.granted t' f'

/-! ### Where the library calls -/

theorem in_enable {p : ClientPc Fd} {f : Fd} {q : EnablePc} (h : p.CallIs (.enable f q)) :
    p = .turningOn f ∨ ∃ on, p = .enabling f on := by
  cases p with
  | turningOn =>
    obtain ⟨q', hq⟩ := h
    cases hq
    exact Or.inl rfl
  | enabling f' on =>
    obtain ⟨q', hq⟩ := h
    cases hq
    exact Or.inr ⟨on, rfl⟩
  | outside | opened | givingUp | held => cases h
  | querying => rcases h with hq | ⟨flags, hq⟩ <;> cases hq
  | disabling | closing =>
    obtain ⟨q', hq⟩ := h
    cases hq

theorem in_disable {p : ClientPc Fd} {f : Fd} {q : DisablePc} (h : p.CallIs (.disable f q)) :
    p = .disabling f ∨ p = .closing f := by
  cases p with
  | disabling =>
    obtain ⟨q', hq⟩ := h
    cases hq
    exact Or.inl rfl
  | closing =>
    obtain ⟨q', hq⟩ := h
    cases hq
    exact Or.inr rfl
  | outside | opened | givingUp | held => cases h
  | querying => rcases h with hq | ⟨flags, hq⟩ <;> cases hq
  | turningOn | enabling =>
    obtain ⟨q', hq⟩ := h
    cases hq

theorem in_query {p : ClientPc Fd} {f : Fd} {q : Pc Fd} (h : p.CallIs q)
    (hq : q = .query f ∨ ∃ flags, q = .queried f flags) : ∃ on, p = .querying f on := by
  cases p with
  | querying f' on =>
    rcases hq with rfl | ⟨flags, rfl⟩ <;> rcases h with hq | ⟨flags', hq⟩ <;> cases hq
    · exact ⟨on, rfl⟩
    · exact ⟨on, rfl⟩
  | outside | opened | givingUp | held =>
    rcases hq with rfl | ⟨flags, rfl⟩ <;> cases h
  | turningOn | enabling | disabling | closing =>
    obtain ⟨q', rfl⟩ := h
    rcases hq with hq | ⟨flags, hq⟩ <;> cases hq

/-! ### Statements of a call -/

section Statements

variable [DecidableEq Fd] {c : Nat} {t : Thread} {f : Fd} {fail : CInt}

/-- A statement inside a call leads to the next one and grants nothing. -/
def Within (m m' : MmState Thread Fd) (t : Thread) (q : Pc Fd) : Prop :=
  m'.pc t = q ∧ m'.granted = m.granted

omit [DecidableEq Fd] in
theorem within_goto (m m' : MmState Thread Fd) (q : Pc Fd) (h : m'.granted = m.granted) :
    Within m (m'.goto t q) t q :=
  ⟨goto_pc m' q, h⟩

/-- ENABLE grants nothing before it returns. -/
theorem oryxEnable_within {m : MmState Thread Fd} {q : EnablePc} (hpc : m.pc t = .enable f q)
    (hq : ∀ rc, q ≠ .ret rc) :
    ∃ q', Within m (oryxEnable cfg m c t f fail q) t (.enable f q') := by
  cases q with
  | checkConfirmed | checkEnabled | init | register | setEnabled =>
    exact ⟨_, within_goto _ _ _ rfl⟩
  | restrict =>
    rw [oryxEnable]
    split
    · exact ⟨_, within_goto _ _ _ rfl⟩
    split
    · exact ⟨_, within_goto _ _ _ rfl⟩
    split
    · exact ⟨_, within_goto _ _ _ rfl⟩
    · exact ⟨_, goto_pc m _, rfl⟩
  | migrate =>
    rw [oryxEnable]
    split
    · exact ⟨_, within_goto _ _ _ rfl⟩
    · exact ⟨_, hpc, rfl⟩
  | apply =>
    refine ⟨_, within_goto _ _ _ ?_⟩
    split
    · rfl
    · rfl
  | ret rc => exact absurd rfl (hq rc)

/-- Nor does DISABLE, before it returns. -/
theorem oryxDisable_within {m : MmState Thread Fd} {q : DisablePc} (hq : q ≠ .ret) :
    ∃ q', Within m (oryxDisable cfg m c t f q) t (.disable f q') := by
  cases q with
  | checkEnabled | clearEnabled | apply => exact ⟨_, within_goto _ _ _ rfl⟩
  | unregister =>
    refine ⟨_, within_goto _ _ _ ?_⟩
    rw [MmState.preemptNotifierUnregister]
    split
    · rfl
    · rfl
  | ret => exact absurd rfl hq

/-- What the library knows of a thread and its fd: the call it is in, and the grant it has. -/
def ClientPc.Fits (p : ClientPc Fd) (m : MmState Thread Fd) (t : Thread) (f : Fd) : Prop :=
  p.CallIs (m.pc t) ∧ m.granted t f = p.on

omit [DecidableEq Thread] [DecidableEq Fd] in
/-- Inside a call the thread stays where it is in the library. -/
theorem Within.fits {m m' : MmState Thread Fd} {p : ClientPc Fd} {q : Pc Fd}
    (h : Within m m' t q) (hcall : p.CallIs q) (hg : m.granted t f = p.on) : p.Fits m' t f := by
  refine ⟨?_, ?_⟩
  · rw [h.1]
    exact hcall
  · rw [h.2]
    exact hg

theorem enable_fits {m : MmState Thread Fd} {p : ClientPc Fd} {q : EnablePc}
    (hpc : m.pc t = .enable f q) (h : p.Fits m t f) :
    (p.afterCall (.enable f q)).Fits (oryxEnable cfg m c t f fail q) t f := by
  obtain ⟨hcall, hg⟩ := h
  rw [hpc] at hcall
  by_cases hret : ∃ rc, q = .ret rc
  · obtain ⟨rc, rfl⟩ := hret
    by_cases hrc : rc = 0
    · subst hrc
      have hgrant : (oryxEnable cfg m c t f fail (.ret 0)).granted t f = true :=
        if_pos ⟨rfl, rfl⟩
      rcases in_enable hcall with rfl | ⟨on, rfl⟩
      · exact ⟨goto_pc _ _, hgrant⟩
      · exact ⟨goto_pc _ _, hgrant⟩
    · -- the library turns every other code into -1
      have hfail : ClientPc.oryxMmEnableTso rc ≠ 0 := by
        rw [ClientPc.oryxMmEnableTso, if_neg hrc]
        decide
      have hsame : (oryxEnable cfg m c t f fail (.ret rc)).granted t f = p.on := by
        rw [oryxEnable, if_neg hrc]
        exact hg
      have huser : (oryxEnable cfg m c t f fail (.ret rc)).pc t = .user := goto_pc _ _
      rcases in_enable hcall with rfl | ⟨on, rfl⟩
      · rw [ClientPc.afterCall, if_pos hfail]
        exact ⟨huser, hsame⟩
      · rw [ClientPc.afterCall, if_pos hfail]
        exact ⟨huser, hsame⟩
  · have hwithin : ∀ rc, q ≠ .ret rc := fun rc e => hret ⟨rc, e⟩
    have hnext : ∃ q', Within m (oryxEnable cfg m c t f fail q) t (.enable f q') :=
      oryxEnable_within hpc hwithin
    obtain ⟨q', hw⟩ := hnext
    have hstay : p.afterCall (.enable f q) = p := by
      cases q with
      | ret rc => exact absurd rfl (hwithin rc)
      | checkConfirmed | checkEnabled | restrict | migrate | init | register | setEnabled
      | apply => rcases in_enable hcall with rfl | ⟨on, rfl⟩ <;> rfl
    rw [hstay]
    refine hw.fits ?_ hg
    rcases in_enable hcall with rfl | ⟨on, rfl⟩
    · exact ⟨q', rfl⟩
    · exact ⟨q', rfl⟩

theorem disable_fits {m : MmState Thread Fd} {p : ClientPc Fd} {q : DisablePc}
    (hpc : m.pc t = .disable f q) (h : p.Fits m t f) :
    (p.afterCall (.disable f q)).Fits (oryxDisable cfg m c t f q) t f := by
  obtain ⟨hcall, hg⟩ := h
  rw [hpc] at hcall
  by_cases hret : q = .ret
  · subst hret
    rcases in_disable hcall with rfl | rfl
    · exact ⟨goto_pc _ _, hg⟩
    · exact ⟨goto_pc _ _, hg⟩
  · have hnext : ∃ q', Within m (oryxDisable cfg m c t f q) t (.disable f q') :=
      oryxDisable_within hret
    obtain ⟨q', hw⟩ := hnext
    have hstay : p.afterCall (.disable f q) = p := by
      cases q with
      | ret => exact absurd rfl hret
      | checkEnabled | clearEnabled | unregister | apply =>
        rcases in_disable hcall with rfl | rfl <;> rfl
    rw [hstay]
    refine hw.fits ?_ hg
    rcases in_disable hcall with rfl | rfl
    · exact ⟨q', rfl⟩
    · exact ⟨q', rfl⟩

/-- A call on the fd in hand goes on, or returns and takes its thread back to its own code; what
the thread holds then is what the driver granted. -/
theorem statement_fits {m m' : MmState Thread Fd} {p : ClientPc Fd}
    (hrun : runStatement cfg m c t fail = some m') (hon : (m.pc t).on = some f)
    (h : p.Fits m t f) : (p.afterCall (m.pc t)).Fits m' t f := by
  unfold runStatement at hrun
  cases hp : m.pc t with
  | user =>
    rw [hp] at hon
    cases hon
  | enable f' q =>
    rw [hp] at hrun hon
    cases hon
    cases hrun
    exact enable_fits hp h
  | disable f' q =>
    rw [hp] at hrun hon
    cases hon
    cases hrun
    exact disable_fits hp h
  | query f' =>
    rw [hp] at hrun hon
    cases hrun
    obtain ⟨hcall, hg⟩ := h
    rw [hp] at hcall
    obtain ⟨on, rfl⟩ := in_query hcall (Or.inl rfl)
    exact ⟨Or.inr ⟨_, goto_pc _ _⟩, hg⟩
  | queried f' flags =>
    rw [hp] at hrun hon
    cases hrun
    obtain ⟨hcall, hg⟩ := h
    rw [hp] at hcall
    obtain ⟨on, rfl⟩ := in_query hcall (Or.inr ⟨flags, rfl⟩)
    exact ⟨goto_pc _ _, hg⟩

omit [DecidableEq Thread] [DecidableEq Fd] in
/-- A thread keeps its fd until the close returns. -/
theorem afterCall_fd (p : ClientPc Fd) (q : Pc Fd) :
    (p.afterCall q).fd = p.fd ∨
      p.afterCall q = .outside ∧ ∃ f, q = .disable f .ret := by
  unfold ClientPc.afterCall
  split
  · split
    · exact Or.inl rfl
    · exact Or.inl rfl
  · split
    · exact Or.inl rfl
    · exact Or.inl rfl
  · exact Or.inl rfl
  · exact Or.inl rfl
  · exact Or.inr ⟨rfl, _, rfl⟩
  · exact Or.inl rfl

omit [DecidableEq Thread] [DecidableEq Fd] in
theorem fd_of_afterCall {p : ClientPc Fd} {q : Pc Fd} (h : (p.afterCall q).fd = some f) :
    p.fd = some f := by
  rcases afterCall_fd p q with hfd | ⟨hout, -⟩
  · exact hfd.symm.trans h
  · rw [hout] at h
    cases h

/-- The notifier of an fd is on the list of the thread that has the fd, before and after. -/
theorem ClientInv.linked_run (h : ClientInv cfg s) {k : MmState Thread Fd}
    (hrun : runStatement cfg s.kernel c t fail = some k) (hon : (s.kernel.pc t).on = some f)
    {t' : Thread} {f' : Fd} (hl : k.onList f' = some t') :
    (s.pc t').fd = some f' ∧ (t' = t → ((s.pc t).afterCall (s.kernel.pc t)).fd = some f') := by
  have htouch := runStatement_touches hrun hon
  have hfd := h.fd_of_on hon
  by_cases hf : f' = f
  · subst hf
    -- a statement links the notifier of its fd to its own thread only
    have ht : t' = t := by
      rcases htouch.linked with hsame | hself | hnone
      · exact h.own t t' f' hfd (h.links t' f' (hsame.symm.trans hl))
      · exact Option.some.inj (hl.symm.trans hself)
      · rw [hnone] at hl
        cases hl
    subst ht
    refine ⟨hfd, fun _ => ?_⟩
    rcases afterCall_fd (s.pc t') (s.kernel.pc t') with hkeep | ⟨-, f₁, hret⟩
    · exact hkeep.trans hfd
    -- at the return of a close the notifier is on no list
    · have hmode := h.grants.calls.mode t' f' hon
      rw [hret] at hmode
      unfold runStatement at hrun
      rw [hret] at hrun
      cases hrun
      have hfree : (s.kernel.onList f').isSome = true := by
        rw [show s.kernel.onList f' = some t' from hl]
        rfl
      exact absurd (hmode.2.symm.trans hfree) Bool.false_ne_true
  · rw [htouch.onList f' hf] at hl
    have hhad := h.links t' f' hl
    refine ⟨hhad, fun ht => ?_⟩
    subst ht
    exact absurd (Option.some.inj (hhad.symm.trans hfd)) hf

theorem ClientInv.run (h : ClientInv cfg s) {k : MmState Thread Fd} (hgrants : GrantInv cfg k)
    (hrun : runStatement cfg s.kernel c t fail = some k) :
    ClientInv cfg { s with
      kernel := k
      pc := Function.update s.pc t ((s.pc t).afterCall (s.kernel.pc t)) } := by
  obtain ⟨f, hon⟩ := on_of_runStatement hrun
  have htouch := runStatement_touches hrun hon
  have hfd := h.fd_of_on hon
  have hfits : (s.pc t).Fits s.kernel t f := by
    refine ⟨h.call t, Bool.eq_iff_iff.mpr ?_⟩
    rw [h.granted]
    exact and_iff_right hfd
  have hnext := statement_fits hrun hon hfits
  have hpc : ∀ t' ≠ t, Function.update s.pc t ((s.pc t).afterCall (s.kernel.pc t)) t' = s.pc t' :=
    fun t' ht => Function.update_of_ne ht _ _
  have hself : Function.update s.pc t ((s.pc t).afterCall (s.kernel.pc t)) t =
      (s.pc t).afterCall (s.kernel.pc t) := Function.update_self _ _ _
  -- the fds in hand are among those before
  have hback : ∀ t' f',
      (Function.update s.pc t ((s.pc t).afterCall (s.kernel.pc t)) t').fd = some f' →
        (s.pc t').fd = some f' := by
    intro t' f' hf'
    by_cases ht : t' = t
    · subst ht
      rw [hself] at hf'
      exact fd_of_afterCall hf'
    · rw [hpc t' ht] at hf'
      exact hf'
  refine ⟨hgrants, fun t' => ?_, fun t₁ t₂ f' h₁ h₂ => ?_, fun t' f' hf' => ?_,
    fun t' f' hl => ?_, fun t' f' => ?_⟩
  · by_cases ht : t' = t
    · subst ht
      show (Function.update s.pc t' _ t').CallIs (k.pc t')
      rw [hself]
      exact hnext.1
    · show (Function.update s.pc t _ t').CallIs (k.pc t')
      rw [hpc t' ht, htouch.pc t' ht]
      exact h.call t'
  · exact h.own t₁ t₂ f' (hback t₁ f' h₁) (hback t₂ f' h₂)
  · exact h.opened t' f' (hback t' f' hf')
  · obtain ⟨hhad, hmine⟩ := h.linked_run hrun hon hl
    by_cases ht : t' = t
    · show (Function.update s.pc t _ t').fd = some f'
      subst ht
      rw [hself]
      exact hmine rfl
    · show (Function.update s.pc t _ t').fd = some f'
      rw [hpc t' ht]
      exact hhad
  · show k.granted t' f' = true ↔ (Function.update s.pc t _ t').fd = some f' ∧
      (Function.update s.pc t _ t').on = true
    by_cases ht : t' = t
    · subst ht
      rw [hself]
      by_cases hf : f' = f
      · subst hf
        rw [hnext.2]
        refine ⟨fun honNext => ⟨?_, honNext⟩, fun hboth => hboth.2⟩
        rcases afterCall_fd (s.pc t') (s.kernel.pc t') with hkeep | ⟨hout, -⟩
        · exact hkeep.trans hfd
        · rw [hout] at honNext
          cases honNext
      · rw [htouch.granted t' f' (Or.inr hf), h.granted]
        have hother : (s.pc t').fd ≠ some f' :=
          fun hf' => hf (Option.some.inj (hf'.symm.trans hfd))
        exact iff_of_false (fun hg => hother hg.1) (fun hg => hother (fd_of_afterCall hg.1))
    · rw [hpc t' ht, htouch.granted t' f' (Or.inl ht)]
      exact h.granted t' f'

end Statements

/-! ### Steps -/

/-- An fd fresh from `oryx_mm_open` is in one thread's hands and knows no grant. -/
theorem ClientInv.openFd [DecidableEq Fd] (h : ClientInv cfg s) {t : Thread} {f : Fd}
    (hout : s.pc t = .outside) (hopen : oryxMmOpen s t f = some s') : ClientInv cfg s' := by
  unfold oryxMmOpen at hopen
  split at hopen
  · cases hopen
  next hfresh =>
  cases hopen
  -- nobody has the fd
  have hnone : ∀ t', (s.pc t').fd ≠ some f := fun t' hf => hfresh (h.opened t' f hf)
  have hself : Function.update s.pc t (.opened f) t = .opened f := Function.update_self _ _ _
  have hpc : ∀ t' ≠ t, Function.update s.pc t (.opened f) t' = s.pc t' :=
    fun t' ht => Function.update_of_ne ht _ _
  refine ⟨h.grants, fun t' => ?_, fun t₁ t₂ f' h₁ h₂ => ?_, fun t' f' hf' => ?_,
    fun t' f' hl => ?_, fun t' f' => ?_⟩
  · show (Function.update s.pc t (.opened f) t').CallIs (s.kernel.pc t')
    by_cases ht : t' = t
    · have huser := h.call t
      rw [hout] at huser
      rw [ht, hself]
      exact huser
    · rw [hpc t' ht]
      exact h.call t'
  · change (Function.update s.pc t (.opened f) t₁).fd = some f' at h₁
    change (Function.update s.pc t (.opened f) t₂).fd = some f' at h₂
    by_cases ht₁ : t₁ = t
    · by_cases ht₂ : t₂ = t
      · exact ht₂.trans ht₁.symm
      · rw [ht₁, hself] at h₁
        rw [hpc t₂ ht₂, ← show some f = some f' from h₁] at h₂
        exact absurd h₂ (hnone t₂)
    · rw [hpc t₁ ht₁] at h₁
      by_cases ht₂ : t₂ = t
      · rw [ht₂, hself] at h₂
        rw [← show some f = some f' from h₂] at h₁
        exact absurd h₁ (hnone t₁)
      · rw [hpc t₂ ht₂] at h₂
        exact h.own t₁ t₂ f' h₁ h₂
  · change (Function.update s.pc t (.opened f) t').fd = some f' at hf'
    show Function.update s.opened f true f' = true
    rw [Function.update_apply]
    split
    · rfl
    · next hff =>
      by_cases ht : t' = t
      · rw [ht, hself] at hf'
        exact absurd (Option.some.inj hf').symm hff
      · rw [hpc t' ht] at hf'
        exact h.opened t' f' hf'
  · have hhad := h.links t' f' hl
    show (Function.update s.pc t (.opened f) t').fd = some f'
    by_cases ht : t' = t
    · rw [ht, hout] at hhad
      cases hhad
    · rw [hpc t' ht]
      exact hhad
  · show s.kernel.granted t' f' = true ↔ (Function.update s.pc t (.opened f) t').fd = some f' ∧
      (Function.update s.pc t (.opened f) t').on = true
    rw [h.granted]
    by_cases ht : t' = t
    · rw [ht, hself, hout]
      exact iff_of_false (fun hg => Bool.false_ne_true hg.2) (fun hg => Bool.false_ne_true hg.2)
    · rw [hpc t' ht]

theorem clientCall_some [DecidableEq Fd] {c : Nat} {start : ClientPc Fd → Option (Fd × ClientPc Fd)}
    {call : Nat → Fd → MmEvent Thread Fd} (h : clientCall cfg s c start call = some s') :
    ∃ f p k, start (s.pc (s.kernel.running c)) = some (f, p) ∧
      mmStep cfg s.kernel (call c f) = some k ∧
      s' = { s with kernel := k, pc := Function.update s.pc (s.kernel.running c) p } := by
  obtain ⟨⟨f, p⟩, hstart, hcall⟩ := Option.bind_eq_some_iff.mp h
  obtain ⟨k, hk, rfl⟩ := Option.map_eq_some_iff.mp hcall
  exact ⟨f, p, k, hstart, hk, rfl⟩

/-- **The library uses the driver well**: every step of such a program keeps the invariant. -/
theorem ClientInv.step [DecidableEq Fd] (h : ClientInv cfg s)
    (hall : cfg.eligible = ~~~0 → ∀ c' ∈ cfg.online, oryxCoreEligible cfg c' = true)
    {e : ClientEvent Thread Fd} (hnarrow : Narrow cfg s e) (hstep : clientStep cfg s e = some s') :
    ClientInv cfg s' := by
  cases e with
  | openDevice c fd =>
    simp only [clientStep] at hstep
    split at hstep
    · next hc =>
      cases fd with
      | none =>
        cases hstep
        exact h
      | some f => exact h.openFd hc.2 hstep
    · cases hstep
  | enable c =>
    obtain ⟨f, p, k, hstart, hk, rfl⟩ := clientCall_some hstep
    obtain ⟨hf, hfd, hon, hcall⟩ := startEnable_some hstart
    obtain ⟨-, huser, rfl⟩ := enterCall_some hk
    have hused : WellUsed cfg s.kernel (.callEnable c f) :=
      ⟨h.no_call hf huser, h.onList_of_enabled hf huser⟩
    exact h.enter (h.grants.step hall hused hk) rfl rfl hfd hcall (h.granted_same hon)
  | query c =>
    obtain ⟨f, p, k, hstart, hk, rfl⟩ := clientCall_some hstep
    obtain ⟨hf, hfd, hon, hcall⟩ := startQuery_some hstart
    obtain ⟨-, huser, rfl⟩ := enterCall_some hk
    have hused : WellUsed cfg s.kernel (.callQuery c f) :=
      ⟨fun t hw => h.no_call hf huser t (Pc.on_of_writes hw), h.onList_of_enabled hf huser⟩
    exact h.enter (h.grants.step hall hused hk) rfl rfl hfd hcall (h.granted_same hon)
  | disable c =>
    obtain ⟨f, p, k, hstart, hk, rfl⟩ := clientCall_some hstep
    obtain ⟨hf, hfd, hoff, hcall⟩ := startDisable_some hstart
    have hkernel := hk
    obtain ⟨s₁, hent, rfl⟩ := Option.map_eq_some_iff.mp hk
    obtain ⟨-, huser, rfl⟩ := enterCall_some hent
    have hused : WellUsed cfg s.kernel (.callDisable c f) :=
      ⟨h.no_call hf huser, fun _ f' hne hl => absurd hl (h.only_grant hf hne)⟩
    exact h.enter (h.grants.step hall hused hkernel) rfl rfl hfd hcall (h.granted_revoke hf hoff)
  | close c =>
    obtain ⟨f, p, k, hstart, hk, rfl⟩ := clientCall_some hstep
    obtain ⟨hf, hfd, hoff, hcall⟩ := startClose_some hstart
    have hkernel := hk
    obtain ⟨s₁, hent, rfl⟩ := Option.map_eq_some_iff.mp hk
    obtain ⟨-, huser, rfl⟩ := enterCall_some hent
    have hused : WellUsed cfg s.kernel (.callClose c f) :=
      ⟨h.no_call hf huser, fun _ f' hne hl => absurd hl (h.only_grant hf hne)⟩
    exact h.enter (h.grants.step hall hused hkernel) rfl rfl hfd hcall (h.granted_revoke hf hoff)
  | run c fail =>
    obtain ⟨k, hk, rfl⟩ := Option.map_eq_some_iff.mp hstep
    have hused : WellUsed cfg s.kernel (.run c fail) := trivial
    have hgrants := h.grants.step hall hused hk
    simp only [mmStep] at hk
    split at hk
    · exact h.run hgrants hk
    · cases hk
  | switch c next =>
    obtain ⟨k, hk, rfl⟩ := Option.map_eq_some_iff.mp hstep
    have hused : WellUsed cfg s.kernel (.switch c next) := trivial
    have hgrants := h.grants.step hall hused hk
    obtain ⟨-, -, -, rfl⟩ := switch_some hk
    exact ⟨hgrants, h.call, h.own, h.opened, h.links, h.granted⟩
  | setAffinity t mask =>
    simp only [clientStep] at hstep
    cases hk : mmStep cfg s.kernel (.setAffinity t mask) with
    | none =>
      rw [hk] at hstep
      cases hstep
    | some k =>
    rw [hk] at hstep
    cases hstep
    have hused : WellUsed cfg s.kernel (.setAffinity t mask) := fun _ => hnarrow
    have hgrants := h.grants.step hall hused hk
    cases hk
    exact ⟨hgrants, h.call, h.own, h.opened, h.links, h.granted⟩

/-! ### What the library promises -/

/-- What holds between the library and the driver, whatever the scheduler does. -/
structure ClientTso (cfg : MmConfig) (s : ClientState Thread Fd) : Prop where
  /-- With an fd that is on, a thread runs in TSO. -/
  held : ∀ t f, s.pc t = .held f true → ∀ c ∈ cfg.online, s.kernel.running c = t →
    controlBit cfg (s.kernel.regs c) = true
  /-- `oryx_mm_query` tells a thread that it has TSO only if it has. -/
  reported : ∀ t f flags, s.kernel.pc t = .queried f flags → reportsTso flags = true →
    (s.pc t).on = true ∧ ∀ c ∈ cfg.online, s.kernel.running c = t →
      controlBit cfg (s.kernel.regs c) = true
  /-- A thread that failed to get TSO, or closed its fd, has no notifier left. -/
  outside : ∀ t, s.pc t = .outside → s.kernel.notifiers t = []
  intact : s.kernel.broken = false

omit [DecidableEq Thread] in
theorem ClientInv.tso (h : ClientInv cfg s) : ClientTso cfg s where
  held := by
    intro t f hp
    have hg : s.kernel.granted t f = true := by
      rw [h.granted, hp]
      exact ⟨rfl, rfl⟩
    have huser := h.call t
    rw [hp] at huser
    exact h.grants.tsoKept.granted t f hg huser
  reported := by
    intro t f flags hq hflags
    obtain ⟨hg, hbit⟩ := h.grants.tsoKept.reported t f flags hq hflags
    exact ⟨((h.granted t f).mp hg).2, hbit⟩
  outside := by
    intro t hp
    rw [List.eq_nil_iff_forall_not_mem]
    intro f hf
    have hfd := h.links t f ((h.grants.calls.lists.mem t f).mp hf)
    rw [hp] at hfd
    cases hfd
  intact := h.grants.calls.lists.broken

/-- **TSO through the library**: in every run of programs that use their own fds through
`liboryxmm`, on cores below 64 where the grant is not limited to some. -/
theorem client_tso [DecidableEq Fd] (hcores : cfg.eligible = ~~~0 → ∀ c ∈ cfg.online, c < 64)
    {s₀ : ClientState Thread Fd} (hinit : ClientInit cfg s₀)
    (h : Reaches (clientStep cfg) (Narrow cfg) s₀ s) : ClientTso cfg s :=
  (h.invariant (fun _ _ _ hI hok hstep =>
    hI.step (fun hel c hc => eligible_of_all hel (hcores hel c hc)) hok hstep)
    hinit.clientInv).tso

end Invariant

instance {cfg : MmConfig} (s : ClientState Thread Fd) :
    ∀ e : ClientEvent Thread Fd, Decidable (Narrow cfg s e)
  | .setAffinity _ mask => inferInstanceAs
      (Decidable (∀ c ∈ cfg.online, mask c = true → oryxCoreEligible cfg c = true))
  | .openDevice _ _ | .enable _ | .query _ | .disable _ | .close _ | .run _ _ | .switch _ _ =>
      inferInstanceAs (Decidable True)

/-- The thread gets TSO, loses the core to the other thread and has it again. -/
theorem client_tso_twoThreads :
    ∃ s, Reaches (clientStep oneCore) (Narrow oneCore)
        ⟨loaded false, fun _ => .outside, fun _ => false⟩ s ∧
      s.pc false = .held false true ∧ s.kernel.running 0 = false ∧ ClientTso oneCore s := by
  obtain ⟨s, hs, hheld, hrunning⟩ := @exists_of_events _ _ (Narrow oneCore) (clientStep oneCore) _
    (fun s => s.pc false = .held false true ∧ s.kernel.running 0 = false) _
    (.openDevice 0 (some false) :: .enable 0 :: List.replicate 8 (.run 0 0) ++
      [.switch 0 true, .openDevice 0 none, .switch 0 false])
    ⟨loaded false, fun _ => .outside, fun _ => false⟩ (by decide)
  have hreach := Reaches.of_events hs
  exact ⟨s, hreach, hheld, hrunning,
    client_tso (fun _ c hc => by rw [List.mem_singleton.mp hc]; decide)
      ⟨mmInit_loaded false, fun _ => rfl⟩ hreach⟩

end Oryx
