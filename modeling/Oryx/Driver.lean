/-
Oryx/Driver.lean

The kernel driver `oryx_memmodel`, statement by statement, on any number of
cores, threads and fds.

* Each core has a register file and runs one thread.  `oryxApply` sets or
  clears the control bit of the core it runs on.
* A thread is in user code or at a statement of the call it made (`Pc`).  The
  scheduler may take the core from it between any two statements (`switch`);
  what runs with preemption disabled is one statement here.
* An fd has its grant (`enabled`), and the notifier of the grant is a node that
  `preempt_notifier_register` links into the list of the calling task.
  Linking a linked node, wiping one, or unlinking an unlinked one corrupts the
  kernel's lists: from then on anything may happen (`broken`, `havoc`).

Two histories stand beside the state, and no step reads them: `holds`, from
`g->enabled = true` to the return of the thread's DISABLE or close, and
`granted`, from the return of 0 to the next DISABLE or close of the fd.
-/
import Oryx.GuestIR
import Oryx.Lib.Runs
import Mathlib.Logic.Function.Basic

namespace Oryx

/-! ### The control bit -/

/-- The candidate registers of the switch in `oryx_read_reg`. -/
inductive ControlReg
  | actlrEl1
  | s3_0_c15_c0_0
  | s3_0_c15_c1_0
  | s3_0_c15_c2_0
  deriving DecidableEq, Repr

/-- The module parameters, the register and the bit being confirmed ones, and the cores of
`for_each_online_cpu`. -/
structure MmConfig where
  regIdx : ControlReg
  bit : Fin 64
  confirmed : CInt
  eligible : U64
  online : List Nat

/-- The registers of one core. -/
abbrev CoreRegs := ControlReg → U64

section Register

variable (cfg : MmConfig)

def oryxReadReg (r : CoreRegs) : U64 := r cfg.regIdx

def oryxWriteReg (v : U64) (r : CoreRegs) : CoreRegs := Function.update r cfg.regIdx v

/-- `1ULL << oryx_bit`. -/
def controlMask : U64 := (1 : U64) <<< cfg.bit.val

/-- The value `oryx_apply` wants in the register. -/
def appliedValue (on : Bool) (v : U64) : U64 :=
  if on then v ||| controlMask cfg else v &&& ~~~controlMask cfg

def oryxApply (on : Bool) (r : CoreRegs) : CoreRegs :=
  let v := oryxReadReg cfg r
  let nv := appliedValue cfg on v
  if nv ≠ v then oryxWriteReg cfg nv r else r

/-- The control bit of a core. -/
def controlBit (r : CoreRegs) : Bool := (oryxReadReg cfg r).getLsbD cfg.bit.val

def oryxCoreEligible (cpu : Nat) : Bool :=
  decide (cpu < 64) && (cfg.eligible &&& (1 : U64) <<< cpu) != 0

theorem oryxReadReg_apply (on : Bool) (r : CoreRegs) :
    oryxReadReg cfg (oryxApply cfg on r) = appliedValue cfg on (oryxReadReg cfg r) := by
  rw [oryxApply]
  split
  · exact Function.update_self _ _ _
  · next h => exact (not_not.mp h).symm

theorem getLsbD_controlMask (i : Nat) :
    (controlMask cfg).getLsbD i = decide (i = cfg.bit.val) := by
  have hbit := cfg.bit.isLt
  have hone : controlMask cfg = BitVec.twoPow 64 cfg.bit.val := by
    rw [controlMask, BitVec.twoPow_eq]
    rfl
  rw [hone, BitVec.getLsbD_twoPow, decide_eq_true hbit, Bool.true_and]
  exact decide_eq_decide.mpr eq_comm

theorem getLsbD_appliedValue (on : Bool) (v : U64) (i : Nat) :
    (appliedValue cfg on v).getLsbD i = if i = cfg.bit.val then on else v.getLsbD i := by
  have hbit := cfg.bit.isLt
  cases on with
  | true =>
    rw [appliedValue, if_pos rfl, BitVec.getLsbD_or, getLsbD_controlMask]
    split
    · next h => rw [decide_eq_true h, Bool.or_true]
    · next h => rw [decide_eq_false h, Bool.or_false]
  | false =>
    rw [appliedValue, if_neg Bool.false_ne_true, BitVec.getLsbD_and, BitVec.getLsbD_not,
      getLsbD_controlMask]
    split
    · next h => rw [decide_eq_true h, Bool.not_true, Bool.and_false, Bool.and_false]
    · next h =>
      rw [decide_eq_false h, Bool.not_false, Bool.and_true]
      by_cases hi : i < 64
      · rw [decide_eq_true hi, Bool.and_true]
      · rw [BitVec.getLsbD_of_ge _ _ (Nat.le_of_not_lt hi), Bool.false_and]

/-- `oryx_apply` leaves the control bit as it is told. -/
@[simp] theorem controlBit_apply (on : Bool) (r : CoreRegs) :
    controlBit cfg (oryxApply cfg on r) = on := by
  rw [controlBit, oryxReadReg_apply, getLsbD_appliedValue, if_pos rfl]

end Register

/-! ### Threads -/

/-- The statements of `oryx_enable`. -/
inductive EnablePc
  | checkConfirmed
  | checkEnabled
  | restrict
  /-- Inside `set_cpus_allowed_ptr`, until the thread is on an allowed core. -/
  | migrate
  | init
  | register
  | setEnabled
  | apply
  | ret (rc : CInt)
  deriving DecidableEq, Repr

/-- The statements of `oryx_disable`. -/
inductive DisablePc
  | checkEnabled
  | clearEnabled
  | unregister
  | apply
  | ret
  deriving DecidableEq, Repr

/-- Where a thread is: in user code, or at a statement of a call on an fd. -/
inductive Pc (Fd : Type)
  | user
  | enable (f : Fd) (pc : EnablePc)
  | disable (f : Fd) (pc : DisablePc)
  | query (f : Fd)
  | queried (f : Fd) (flags : U32)
  deriving DecidableEq

def oryxMmCapAvailable : U32 := 1
def oryxMmStateTso : U32 := 2
def oryxMmCapCoreLimit : U32 := 4

/-- `-ENODEV` and `-EINVAL`. -/
def mmErrNoDev : CInt := -19
def mmErrInval : CInt := -22

/-- The cores, the threads and the open fds of the driver. -/
structure MmState (Thread Fd : Type) where
  running : Nat → Thread
  regs : Nat → CoreRegs
  affinity : Thread → Nat → Bool
  pc : Thread → Pc Fd
  enabled : Fd → Bool
  /-- `current->preempt_notifiers`, by fd. -/
  notifiers : Thread → List Fd
  /-- The list a notifier is linked in. -/
  onList : Fd → Option Thread
  closed : Fd → Bool
  broken : Bool
  holds : Thread → Fd → Bool
  granted : Thread → Fd → Bool

/-! ### The scheduler -/

section Scheduler

variable {Thread Fd : Type} (cfg : MmConfig)

/-- `oryx_sched_in`, on a core's registers. -/
def oryxSchedIn (s : MmState Thread Fd) (cpu : Nat) (r : CoreRegs) (g : Fd) : CoreRegs :=
  if s.enabled g && oryxCoreEligible cfg cpu then oryxApply cfg true r else r

/-- `oryx_sched_out`. -/
def oryxSchedOut (s : MmState Thread Fd) (r : CoreRegs) (g : Fd) : CoreRegs :=
  if s.enabled g then oryxApply cfg false r else r

/-- The scheduler gives core `c` to `next`: the notifiers of the thread that leaves fire, then
those of the one that comes. -/
def schedSwitch (s : MmState Thread Fd) (c : Nat) (next : Thread) : MmState Thread Fd :=
  let out := (s.notifiers (s.running c)).foldl (oryxSchedOut cfg s) (s.regs c)
  { s with
    running := Function.update s.running c next
    regs := Function.update s.regs c ((s.notifiers next).foldl (oryxSchedIn cfg s c) out) }

/-- After the notifiers of a list fired on the way out, the bit is set only if it was and none
of them has a grant. -/
theorem controlBit_schedOut (s : MmState Thread Fd) (l : List Fd) (r : CoreRegs) :
    controlBit cfg (l.foldl (oryxSchedOut cfg s) r) = (controlBit cfg r && !l.any s.enabled) := by
  induction l generalizing r with
  | nil => rw [List.foldl_nil, List.any_nil, Bool.not_false, Bool.and_true]
  | cons g l ih =>
    rw [List.foldl_cons, ih, List.any_cons, oryxSchedOut]
    cases s.enabled g with
    | true => rw [if_pos rfl, controlBit_apply, Bool.true_or, Bool.not_true, Bool.and_false,
        Bool.false_and]
    | false => rw [if_neg Bool.false_ne_true, Bool.false_or]

/-- After they fired on the way in, it is set if it was, or one of them has a grant and the
core is eligible. -/
theorem controlBit_schedIn (s : MmState Thread Fd) (cpu : Nat) (l : List Fd) (r : CoreRegs) :
    controlBit cfg (l.foldl (oryxSchedIn cfg s cpu) r) =
      (controlBit cfg r || (l.any s.enabled && oryxCoreEligible cfg cpu)) := by
  induction l generalizing r with
  | nil => rw [List.foldl_nil, List.any_nil, Bool.false_and, Bool.or_false]
  | cons g l ih =>
    rw [List.foldl_cons, ih, List.any_cons, oryxSchedIn]
    cases hon : s.enabled g && oryxCoreEligible cfg cpu with
    | true =>
      rw [Bool.and_eq_true] at hon
      rw [if_pos rfl, controlBit_apply, hon.1, hon.2, Bool.true_or, Bool.true_or, Bool.true_and,
        Bool.or_true]
    | false =>
      rw [if_neg Bool.false_ne_true]
      rcases Bool.and_eq_false_iff.mp hon with h | h
      · rw [h, Bool.false_or]
      · rw [h, Bool.and_false, Bool.and_false]

/-- The control bits after a switch. -/
theorem controlBit_schedSwitch (s : MmState Thread Fd) (c : Nat) (next : Thread) (c' : Nat) :
    controlBit cfg ((schedSwitch cfg s c next).regs c') =
      if c' = c then
        (controlBit cfg (s.regs c) && !(s.notifiers (s.running c)).any s.enabled) ||
          ((s.notifiers next).any s.enabled && oryxCoreEligible cfg c)
      else controlBit cfg (s.regs c') := by
  by_cases h : c' = c
  · subst h
    rw [if_pos rfl, ← controlBit_schedOut, ← controlBit_schedIn]
    exact congrArg (controlBit cfg) (Function.update_self _ _ _)
  · rw [if_neg h]
    exact congrArg (controlBit cfg) (Function.update_of_ne h _ _)

end Scheduler

/-! ### Calls -/

section Steps

variable {Thread Fd : Type} [DecidableEq Thread] [DecidableEq Fd]

namespace MmState

variable (s : MmState Thread Fd)

def goto (t : Thread) (p : Pc Fd) : MmState Thread Fd :=
  { s with pc := Function.update s.pc t p }

/-- `oryx_apply` on core `c`. -/
def apply (cfg : MmConfig) (c : Nat) (on : Bool) : MmState Thread Fd :=
  { s with regs := Function.update s.regs c (oryxApply cfg on (s.regs c)) }

def setEnabled (f : Fd) (on : Bool) : MmState Thread Fd :=
  { s with enabled := Function.update s.enabled f on }

/-- `preempt_notifier_init` clears the links of the node. -/
def preemptNotifierInit (f : Fd) : MmState Thread Fd :=
  { s with broken := s.broken || (s.onList f).isSome }

/-- `preempt_notifier_register` puts the node before the others of the task. -/
def preemptNotifierRegister (t : Thread) (f : Fd) : MmState Thread Fd :=
  { s with
    notifiers := Function.update s.notifiers t (f :: s.notifiers t)
    onList := Function.update s.onList f (some t)
    broken := s.broken || (s.onList f).isSome }

/-- `preempt_notifier_unregister` takes the node out of the list it is in. -/
def preemptNotifierUnregister (f : Fd) : MmState Thread Fd :=
  match s.onList f with
  | none => { s with broken := true }
  | some t =>
      { s with
        notifiers := Function.update s.notifiers t ((s.notifiers t).erase f)
        onList := Function.update s.onList f none }

/-- ENABLE returned 0 to the thread. -/
def grant (t : Thread) (f : Fd) : MmState Thread Fd :=
  { s with granted := fun t' f' => if t' = t ∧ f' = f then true else s.granted t' f' }

/-- A DISABLE or close of the fd is made. -/
def revoke (f : Fd) : MmState Thread Fd :=
  { s with granted := fun t' f' => if f' = f then false else s.granted t' f' }

def setHolds (t : Thread) (f : Fd) (on : Bool) : MmState Thread Fd :=
  { s with holds := fun t' f' => if t' = t ∧ f' = f then on else s.holds t' f' }

end MmState

variable (cfg : MmConfig)

/-- The mask of the online eligible cores. -/
def eligibleMask (c : Nat) : Bool := decide (c ∈ cfg.online) && oryxCoreEligible cfg c

/-- The next statement of `oryx_enable`, run by `t` on core `c`.  `fail` is the code with which
the allocation or `set_cpus_allowed_ptr` fails, 0 when they do not. -/
def oryxEnable (s : MmState Thread Fd) (c : Nat) (t : Thread) (f : Fd) (fail : CInt) :
    EnablePc → MmState Thread Fd
  | .checkConfirmed =>
      s.goto t (.enable f (if cfg.confirmed = 0 then .ret mmErrNoDev else .checkEnabled))
  | .checkEnabled => s.goto t (.enable f (if s.enabled f then .ret 0 else .restrict))
  | .restrict =>
      if cfg.eligible = ~~~0 then s.goto t (.enable f .init)
      else if fail ≠ 0 then s.goto t (.enable f (.ret fail))
      else if cfg.online.any (eligibleMask cfg) = false then s.goto t (.enable f (.ret mmErrInval))
      else
        { s.goto t (.enable f .migrate) with
          affinity := Function.update s.affinity t (eligibleMask cfg) }
  | .migrate => if s.affinity t c then s.goto t (.enable f .init) else s
  | .init => (s.preemptNotifierInit f).goto t (.enable f .register)
  | .register => (s.preemptNotifierRegister t f).goto t (.enable f .setEnabled)
  | .setEnabled => ((s.setEnabled f true).setHolds t f true).goto t (.enable f .apply)
  | .apply =>
      (if oryxCoreEligible cfg c then s.apply cfg c true else s).goto t (.enable f (.ret 0))
  | .ret rc => (if rc = 0 then s.grant t f else s).goto t .user

/-- The next statement of `oryx_disable`. -/
def oryxDisable (s : MmState Thread Fd) (c : Nat) (t : Thread) (f : Fd) :
    DisablePc → MmState Thread Fd
  | .checkEnabled => s.goto t (.disable f (if s.enabled f then .clearEnabled else .ret))
  | .clearEnabled => (s.setEnabled f false).goto t (.disable f .unregister)
  | .unregister => (s.preemptNotifierUnregister f).goto t (.disable f .apply)
  | .apply => (s.apply cfg c false).goto t (.disable f .ret)
  | .ret => (s.setHolds t f false).goto t .user

/-- The flags `ORYX_MM_QUERY` returns. -/
def queryFlags (s : MmState Thread Fd) (f : Fd) : U32 :=
  (if cfg.confirmed ≠ 0 then oryxMmCapAvailable else 0) |||
    (if s.enabled f then oryxMmStateTso else 0) |||
    (if cfg.eligible ≠ ~~~0 then oryxMmCapCoreLimit else 0)

/-! ### Steps -/

/-- What can happen next. -/
inductive MmEvent (Thread Fd : Type)
  /-- The thread on core `c` makes a call. -/
  | callEnable (c : Nat) (f : Fd)
  | callDisable (c : Nat) (f : Fd)
  | callClose (c : Nat) (f : Fd)
  | callQuery (c : Nat) (f : Fd)
  /-- The thread on core `c` runs the next statement of its call. -/
  | run (c : Nat) (fail : CInt)
  | switch (c : Nat) (next : Thread)
  /-- User space changes the affinity mask of a thread. -/
  | setAffinity (t : Thread) (mask : Nat → Bool)
  | havoc (s : MmState Thread Fd)

/-- A call on an open fd from user code. -/
def enterCall (s : MmState Thread Fd) (c : Nat) (f : Fd) (p : Pc Fd) : Option (MmState Thread Fd) :=
  if c ∈ cfg.online ∧ s.pc (s.running c) = .user ∧ s.closed f = false then
    some (s.goto (s.running c) p)
  else none

/-- The next statement of the call that thread `t` is in, on core `c`. -/
def runStatement (s : MmState Thread Fd) (c : Nat) (t : Thread) (fail : CInt) :
    Option (MmState Thread Fd) :=
  match s.pc t with
  | .user => none
  | .enable f p => some (oryxEnable cfg s c t f fail p)
  | .disable f p => some (oryxDisable cfg s c t f p)
  | .query f => some (s.goto t (.queried f (queryFlags cfg s f)))
  | .queried _ _ => some (s.goto t .user)

/-- One event; `none` when it cannot happen in the state. -/
def mmStep (s : MmState Thread Fd) : MmEvent Thread Fd → Option (MmState Thread Fd)
  | .callEnable c f => enterCall cfg s c f (.enable f .checkConfirmed)
  | .callDisable c f => (enterCall cfg s c f (.disable f .checkEnabled)).map (·.revoke f)
  -- `oryx_release` runs when the last reference goes; the fd takes no more calls
  | .callClose c f =>
      (enterCall cfg s c f (.disable f .checkEnabled)).map fun s' =>
        { s'.revoke f with closed := Function.update s.closed f true }
  | .callQuery c f => enterCall cfg s c f (.query f)
  | .run c fail => if c ∈ cfg.online then runStatement cfg s c (s.running c) fail else none
  | .switch c next =>
      if c ∈ cfg.online ∧ s.affinity next c = true ∧ ∀ c' ∈ cfg.online, s.running c' ≠ next then
        some (schedSwitch cfg s c next)
      else none
  | .setAffinity t mask => some { s with affinity := Function.update s.affinity t mask }
  | .havoc s' => if s.broken then some s' else none

/-- The driver just loaded: no fd has a grant, every control bit is clear. -/
structure MmInit (s : MmState Thread Fd) : Prop where
  running : ∀ c ∈ cfg.online, ∀ c' ∈ cfg.online, s.running c = s.running c' → c = c'
  bits : ∀ c ∈ cfg.online, controlBit cfg (s.regs c) = false
  pc : ∀ t, s.pc t = .user
  enabled : ∀ f, s.enabled f = false
  notifiers : ∀ t, s.notifiers t = []
  onList : ∀ f, s.onList f = none
  broken : s.broken = false
  holds : ∀ t f, s.holds t f = false
  granted : ∀ t f, s.granted t f = false

end Steps

end Oryx
