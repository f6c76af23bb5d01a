/-
Oryx/CachePuts.lean

`oryx_cache_put_blob` call by call, on one store, by any number of threads of
any number of processes.

`write_atomic` writes a temporary file and renames it over the final name.
The temporary name is `<final>.<pid>.tmp`, so two threads of one process that
write the same file write the same temporary file: one truncates what the
other has written, and the second rename finds no file.  As long as no thread
opens a temporary file that another thread of its process has open
(`NoSharedTmp`), every file under a final name is complete at every moment and
a put fails only when the system fails one of its calls
(`published_of_reaches`); every system call then leaves the store, as readers
see it, as it was or replaces one file whole (`publish_step`).
-/
import Oryx.CacheStore
import Oryx.Lib.FileSystem
import Oryx.Lib.Runs
import Mathlib.Data.Nat.Digits.Defs

namespace Oryx

/-! ### Names -/

/-- The directories `blobs` and `index`. -/
inductive PutDir
  | blobs
  | index
  deriving DecidableEq, Repr

/-- A file of the store: its directory and its name there. -/
abbrev FileName := PutDir × List Byte

/-- `%ld` of a process id, which is positive. -/
def decimal (pid : Nat) : List Byte :=
  ((Nat.digits 10 pid).map fun d => BitVec.ofNat 8 (48 + d)).reverse

/-- `.`, and `.tmp`. -/
def dot : List Byte := [0x2E]
def dotTmp : List Byte := [0x2E, 0x74, 0x6D, 0x70]

/-- `<final>.<pid>.tmp`. -/
def tmpName (pid : Nat) (f : FileName) : FileName := (f.1, f.2 ++ dot ++ decimal pid ++ dotTmp)

theorem decimal_injective {p q : Nat} (h : decimal p = decimal q) : p = q := by
  have hback : ∀ n, ((decimal n).reverse.map fun b => b.toNat - 48) = Nat.digits 10 n := by
    intro n
    rw [decimal, List.reverse_reverse, List.map_map]
    refine (List.map_congr_left fun d hd => ?_).trans (List.map_id _)
    have hlt : d < 10 := Nat.digits_lt_base (by decide) hd
    show (BitVec.ofNat 8 (48 + d)).toNat - 48 = d
    rw [BitVec.toNat_ofNat, Nat.mod_eq_of_lt (by omega)]
    omega
  apply Nat.digits.injective 10
  rw [← hback, ← hback, h]

theorem length_of_isHex64 {n : List Byte} (h : isHex64 n = true) : n.length = 64 := by
  rw [isHex64, Bool.and_eq_true] at h
  exact beq_iff_eq.mp h.1

/-- Temporary names tell processes and final names apart. -/
theorem tmpName_inj {p q : Nat} {f g : FileName} (hf : isHex64 f.2 = true)
    (hg : isHex64 g.2 = true) (h : tmpName p f = tmpName q g) : p = q ∧ f = g := by
  obtain ⟨hdir, hname⟩ := Prod.mk.inj h
  rw [List.append_assoc, List.append_assoc, List.append_assoc, List.append_assoc] at hname
  obtain ⟨hfg, hrest⟩ := List.append_inj hname
    ((length_of_isHex64 hf).trans (length_of_isHex64 hg).symm)
  have hpid := List.append_cancel_right (List.append_cancel_left hrest)
  exact ⟨decimal_injective hpid, Prod.ext hdir hfg⟩

theorem not_isHex64_tmpName {pid : Nat} {f : FileName} (hf : isHex64 f.2 = true) :
    isHex64 (tmpName pid f).2 = false := by
  rw [isHex64, Bool.and_eq_false_iff]
  refine Or.inl (beq_eq_false_iff_ne.mpr fun hlen => ?_)
  have h64 := length_of_isHex64 hf
  rw [tmpName, List.length_append, List.length_append, List.length_append] at hlen
  simp only [dot, dotTmp, List.length_cons, List.length_nil] at hlen
  omega

/-- A final name is no temporary name. -/
theorem ne_tmpName {pid : Nat} {f g : FileName} (hf : isHex64 f.2 = true)
    (hg : isHex64 g.2 = true) : f ≠ tmpName pid g := by
  intro h
  rw [h, not_isHex64_tmpName hg] at hf
  cases hf

/-! ### Threads -/

/-- Where a thread is in `oryx_cache_put_blob`: the system call it makes next. -/
inductive PutPc
  | idle
  | access
  | openTmp (d : PutDir)
  | write (d : PutDir) (fd : Descriptor) (left : List Byte)
  | fsync (d : PutDir)
  | rename (d : PutDir)
  | unlink (d : PutDir)
  | returned (rc : Except OryxErr (List Byte))

/-- The `while (left > 0)` of `write_atomic`. -/
def writeLoop (d : PutDir) (fd : Descriptor) (left : List Byte) : PutPc :=
  if left = [] then .fsync d else .write d fd left

/-- The directory, and where each thread is in its put. -/
structure PutState (Thread : Type) where
  fs : FileSystem FileName Byte
  pc : Thread → PutPc
  data : Thread → List Byte
  key : Thread → List Byte
  /-- The system has failed a call of this put. -/
  sysFailed : Thread → Bool
  /-- The puts called so far. -/
  calls : List (List Byte × List Byte)

/-- One call of a put, or the next system call of a thread: `n` bounds what a `write` takes,
`fail` lets the system fail the call. -/
inductive PutEvent (Thread : Type)
  | call (t : Thread) (data key : List Byte)
  | sys (t : Thread) (n : Nat) (fail : Bool)

section Steps

variable {Thread : Type} [DecidableEq Thread]

namespace PutState

variable (s : PutState Thread)

/-- The file a thread's `write_atomic` writes, and what it writes. -/
def finalName (t : Thread) : PutDir → FileName
  | .blobs => (.blobs, oryxContentAddress (s.data t))
  | .index => (.index, s.key t)

def bytes (t : Thread) : PutDir → List Byte
  | .blobs => s.data t
  | .index => oryxContentAddress (s.data t)

def goto (t : Thread) (p : PutPc) : PutState Thread :=
  { s with pc := Function.update s.pc t p }

/-- The system fails a call of `t`. -/
def failed (t : Thread) : PutState Thread :=
  { s with sysFailed := Function.update s.sysFailed t true }

end PutState

variable (pid : Thread → Nat)

/-- The temporary file of a thread's `write_atomic`. -/
def tmpFile (s : PutState Thread) (t : Thread) (d : PutDir) : FileName :=
  tmpName (pid t) (s.finalName t d)

/-- After a rename that succeeded: the index entry is next, or the put returns. -/
def afterRename (s : PutState Thread) (t : Thread) : PutDir → PutPc
  | .blobs => .openTmp .index
  | .index => .returned (.ok (oryxContentAddress (s.data t)))

/-- The next system call of a thread. -/
def sysStep (s : PutState Thread) (t : Thread) (n : Nat) (fail : Bool) : Option (PutState Thread) :=
  match s.pc t with
  | .idle | .returned _ => none
  | .access =>
      -- only write the blob if absent
      if (s.fs.file (s.finalName t .blobs)).isSome ∧ fail = false then
        some (s.goto t (.openTmp .index))
      else some (s.goto t (.openTmp .blobs))
  | .openTmp d =>
      if fail then some ((s.failed t).goto t (.returned (.error .io)))
      else
        let (fs, fd) := s.fs.openTrunc (tmpFile pid s t d)
        some ({ s with fs := fs }.goto t (writeLoop d fd (s.bytes t d)))
  | .write d fd left =>
      if fail then some ((s.failed t).goto t (.unlink d))
      else
        let done := left.take n
        some ({ s with fs := s.fs.write 0 fd done }.goto t
          (writeLoop d ⟨fd.inode, fd.offset + done.length⟩ (left.drop n)))
  | .fsync d =>
      if fail then some ((s.failed t).goto t (.unlink d)) else some (s.goto t (.rename d))
  | .rename d =>
      if fail then some ((s.failed t).goto t (.unlink d))
      else
        match s.fs.rename (tmpFile pid s t d) (s.finalName t d) with
        | none => some (s.goto t (.unlink d))
        | some fs => some ({ s with fs := fs }.goto t (afterRename s t d))
  | .unlink d =>
      some ({ s with fs := if fail then s.fs else s.fs.unlink (tmpFile pid s t d) }.goto t
        (.returned (.error .io)))

/-- A thread calls `oryx_cache_put_blob`. -/
def callStep (s : PutState Thread) (t : Thread) (data key : List Byte) :
    Option (PutState Thread) :=
  let called : PutState Thread :=
    { s with
      data := Function.update s.data t data
      key := Function.update s.key t key
      sysFailed := Function.update s.sysFailed t false
      calls := (data, key) :: s.calls }
  match s.pc t with
  | .idle | .returned _ =>
      if isHex64 key = false then some (called.goto t (.returned (.error .inval)))
      else some (called.goto t .access)
  | _ => none

/-- One event of the puts. -/
def putStep (s : PutState Thread) : PutEvent Thread → Option (PutState Thread)
  | .call t data key => callStep s t data key
  | .sys t n fail => sysStep pid s t n fail

end Steps

section Invariant

variable {Thread : Type} (pid : Thread → Nat)

/-- The directories as `oryx_cache_open` leaves them: no file under a final name, temporary
files of earlier processes perhaps. -/
structure PutInit (s : PutState Thread) : Prop where
  tidy : s.fs.Tidy
  empty : ∀ d n, isHex64 n = true → s.fs.file (d, n) = none
  pc : ∀ t, s.pc t = .idle

/-! ### The property and the condition -/

/-- Files under final names are complete, and puts fail by the system only. -/
structure Published (s : PutState Thread) : Prop where
  blobs : ∀ n c, isHex64 n = true → s.fs.file (.blobs, n) = some c → oryxContentAddress c = n
  index : ∀ n c, isHex64 n = true → s.fs.file (.index, n) = some c →
    ∃ data, (data, n) ∈ s.calls ∧ c = oryxContentAddress data
  fails : ∀ t e, s.pc t = .returned (.error e) →
    s.sysFailed t = true ∨ (e = .inval ∧ isHex64 (s.key t) = false)

/-- The file a thread is writing, from `open` to `rename` or `unlink`. -/
def heldFile (s : PutState Thread) (t : Thread) : Option FileName :=
  match s.pc t with
  | .write d _ _ | .fsync d | .rename d | .unlink d => some (s.finalName t d)
  | _ => none

/-- No temporary file is opened while another thread of the process has it. -/
def NoSharedTmp (s : PutState Thread) : PutEvent Thread → Prop
  | .sys t _ _ => ∀ d, s.pc t = .openTmp d →
      ∀ t' ≠ t, pid t' = pid t → heldFile s t' ≠ some (s.finalName t d)
  | .call _ _ _ => True

/-! ### The invariant -/

/-- What holds of a thread at its next system call. -/
def PutOk (s : PutState Thread) (t : Thread) : PutPc → Prop
  | .write d fd left => s.fs.entry (tmpFile pid s t d) = some fd.inode ∧
      ∃ done, s.fs.file (tmpFile pid s t d) = some done ∧ fd.offset = done.length ∧
        done ++ left = s.bytes t d
  | .fsync d | .rename d => s.fs.file (tmpFile pid s t d) = some (s.bytes t d)
  | .unlink _ => s.sysFailed t = true
  | .returned (.error e) =>
      s.sysFailed t = true ∨ (e = .inval ∧ isHex64 (s.key t) = false)
  | _ => True

/-- The thread is in a put. -/
def PutPc.active : PutPc → Bool
  | .idle | .returned _ => false
  | _ => true

/-- Every put under way has its arguments, its temporary file as far as it has written it, and
that file for itself. -/
structure PutsGoing (s : PutState Thread) : Prop where
  tidy : s.fs.Tidy
  called : ∀ t, (s.pc t).active = true → isHex64 (s.key t) = true ∧ (s.data t, s.key t) ∈ s.calls
  place : ∀ t, PutOk pid s t (s.pc t)
  alone : ∀ t t' f, t' ≠ t → pid t' = pid t → heldFile s t = some f → heldFile s t' ≠ some f

/-- The same, with files under final names that puts have published. -/
structure PutInv (s : PutState Thread) : Prop extends PutsGoing pid s where
  blobs : ∀ n c, isHex64 n = true → s.fs.file (.blobs, n) = some c → oryxContentAddress c = n
  index : ∀ n c, isHex64 n = true → s.fs.file (.index, n) = some c →
    ∃ data, (data, n) ∈ s.calls ∧ c = oryxContentAddress data

variable {pid} {s s' : PutState Thread}

theorem PutInv.published (h : PutInv pid s) : Published s where
  blobs := h.blobs
  index := h.index
  fails := by
    intro t e hpc
    have hplace := h.place t
    rw [hpc] at hplace
    exact hplace

theorem PutInit.putInv (h : PutInit s) : PutInv pid s where
  tidy := h.tidy
  blobs := by
    intro n c hn hc
    rw [h.empty .blobs n hn] at hc
    cases hc
  index := by
    intro n c hn hc
    rw [h.empty .index n hn] at hc
    cases hc
  called := by
    intro t hact
    rw [h.pc] at hact
    cases hact
  place := by
    intro t
    rw [h.pc]
    trivial
  alone := by
    intro t t' f _ _ hheld
    rw [heldFile, h.pc] at hheld
    cases hheld

/-- Threads of different processes share no temporary file. -/
theorem noSharedTmp_of_injective (hpid : Function.Injective pid) (s : PutState Thread)
    (e : PutEvent Thread) : NoSharedTmp pid s e := by
  cases e with
  | call t data key => trivial
  | sys t n fail => exact fun d _ t' ht' hsame => absurd (hpid hsame) ht'

theorem finalName_congr {t : Thread} (hdata : s'.data t = s.data t) (hkey : s'.key t = s.key t)
    (d : PutDir) : s'.finalName t d = s.finalName t d := by
  cases d with
  | blobs => rw [PutState.finalName, PutState.finalName, hdata]
  | index => rw [PutState.finalName, PutState.finalName, hkey]

/-- What a thread holds depends on its place and its arguments. -/
theorem heldFile_congr {t : Thread} (hpc : s'.pc t = s.pc t) (hdata : s'.data t = s.data t)
    (hkey : s'.key t = s.key t) : heldFile s' t = heldFile s t := by
  unfold heldFile
  rw [hpc]
  cases s.pc t with
  | write d fd left | fsync d | rename d | unlink d =>
    exact congrArg some (finalName_congr hdata hkey d)
  | idle | access | openTmp | returned => rfl

/-- Outside a put, and before it opens a file, a thread holds none. -/
theorem heldFile_eq_none {t : Thread} (h : (s.pc t).active = false ∨ s.pc t = .access) :
    heldFile s t = none := by
  unfold heldFile
  cases hp : s.pc t with
  | idle | access | openTmp | returned => rfl
  | write | fsync | rename | unlink =>
    rw [hp] at h
    rcases h with h | h <;> cases h

/-- A file that is held is held by a thread in a put. -/
theorem active_of_held {t : Thread} {f : FileName} (h : heldFile s t = some f) :
    (s.pc t).active = true ∧ ∃ d, f = s.finalName t d := by
  unfold heldFile at h
  cases hp : s.pc t with
  | write d fd left | fsync d | rename d | unlink d =>
    rw [hp] at h
    exact ⟨rfl, d, (Option.some.inj h).symm⟩
  | idle | access | openTmp | returned =>
    rw [hp] at h
    cases h

/-- A thread that abandons its file has it. -/
theorem held_of_abandon {t : Thread} {d : PutDir}
    (hp : (∃ fd left, s.pc t = .write d fd left) ∨ s.pc t = .fsync d ∨ s.pc t = .rename d) :
    heldFile s t = some (s.finalName t d) := by
  rcases hp with ⟨fd, left, hp⟩ | hp | hp
  · rw [heldFile, hp]
  · rw [heldFile, hp]
  · rw [heldFile, hp]

theorem PutsGoing.isHex64_finalName (h : PutsGoing pid s) {t : Thread} (hact : (s.pc t).active = true)
    (d : PutDir) : isHex64 (s.finalName t d).2 = true := by
  cases d with
  | blobs => exact isHex64_contentAddress _
  | index => exact (h.called t hact).1

/-! ### Frames -/

/-- What holds of a thread depends on its own arguments and its temporary file. -/
theorem PutOk.of_same {t : Thread} {p : PutPc} (h : PutOk pid s t p)
    (hdata : s'.data t = s.data t) (hkey : s'.key t = s.key t)
    (hfail : s'.sysFailed t = s.sysFailed t)
    (hfs : ∀ d, (∃ fd left, p = .write d fd left) ∨ p = .fsync d ∨ p = .rename d →
      s'.fs.entry (tmpFile pid s t d) = s.fs.entry (tmpFile pid s t d) ∧
        s'.fs.file (tmpFile pid s t d) = s.fs.file (tmpFile pid s t d)) : PutOk pid s' t p := by
  have htmp : ∀ d, tmpFile pid s' t d = tmpFile pid s t d := by
    intro d
    rw [tmpFile, tmpFile, finalName_congr hdata hkey]
  have hbytes : ∀ d, s'.bytes t d = s.bytes t d := by
    intro d
    cases d with
    | blobs => exact hdata
    | index => rw [PutState.bytes, PutState.bytes, hdata]
  -- only between open and rename the file matters
  cases p with
  | write d fd left =>
    obtain ⟨hentry, hfile⟩ := hfs d (Or.inl ⟨fd, left, rfl⟩)
    show s'.fs.entry (tmpFile pid s' t d) = some fd.inode ∧ ∃ done,
      s'.fs.file (tmpFile pid s' t d) = some done ∧ fd.offset = done.length ∧
        done ++ left = s'.bytes t d
    rw [htmp, hbytes, hentry, hfile]
    exact h
  | fsync d =>
    show s'.fs.file (tmpFile pid s' t d) = some (s'.bytes t d)
    rw [htmp, hbytes, (hfs d (Or.inr (Or.inl rfl))).2]
    exact h
  | rename d =>
    show s'.fs.file (tmpFile pid s' t d) = some (s'.bytes t d)
    rw [htmp, hbytes, (hfs d (Or.inr (Or.inr rfl))).2]
    exact h
  | unlink d => exact hfail.trans h
  | returned rc =>
    cases rc with
    | ok addr => trivial
    | error e =>
      show s'.sysFailed t = true ∨ (e = .inval ∧ isHex64 (s'.key t) = false)
      rw [hfail, hkey]
      exact h
  | idle | access | openTmp => trivial

/-- The temporary files of two threads differ, when their processes or their files do. -/
theorem PutsGoing.tmpFile_ne (h : PutsGoing pid s) {t t' : Thread} {d d' : PutDir}
    (hact : (s.pc t).active = true) (hact' : (s.pc t').active = true)
    (hne : pid t' = pid t → s.finalName t' d' ≠ s.finalName t d) :
    tmpFile pid s t' d' ≠ tmpFile pid s t d := by
  intro hsame
  obtain ⟨hpid, hfile⟩ := tmpName_inj (h.isHex64_finalName hact' d') (h.isHex64_finalName hact d)
    hsame
  exact hne hpid hfile

theorem writeLoop_ok {t : Thread} {d : PutDir} {fd : Descriptor} {left done : List Byte}
    (hentry : s.fs.entry (tmpFile pid s t d) = some fd.inode)
    (hfile : s.fs.file (tmpFile pid s t d) = some done) (hoffset : fd.offset = done.length)
    (hall : done ++ left = s.bytes t d) : PutOk pid s t (writeLoop d fd left) := by
  unfold writeLoop
  split
  · next hleft =>
    show s.fs.file (tmpFile pid s t d) = some (s.bytes t d)
    rw [hfile, ← hall, hleft, List.append_nil]
  · exact ⟨hentry, done, hfile, hoffset, hall⟩

/-- The temporary file of `t` is no file under a final name, and no other thread's. -/
structure Own (pid : Thread → Nat) (s : PutState Thread) (t : Thread) (d : PutDir) : Prop where
  final : ∀ f : FileName, isHex64 f.2 = true → f ≠ tmpFile pid s t d
  other : ∀ t' ≠ t, ∀ d', heldFile s t' = some (s.finalName t' d') →
    tmpFile pid s t' d' ≠ tmpFile pid s t d

theorem PutsGoing.own (h : PutsGoing pid s) {t : Thread} (hact : (s.pc t).active = true) {d : PutDir}
    (hno : ∀ t' ≠ t, pid t' = pid t → heldFile s t' ≠ some (s.finalName t d)) :
    Own pid s t d where
  final f hf := ne_tmpName hf (h.isHex64_finalName hact d)
  other := by
    intro t' ht' d' hheld
    refine h.tmpFile_ne hact (active_of_held hheld).1 fun hpid hsame => hno t' ht' hpid ?_
    rw [hheld, hsame]

/-- A thread that is at `open` may take its temporary file, one at a later call has it. -/
theorem PutsGoing.own_of_pc (h : PutsGoing pid s) {t : Thread} {n : Nat} {fail : Bool}
    (hno : NoSharedTmp pid s (.sys t n fail)) {d : PutDir}
    (hpc : s.pc t = .openTmp d ∨ heldFile s t = some (s.finalName t d)) : Own pid s t d := by
  rcases hpc with hp | hheld
  · refine h.own ?_ (hno d hp)
    rw [hp]
    rfl
  · exact h.own (active_of_held hheld).1 fun t' ht' hpid => h.alone t t' _ ht' hpid hheld

/-- What a step of `t` does to the files under final names: nothing, or it replaces one whole. -/
def Publishes (s s' : PutState Thread) (t : Thread) : Prop :=
  (∀ f : FileName, isHex64 f.2 = true → s'.fs.file f = s.fs.file f) ∨
    ∃ d, s.pc t = .rename d ∧ s'.pc t = afterRename s t d ∧
      s'.fs.file (s.finalName t d) = some (s.bytes t d) ∧
      ∀ f : FileName, isHex64 f.2 = true → f ≠ s.finalName t d → s'.fs.file f = s.fs.file f

/-- Files published by a put are complete. -/
theorem PutInv.finals (h : PutInv pid s) {t : Thread} (hpub : Publishes s s' t) :
    (∀ n c, isHex64 n = true → s'.fs.file (.blobs, n) = some c → oryxContentAddress c = n) ∧
      ∀ n c, isHex64 n = true → s'.fs.file (.index, n) = some c →
        ∃ data, (data, n) ∈ s.calls ∧ c = oryxContentAddress data := by
  rcases hpub with hsame | ⟨d, hpc, -, hnew, hold⟩
  · refine ⟨fun n c hn hc => ?_, fun n c hn hc => ?_⟩
    · rw [hsame (.blobs, n) hn] at hc
      exact h.blobs n c hn hc
    · rw [hsame (.index, n) hn] at hc
      exact h.index n c hn hc
  · have hact : (s.pc t).active = true := by rw [hpc]; rfl
    refine ⟨fun n c hn hc => ?_, fun n c hn hc => ?_⟩
    · by_cases hsame : ((.blobs, n) : FileName) = s.finalName t d
      · -- the published blob has the bytes it is named for
        rw [hsame, hnew] at hc
        cases d with
        | index => cases hsame
        | blobs =>
          cases hsame
          cases hc
          rfl
      · rw [hold (.blobs, n) hn hsame] at hc
        exact h.blobs n c hn hc
    · by_cases hsame : ((.index, n) : FileName) = s.finalName t d
      · -- the published index entry is this call's address
        rw [hsame, hnew] at hc
        cases d with
        | blobs => cases hsame
        | index =>
          cases hsame
          cases hc
          exact ⟨s.data t, (h.called t hact).2, rfl⟩
      · rw [hold (.index, n) hn hsame] at hc
        exact h.index n c hn hc

/-! ### System calls -/

section Calls

variable [DecidableEq Thread]

theorem goto_self (s : PutState Thread) (t : Thread) (p : PutPc) : (s.goto t p).pc t = p :=
  Function.update_self _ _ _

theorem goto_other (s : PutState Thread) {t t' : Thread} (h : t' ≠ t) (p : PutPc) :
    (s.goto t p).pc t' = s.pc t' := Function.update_of_ne h _ _

/-- A step of `t` that goes on to `p` in a state `s₁` with the arguments of `s`: what is left to
show is the file system, what holds of `t`, and the file it holds. -/
theorem PutsGoing.goto (h : PutsGoing pid s) {t : Thread} (hact : (s.pc t).active = true)
    {s₁ : PutState Thread} {p : PutPc}
    (hargs : s₁.pc = s.pc ∧ s₁.data = s.data ∧ s₁.key = s.key ∧ s₁.calls = s.calls ∧
      ∀ t' ≠ t, s₁.sysFailed t' = s.sysFailed t')
    (htidy : s₁.fs.Tidy) (hplace : PutOk pid s₁ t p)
    (hothers : ∀ t' ≠ t, ∀ d, heldFile s t' = some (s.finalName t' d) →
      s₁.fs.entry (tmpFile pid s t' d) = s.fs.entry (tmpFile pid s t' d) ∧
        s₁.fs.file (tmpFile pid s t' d) = s.fs.file (tmpFile pid s t' d))
    (hheld : ∀ f, heldFile (s₁.goto t p) t = some f →
      ∀ t' ≠ t, pid t' = pid t → heldFile s t' ≠ some f) : PutsGoing pid (s₁.goto t p) := by
  obtain ⟨hpc, hdata, hkey, hcalls, hfail⟩ := hargs
  have hpc' : ∀ t' ≠ t, (s₁.goto t p).pc t' = s.pc t' := by
    intro t' ht'
    rw [goto_other s₁ ht', hpc]
  have hheldOther : ∀ t' ≠ t, heldFile (s₁.goto t p) t' = heldFile s t' := fun t' ht' =>
    heldFile_congr (hpc' t' ht') (congrFun hdata t') (congrFun hkey t')
  refine ⟨htidy, fun t' hact' => ?_, fun t' => ?_, fun t₁ t₂ f hne hpid hh => ?_⟩
  · show isHex64 (s₁.key t') = true ∧ (s₁.data t', s₁.key t') ∈ s₁.calls
    rw [hkey, hdata, hcalls]
    by_cases ht' : t' = t
    · rw [ht']
      exact h.called t hact
    · rw [hpc' t' ht'] at hact'
      exact h.called t' hact'
  · by_cases ht' : t' = t
    · rw [ht', goto_self]
      exact hplace.of_same rfl rfl rfl fun _ _ => ⟨rfl, rfl⟩
    · rw [hpc' t' ht']
      refine (h.place t').of_same (congrFun hdata t') (congrFun hkey t') (hfail t' ht')
        fun d hd => hothers t' ht' d ?_
      unfold heldFile
      rcases hd with ⟨fd, left, hp⟩ | hp | hp
      · rw [hp]
      · rw [hp]
      · rw [hp]
  · -- no two calls of one process hold one file
    by_cases h₁ : t₁ = t
    · rw [h₁] at hne hpid hh
      rw [hheldOther t₂ hne]
      exact hheld f hh t₂ hne hpid
    · rw [hheldOther t₁ h₁] at hh
      by_cases h₂ : t₂ = t
      · rw [h₂] at hpid ⊢
        exact fun hh₂ => hheld f hh₂ t₁ h₁ hpid.symm hh
      · rw [hheldOther t₂ h₂]
        exact h.alone t₁ t₂ f hne hpid hh

/-- The same where the file system stays as it is and the thread keeps what it holds. -/
theorem PutsGoing.goto_same (h : PutsGoing pid s) {t : Thread} (hact : (s.pc t).active = true)
    {s₁ : PutState Thread} {p : PutPc}
    (hargs : s₁.pc = s.pc ∧ s₁.data = s.data ∧ s₁.key = s.key ∧ s₁.calls = s.calls ∧
      ∀ t' ≠ t, s₁.sysFailed t' = s.sysFailed t') (hfs : s₁.fs = s.fs)
    (hplace : PutOk pid s₁ t p)
    (hheld : ∀ f, heldFile (s₁.goto t p) t = some f → heldFile s t = some f) :
    PutsGoing pid (s₁.goto t p) := by
  refine h.goto hact hargs ?_ hplace ?_ fun f hf t' ht' hpid => ?_
  · rw [hfs]
    exact h.tidy
  · rw [hfs]
    exact fun _ _ _ _ => ⟨rfl, rfl⟩
  · exact h.alone t t' f ht' hpid (hheld f hf)

theorem heldFile_writeLoop (s : PutState Thread) (t : Thread) (d : PutDir) (fd : Descriptor)
    (left : List Byte) : heldFile (s.goto t (writeLoop d fd left)) t = some (s.finalName t d) := by
  unfold heldFile
  rw [goto_self]
  by_cases hleft : left = []
  · rw [writeLoop, if_pos hleft]
    rfl
  · rw [writeLoop, if_neg hleft]
    rfl

/-- Failing a call marks the put. -/
theorem failed_args (s : PutState Thread) (t : Thread) :
    (s.failed t).pc = s.pc ∧ (s.failed t).data = s.data ∧ (s.failed t).key = s.key ∧
      (s.failed t).calls = s.calls ∧ ∀ t' ≠ t, (s.failed t).sysFailed t' = s.sysFailed t' :=
  ⟨rfl, rfl, rfl, rfl, fun _ ht' => Function.update_of_ne ht' _ _⟩

theorem failed_self (s : PutState Thread) (t : Thread) : (s.failed t).sysFailed t = true :=
  Function.update_self _ _ _

/-- What a system call of `t` can do, by the call it was at. -/
inductive SysCase (pid : Thread → Nat) (s : PutState Thread) (t : Thread) (n : Nat) :
    Bool → PutState Thread → Prop
  | found (hp : s.pc t = .access) (h : (s.fs.file (s.finalName t .blobs)).isSome) :
      SysCase pid s t n false (s.goto t (.openTmp .index))
  | notFound {fail : Bool} (hp : s.pc t = .access)
      (h : ¬ ((s.fs.file (s.finalName t .blobs)).isSome ∧ fail = false)) :
      SysCase pid s t n fail (s.goto t (.openTmp .blobs))
  | openFails {d : PutDir} (hp : s.pc t = .openTmp d) :
      SysCase pid s t n true ((s.failed t).goto t (.returned (.error .io)))
  | opens {d : PutDir} (hp : s.pc t = .openTmp d) :
      SysCase pid s t n false
        (({ s with fs := (s.fs.openTrunc (tmpFile pid s t d)).1 } : PutState Thread).goto t
          (writeLoop d (s.fs.openTrunc (tmpFile pid s t d)).2 (s.bytes t d)))
  | abandons {d : PutDir} (hp : (∃ fd left, s.pc t = .write d fd left) ∨ s.pc t = .fsync d ∨
      s.pc t = .rename d) : SysCase pid s t n true ((s.failed t).goto t (.unlink d))
  | writes {d : PutDir} {fd : Descriptor} {left : List Byte} (hp : s.pc t = .write d fd left) :
      SysCase pid s t n false
        (({ s with fs := s.fs.write 0 fd (left.take n) } : PutState Thread).goto t
          (writeLoop d ⟨fd.inode, fd.offset + (left.take n).length⟩ (left.drop n)))
  | syncs {d : PutDir} (hp : s.pc t = .fsync d) : SysCase pid s t n false (s.goto t (.rename d))
  | noTmp {d : PutDir} (hp : s.pc t = .rename d)
      (h : s.fs.rename (tmpFile pid s t d) (s.finalName t d) = none) :
      SysCase pid s t n false (s.goto t (.unlink d))
  | renames {d : PutDir} {fs : FileSystem FileName Byte} (hp : s.pc t = .rename d)
      (h : s.fs.rename (tmpFile pid s t d) (s.finalName t d) = some fs) :
      SysCase pid s t n false
        (({ s with fs := fs } : PutState Thread).goto t (afterRename s t d))
  | unlinkFails {d : PutDir} (hp : s.pc t = .unlink d) :
      SysCase pid s t n true (s.goto t (.returned (.error .io)))
  | unlinks {d : PutDir} (hp : s.pc t = .unlink d) :
      SysCase pid s t n false
        (({ s with fs := s.fs.unlink (tmpFile pid s t d) } : PutState Thread).goto t
          (.returned (.error .io)))

/-- **A system call** does one of these things. -/
theorem sysStep_cases {t : Thread} {n : Nat} {fail : Bool}
    (hstep : sysStep pid s t n fail = some s') : SysCase pid s t n fail s' := by
  unfold sysStep at hstep
  cases hp : s.pc t with
  | idle | returned =>
    rw [hp] at hstep
    cases hstep
  -- a blob that is there is not written again
  | access =>
    simp only [hp] at hstep
    split at hstep
    · next hfound =>
      obtain ⟨hsome, rfl⟩ := hfound
      cases hstep
      exact .found hp hsome
    · next hno =>
      cases hstep
      exact .notFound hp hno
  | openTmp d =>
    simp only [hp] at hstep
    cases fail <;> cases hstep
    · exact .opens hp
    · exact .openFails hp
  | write d fd left =>
    simp only [hp] at hstep
    cases fail <;> cases hstep
    · exact .writes hp
    · exact .abandons (Or.inl ⟨fd, left, hp⟩)
  -- a failing write, fsync or rename leaves through the unlink
  | fsync d =>
    simp only [hp] at hstep
    cases fail <;> cases hstep
    · exact .syncs hp
    · exact .abandons (Or.inr (Or.inl hp))
  | rename d =>
    simp only [hp] at hstep
    cases fail with
    | true =>
      cases hstep
      exact .abandons (Or.inr (Or.inr hp))
    | false =>
      rw [if_neg Bool.false_ne_true] at hstep
      split at hstep
      · next hnone =>
        cases hstep
        exact .noTmp hp hnone
      · next fs hren =>
        cases hstep
        exact .renames hp hren
  | unlink d =>
    simp only [hp] at hstep
    cases fail <;> cases hstep
    · exact .unlinks hp
    · exact .unlinkFails hp

/-- **A step publishes whole files**: only a rename touches the files under final names, and
puts the bytes of the put there. -/
theorem PutsGoing.publishes (h : PutsGoing pid s) {t : Thread} {n : Nat} {fail : Bool}
    (hno : NoSharedTmp pid s (.sys t n fail)) (hstep : sysStep pid s t n fail = some s') :
    Publishes s s' t := by
  have hplace := h.place t
  have hown : ∀ {d : PutDir}, heldFile s t = some (s.finalName t d) → Own pid s t d :=
    fun hheld => h.own_of_pc hno (Or.inr hheld)
  cases sysStep_cases hstep with
  | found | notFound | openFails | abandons | syncs | noTmp | unlinkFails =>
    -- the file system is left as it is
    exact Or.inl fun _ _ => rfl
  | opens hp =>
    have hfree := h.own_of_pc hno (Or.inl hp)
    exact Or.inl fun f hf => FileSystem.file_openTrunc_of_ne h.tidy (hfree.final f hf)
  | @writes d fd left hp =>
    have hfree := hown (d := d) (by rw [heldFile, hp])
    rw [hp] at hplace
    exact Or.inl fun f hf => FileSystem.file_write_of_ne h.tidy 0 hplace.1 (hfree.final f hf) _
  | @renames d fs hp hren =>
    have hfree := hown (d := d) (by rw [heldFile, hp])
    rw [hp] at hplace
    exact Or.inr ⟨d, hp, goto_self _ _ _, (FileSystem.file_rename_new hren).trans hplace,
      fun f hf hne => FileSystem.file_rename_of_ne hren (hfree.final f hf) hne⟩
  | @unlinks d hp =>
    have hfree := hown (d := d) (by rw [heldFile, hp])
    exact Or.inl fun f hf => FileSystem.file_unlink_of_ne s.fs (hfree.final f hf)

/-- A put that the system fails keeps its temporary file until it has unlinked it. -/
theorem PutsGoing.abandon (h : PutsGoing pid s) {t : Thread} {d : PutDir}
    (hheld : heldFile s t = some (s.finalName t d)) :
    PutsGoing pid ((s.failed t).goto t (.unlink d)) := by
  refine h.goto_same (active_of_held hheld).1 (failed_args s t) rfl (failed_self s t)
    fun f hf => ?_
  rw [heldFile, goto_self] at hf
  rw [hheld]
  exact hf

/-- **The invariant of the puts under way** is kept by every system call. -/
theorem PutsGoing.sysStep (h : PutsGoing pid s) {t : Thread} {n : Nat} {fail : Bool}
    (hno : NoSharedTmp pid s (.sys t n fail)) (hstep : sysStep pid s t n fail = some s') :
    PutsGoing pid s' := by
  have hplace := h.place t
  -- a thread that goes on holds the file it held, or none
  have hnone : ∀ {s₁ : PutState Thread} {p : PutPc}, heldFile (s₁.goto t p) t = none →
      ∀ f, heldFile (s₁.goto t p) t ≠ some f := by
    intro s₁ p hno f hf
    rw [hno] at hf
    cases hf
  cases sysStep_cases hstep with
  | found hp | notFound hp =>
    have hact : (s.pc t).active = true := by rw [hp]; rfl
    refine h.goto_same hact ⟨rfl, rfl, rfl, rfl, fun _ _ => rfl⟩ rfl trivial fun f hf => ?_
    exact absurd hf (hnone (by rw [heldFile, goto_self]) f)
  | openFails hp =>
    have hact : (s.pc t).active = true := by rw [hp]; rfl
    refine h.goto_same hact (failed_args s t) rfl (Or.inl (failed_self s t)) fun f hf => ?_
    exact absurd hf (hnone (by rw [heldFile, goto_self]) f)
  | @opens d hp =>
    have hact : (s.pc t).active = true := by rw [hp]; rfl
    have hown := h.own_of_pc hno (Or.inl hp)
    refine h.goto hact ⟨rfl, rfl, rfl, rfl, fun _ _ => rfl⟩ (h.tidy.openTrunc _) ?_
      (fun t' ht' d' hheld => ?_) fun f hf t' ht' hpid => ?_
    · exact writeLoop_ok (FileSystem.entry_openTrunc _ _) (FileSystem.file_openTrunc _ _)
        (FileSystem.offset_openTrunc _ _) (List.nil_append _)
    · have hne := hown.other t' ht' d' hheld
      exact ⟨FileSystem.entry_openTrunc_of_ne hne, FileSystem.file_openTrunc_of_ne h.tidy hne⟩
    · rw [heldFile_writeLoop] at hf
      cases hf
      exact hno d hp t' ht' hpid
  | abandons hp => exact h.abandon (held_of_abandon hp)
  | @writes d fd left hp =>
    have hheld : heldFile s t = some (s.finalName t d) := by rw [heldFile, hp]
    have hown := h.own_of_pc hno (Or.inr hheld)
    rw [hp] at hplace
    obtain ⟨hentry, done, hfile, hoffset, hall⟩ := hplace
    have hwritten := FileSystem.file_write 0 hentry hfile (left.take n)
    rw [hoffset, overwrite_end] at hwritten
    refine h.goto (active_of_held hheld).1 ⟨rfl, rfl, rfl, rfl, fun _ _ => rfl⟩
      (h.tidy.write 0 fd _) ?_ (fun t' ht' d' hheld' => ?_) fun f hf => ?_
    · refine writeLoop_ok hentry hwritten ?_ ?_
      · rw [hoffset, List.length_append]
      · rw [List.append_assoc, List.take_append_drop]
        exact hall
    · exact ⟨rfl, FileSystem.file_write_of_ne h.tidy 0 hentry (hown.other t' ht' d' hheld') _⟩
    · rw [heldFile_writeLoop] at hf
      cases hf
      exact fun t' ht' hpid => h.alone t t' _ ht' hpid hheld
  | @syncs d hp =>
    have hheld : heldFile s t = some (s.finalName t d) := by rw [heldFile, hp]
    rw [hp] at hplace
    refine h.goto_same (active_of_held hheld).1 ⟨rfl, rfl, rfl, rfl, fun _ _ => rfl⟩ rfl hplace
      fun f hf => ?_
    rw [heldFile, goto_self] at hf
    rw [hheld]
    exact hf
  | noTmp hp hmissing =>
    -- the temporary file is there
    rw [hp] at hplace
    have hfull := hplace
    rw [FileSystem.rename, Option.map_eq_none_iff] at hmissing
    rw [PutOk, FileSystem.file, hmissing] at hfull
    cases hfull
  | @renames d fs hp hren =>
    have hheld : heldFile s t = some (s.finalName t d) := by rw [heldFile, hp]
    have hact := (active_of_held hheld).1
    have hown := h.own_of_pc hno (Or.inr hheld)
    refine h.goto hact ⟨rfl, rfl, rfl, rfl, fun _ _ => rfl⟩ (FileSystem.Tidy.rename hren h.tidy)
      ?_ (fun t' ht' d' hheld' => ?_) fun f hf => ?_
    · cases d with
      | blobs => trivial
      | index => trivial
    · have hne := hown.other t' ht' d' hheld'
      have hfinal : tmpFile pid s t' d' ≠ s.finalName t d :=
        (ne_tmpName (h.isHex64_finalName hact d)
          (h.isHex64_finalName (active_of_held hheld').1 d')).symm
      exact ⟨FileSystem.entry_rename_of_ne hren hne hfinal,
        FileSystem.file_rename_of_ne hren hne hfinal⟩
    · refine absurd hf (hnone ?_ f)
      rw [heldFile, goto_self]
      cases d with
      | blobs => rfl
      | index => rfl
  | @unlinkFails d hp =>
    have hact : (s.pc t).active = true := by rw [hp]; rfl
    rw [hp] at hplace
    refine h.goto_same hact ⟨rfl, rfl, rfl, rfl, fun _ _ => rfl⟩ rfl (Or.inl hplace)
      fun f hf => ?_
    exact absurd hf (hnone (by rw [heldFile, goto_self]) f)
  | @unlinks d hp =>
    have hheld : heldFile s t = some (s.finalName t d) := by rw [heldFile, hp]
    have hown := h.own_of_pc hno (Or.inr hheld)
    rw [hp] at hplace
    refine h.goto (active_of_held hheld).1 ⟨rfl, rfl, rfl, rfl, fun _ _ => rfl⟩
      (h.tidy.unlink _) (Or.inl hplace) (fun t' ht' d' hheld' => ?_) fun f hf => ?_
    · have hne := hown.other t' ht' d' hheld'
      exact ⟨FileSystem.entry_unlink_of_ne s.fs hne, FileSystem.file_unlink_of_ne s.fs hne⟩
    · exact absurd hf (hnone (by rw [heldFile, goto_self]) f)

/-- A system call changes nobody's arguments. -/
theorem args_sysStep {t : Thread} {n : Nat} {fail : Bool}
    (hstep : sysStep pid s t n fail = some s') :
    s'.data = s.data ∧ s'.key = s.key ∧ s'.calls = s.calls := by
  cases sysStep_cases hstep <;> exact ⟨rfl, rfl, rfl⟩

/-- Only a thread in a put makes system calls. -/
theorem active_of_sysStep {t : Thread} {n : Nat} {fail : Bool}
    (hstep : sysStep pid s t n fail = some s') : (s.pc t).active = true := by
  unfold sysStep at hstep
  cases hp : s.pc t with
  | idle | returned =>
    rw [hp] at hstep
    cases hstep
  | access | openTmp | write | fsync | rename | unlink => rfl

/-- A put returns from the rename of its index file, which is there with its address. -/
theorem returned_sysStep {t : Thread} {n : Nat} {fail : Bool} {addr : List Byte}
    (hplace : PutOk pid s t (s.pc t)) (hstep : sysStep pid s t n fail = some s')
    (hret : s'.pc t = .returned (.ok addr)) :
    s.pc t = .rename .index ∧ addr = oryxContentAddress (s.data t) ∧
      s'.fs.file (.index, s.key t) = some addr := by
  cases sysStep_cases hstep with
  | opens hp | writes hp =>
    rw [goto_self] at hret
    unfold writeLoop at hret
    split at hret <;> cases hret
  | @renames d fs hp hren =>
    rw [goto_self] at hret
    cases d with
    | blobs => cases hret
    | index =>
      cases hret
      rw [hp] at hplace
      exact ⟨hp, rfl, (FileSystem.file_rename_new hren).trans hplace⟩
  | found | notFound | openFails | abandons | syncs | noTmp | unlinkFails | unlinks =>
    rw [goto_self] at hret
    cases hret

theorem PutInv.sysStep (h : PutInv pid s) {t : Thread} {n : Nat} {fail : Bool}
    (hno : NoSharedTmp pid s (.sys t n fail)) (hstep : sysStep pid s t n fail = some s') :
    PutInv pid s' := by
  obtain ⟨hblobs, hindex⟩ := h.finals (h.toPutsGoing.publishes hno hstep)
  refine ⟨h.toPutsGoing.sysStep hno hstep, hblobs, ?_⟩
  rw [(args_sysStep hstep).2.2]
  exact hindex

/-! ### Steps -/

theorem callStep_some {t : Thread} {data key : List Byte} (h : callStep s t data key = some s') :
    (s.pc t).active = false ∧ s' =
      ({ s with
        data := Function.update s.data t data
        key := Function.update s.key t key
        sysFailed := Function.update s.sysFailed t false
        calls := (data, key) :: s.calls } : PutState Thread).goto t
          (if isHex64 key = false then .returned (.error .inval) else .access) := by
  unfold callStep at h
  cases hp : s.pc t with
  | idle | returned rc =>
    simp only [hp] at h
    split at h
    · next hkey =>
      cases h
      exact ⟨rfl, by rw [if_pos hkey]⟩
    · next hkey =>
      cases h
      exact ⟨rfl, by rw [if_neg hkey]⟩
  | access | openTmp | write | fsync | rename | unlink =>
    simp only [hp] at h
    cases h

theorem PutsGoing.call (h : PutsGoing pid s) {t : Thread} {data key : List Byte}
    (hcall : callStep s t data key = some s') : PutsGoing pid s' := by
  obtain ⟨hidle, rfl⟩ := callStep_some hcall
  generalize hs₁ : ({ s with
    data := Function.update s.data t data
    key := Function.update s.key t key
    sysFailed := Function.update s.sysFailed t false
    calls := (data, key) :: s.calls } : PutState Thread) = s₁
  generalize hp : (if isHex64 key = false then PutPc.returned (.error .inval) else .access) = p
  have hdata : ∀ t' ≠ t, s₁.data t' = s.data t' := by
    rw [← hs₁]
    exact fun t' ht' => Function.update_of_ne ht' _ _
  have hkeys : ∀ t' ≠ t, s₁.key t' = s.key t' := by
    rw [← hs₁]
    exact fun t' ht' => Function.update_of_ne ht' _ _
  have hfails : ∀ t' ≠ t, s₁.sysFailed t' = s.sysFailed t' := by
    rw [← hs₁]
    exact fun t' ht' => Function.update_of_ne ht' _ _
  have hown : s₁.data t = data ∧ s₁.key t = key := by
    rw [← hs₁]
    exact ⟨Function.update_self _ _ _, Function.update_self _ _ _⟩
  have hcalls : s₁.calls = (data, key) :: s.calls := by rw [← hs₁]
  have hfs : s₁.fs = s.fs := by rw [← hs₁]
  have hpcs : s₁.pc = s.pc := by rw [← hs₁]
  have hpc : ∀ t' ≠ t, (s₁.goto t p).pc t' = s.pc t' := by
    intro t' ht'
    rw [goto_other s₁ ht', hpcs]
  -- before and after the call its thread holds no temporary file
  have hheld : ∀ t', heldFile (s₁.goto t p) t' = heldFile s t' := by
    intro t'
    by_cases ht' : t' = t
    · rw [ht', heldFile_eq_none (Or.inl hidle)]
      apply heldFile_eq_none
      rw [goto_self, ← hp]
      split
      · exact Or.inl rfl
      · exact Or.inr rfl
    · exact heldFile_congr (hpc t' ht') (hdata t' ht') (hkeys t' ht')
  refine ⟨?_, fun t' hact => ?_, fun t' => ?_, fun t₁ t₂ f => ?_⟩
  · show s₁.fs.Tidy
    rw [hfs]
    exact h.tidy
  · -- a call that goes on has a well-formed key
    show isHex64 (s₁.key t') = true ∧ (s₁.data t', s₁.key t') ∈ s₁.calls
    rw [hcalls]
    by_cases ht' : t' = t
    · rw [ht', hown.1, hown.2]
      rw [ht', goto_self, ← hp] at hact
      refine ⟨?_, List.mem_cons_self⟩
      cases hkey : isHex64 key with
      | true => rfl
      | false =>
        rw [hkey, if_pos rfl] at hact
        cases hact
    · rw [hpc t' ht'] at hact
      rw [hdata t' ht', hkeys t' ht']
      exact ⟨(h.called t' hact).1, List.mem_cons_of_mem _ (h.called t' hact).2⟩
  · by_cases ht' : t' = t
    · rw [ht', goto_self, ← hp]
      split
      · next hkey => exact Or.inr ⟨rfl, (congrArg isHex64 hown.2).trans hkey⟩
      · trivial
    · rw [hpc t' ht']
      refine (h.place t').of_same (hdata t' ht') (hkeys t' ht') (hfails t' ht') fun d _ => ?_
      exact ⟨congrArg (fun fs => fs.entry (tmpFile pid s t' d)) hfs,
        congrArg (fun fs => fs.file (tmpFile pid s t' d)) hfs⟩
  · rw [hheld, hheld]
    exact h.alone t₁ t₂ f

theorem PutInv.call (h : PutInv pid s) {t : Thread} {data key : List Byte}
    (hcall : callStep s t data key = some s') : PutInv pid s' := by
  refine ⟨h.toPutsGoing.call hcall, ?_, ?_⟩
  · obtain ⟨-, rfl⟩ := callStep_some hcall
    exact h.blobs
  · obtain ⟨-, rfl⟩ := callStep_some hcall
    intro n c hn hc
    obtain ⟨d, hmem, hcd⟩ := h.index n c hn hc
    exact ⟨d, List.mem_cons_of_mem _ hmem, hcd⟩

theorem PutInv.step (h : PutInv pid s) {e : PutEvent Thread} (hno : NoSharedTmp pid s e)
    (hstep : putStep pid s e = some s') : PutInv pid s' := by
  cases e with
  | call t data key => exact h.call hstep
  | sys t n fail => exact h.sysStep hno hstep

/-- **Puts publish atomically** in a run in which no temporary file is shared. -/
theorem published_of_reaches {s₀ : PutState Thread} (hinit : PutInit s₀)
    (h : Reaches (putStep pid) (NoSharedTmp pid) s₀ s) : Published s :=
  (h.invariant (fun _ _ _ hI hok hstep => hI.step hok hstep) hinit.putInv).published

/-! ### The store that readers see -/

/-- The files under final names, as `CacheStore` has them. -/
def storeView (s : PutState Thread) : CacheStore where
  blobs n := if isHex64 n = true then s.fs.file (.blobs, n) else none
  index n := if isHex64 n = true then s.fs.file (.index, n) else none

/-- **A system call is a `writeAtomic` or nothing** to those who see final names only; the one
that writes an index file is the last of its put. -/
theorem publish_step (h : PutsGoing pid s) {t : Thread} {n : Nat} {fail : Bool}
    (hno : NoSharedTmp pid s (.sys t n fail)) (hstep : sysStep pid s t n fail = some s') :
    (storeView s' = storeView s ∧ ∀ addr, s'.pc t ≠ .returned (.ok addr)) ∨
      (s.pc t = .rename .blobs ∧ s'.pc t = .openTmp .index ∧ storeView s' = { storeView s with
        blobs := writeAtomic (storeView s).blobs (oryxContentAddress (s.data t)) (s.data t) }) ∨
      (s.pc t = .rename .index ∧ s'.pc t = .returned (.ok (oryxContentAddress (s.data t))) ∧
        storeView s' = { storeView s with
          index := writeAtomic (storeView s).index (s.key t) (oryxContentAddress (s.data t)) }) := by
  have hext : ∀ {c c' : CacheStore}, c.blobs = c'.blobs → c.index = c'.index → c = c' := by
    rintro ⟨b, i⟩ ⟨b', i'⟩ rfl rfl
    rfl
  have hview : ∀ {d : PutDir} {n : List Byte},
      (isHex64 n = true → s'.fs.file (d, n) = s.fs.file (d, n)) →
      (if isHex64 n = true then s'.fs.file (d, n) else none) =
        if isHex64 n = true then s.fs.file (d, n) else none := by
    intro d n hn
    split
    · next hhex => exact hn hhex
    · rfl
  rcases h.publishes hno hstep with hsame | ⟨d, hpc, hpc', hnew, hold⟩
  · have hblobs : (storeView s').blobs = (storeView s).blobs :=
      funext fun m => hview fun hm => hsame (.blobs, m) hm
    by_cases hret : ∃ addr, s'.pc t = .returned (.ok addr)
    · -- the index file had this address before
      obtain ⟨addr, hret⟩ := hret
      obtain ⟨hpc, rfl, hfile⟩ := returned_sysStep (h.place t) hstep hret
      have hkey : isHex64 (s.key t) = true := (h.called t (by rw [hpc]; rfl)).1
      refine Or.inr (Or.inr ⟨hpc, hret, hext hblobs (eq_writeAtomic ?_ fun m _ => ?_)⟩)
      · exact (if_pos hkey).trans hfile
      · exact hview fun hm => hsame (.index, m) hm
    · refine Or.inl ⟨hext hblobs ?_, fun addr haddr => hret ⟨addr, haddr⟩⟩
      exact funext fun m => hview fun hm => hsame (.index, m) hm
  · have hhex : isHex64 (s.finalName t d).2 = true :=
      h.isHex64_finalName (by rw [hpc]; rfl) d
    have hwrite : ∀ {d' : PutDir} {m : List Byte}, ((d', m) : FileName) = s.finalName t d →
        (if isHex64 m = true then s'.fs.file (d', m) else none) = some (s.bytes t d) := by
      intro d' m hm
      have hmhex : isHex64 m = true := (congrArg (fun f : FileName => isHex64 f.2) hm).trans hhex
      rw [if_pos hmhex, hm]
      exact hnew
    have hapart : ∀ {d' : PutDir} {m : List Byte}, d' ≠ d →
        ((d', m) : FileName) ≠ s.finalName t d := by
      intro d' m hd hc
      cases d <;> exact hd (congrArg Prod.fst hc)
    refine Or.inr ?_
    cases d with
    | blobs =>
      refine Or.inl ⟨hpc, hpc', hext (eq_writeAtomic (hwrite rfl) fun m hm => ?_) ?_⟩
      · exact hview fun hhex => hold (.blobs, m) hhex fun hc => hm (congrArg Prod.snd hc)
      · exact funext fun m => hview fun hhex => hold (.index, m) hhex (hapart PutDir.noConfusion)
    | index =>
      refine Or.inr ⟨hpc, hpc', hext ?_ (eq_writeAtomic (hwrite rfl) fun m hm => ?_)⟩
      · exact funext fun m => hview fun hhex => hold (.blobs, m) hhex (hapart PutDir.noConfusion)
      · exact hview fun hhex => hold (.index, m) hhex fun hc => hm (congrArg Prod.snd hc)

/-! ### Two threads of one process -/

/-- Nothing is asked of the events of this run. -/
abbrev PutRun (pid : Thread → Nat) : PutState Thread → PutState Thread → Prop :=
  Reaches (putStep pid) fun _ _ => True

theorem putRun_single {e : PutEvent Thread} (h : putStep pid s e = some s') :
    PutRun pid s s' := Relation.ReflTransGen.single ⟨e, trivial, h⟩

/-- The other threads and the arguments of all puts are as before. -/
structure Moved (s s' : PutState Thread) (t : Thread) (p : PutPc) : Prop where
  pc : s'.pc = Function.update s.pc t p
  data : s'.data = s.data
  key : s'.key = s.key

variable (pid)

/-- A put begins. -/
theorem call_run {t : Thread} (data : List Byte) {key : List Byte} (hpc : s.pc t = .idle)
    (hkey : isHex64 key = true) :
    ∃ s', PutRun pid s s' ∧ s'.fs = s.fs ∧ s'.pc = Function.update s.pc t .access ∧
      s'.data = Function.update s.data t data := by
  let called : PutState Thread :=
    { s with
      data := Function.update s.data t data
      key := Function.update s.key t key
      sysFailed := Function.update s.sysFailed t false
      calls := (data, key) :: s.calls }
  have hstep : putStep pid s (.call t data key) = some (called.goto t .access) := by
    show callStep s t data key = _
    rw [callStep, hpc]
    show (if isHex64 key = false then _ else _) = _
    rw [hkey]
    rfl
  exact ⟨_, putRun_single hstep, rfl, rfl, rfl⟩

/-- The blob is not there yet. -/
theorem access_run {t : Thread} (hpc : s.pc t = .access)
    (habsent : s.fs.file (s.finalName t .blobs) = none) :
    ∃ s', PutRun pid s s' ∧ Moved s s' t (.openTmp .blobs) ∧ s'.fs = s.fs := by
  have hstep : putStep pid s (.sys t 0 false) = some (s.goto t (.openTmp .blobs)) := by
    show sysStep pid s t 0 false = _
    rw [sysStep, hpc]
    show (if (s.fs.file (s.finalName t .blobs)).isSome = true ∧ false = false then _ else _) = _
    rw [habsent]
    rfl
  exact ⟨_, putRun_single hstep, ⟨rfl, rfl, rfl⟩, rfl⟩

/-- `open` empties the temporary file. -/
theorem open_run (htidy : s.fs.Tidy) {t : Thread} {d : PutDir} (hpc : s.pc t = .openTmp d) :
    ∃ s' p, PutRun pid s s' ∧ Moved s s' t p ∧ s'.fs.Tidy ∧
      s'.fs.file (tmpFile pid s t d) = some [] := by
  have hstep : putStep pid s (.sys t 0 false) =
      some ({ s with fs := (s.fs.openTrunc (tmpFile pid s t d)).1 }.goto t
        (writeLoop d (s.fs.openTrunc (tmpFile pid s t d)).2 (s.bytes t d))) := by
    show sysStep pid s t 0 false = _
    rw [sysStep, hpc]
    rfl
  exact ⟨_, _, putRun_single hstep, ⟨rfl, rfl, rfl⟩, htidy.openTrunc _,
    FileSystem.file_openTrunc s.fs _⟩

/-- From `open` to `rename`: the temporary file is full. -/
theorem fill_run (htidy : s.fs.Tidy) {t : Thread} {d : PutDir} (hpc : s.pc t = .openTmp d)
    (hbytes : s.bytes t d ≠ []) :
    ∃ s', PutRun pid s s' ∧ Moved s s' t (.rename d) ∧ s'.fs.Tidy ∧
      s'.fs.file (tmpFile pid s t d) = some (s.bytes t d) ∧
      ∀ f ≠ tmpFile pid s t d, s'.fs.file f = s.fs.file f := by
  have hentry := FileSystem.entry_openTrunc s.fs (tmpFile pid s t d)
  have htrunc := FileSystem.file_openTrunc s.fs (tmpFile pid s t d)
  have hzero := FileSystem.offset_openTrunc s.fs (tmpFile pid s t d)
  -- open, one write of all bytes, fsync
  let opened := s.fs.openTrunc (tmpFile pid s t d)
  let s₁ : PutState Thread :=
    { s with fs := opened.1 }.goto t (.write d opened.2 (s.bytes t d))
  let s₂ : PutState Thread :=
    { s₁ with fs := s₁.fs.write 0 opened.2 (s.bytes t d) }.goto t (.fsync d)
  have h₁ : putStep pid s (.sys t 0 false) = some s₁ := by
    show sysStep pid s t 0 false = some s₁
    rw [sysStep, hpc]
    show some (PutState.goto _ t (writeLoop d opened.2 (s.bytes t d))) = _
    rw [writeLoop, if_neg hbytes]
    rfl
  have h₂ : putStep pid s₁ (.sys t (s.bytes t d).length false) = some s₂ := by
    show sysStep pid s₁ t _ false = some s₂
    rw [sysStep, show s₁.pc t = .write d opened.2 (s.bytes t d) from goto_self _ _ _]
    show some (PutState.goto { s₁ with fs := s₁.fs.write 0 opened.2 ((s.bytes t d).take _) } t
      (writeLoop d _ ((s.bytes t d).drop _))) = _
    rw [List.take_length, List.drop_length, writeLoop, if_pos rfl]
  have h₃ : putStep pid s₂ (.sys t 0 false) = some (s₂.goto t (.rename d)) := by
    show sysStep pid s₂ t 0 false = _
    rw [sysStep, show s₂.pc t = .fsync d from goto_self _ _ _]
    rfl
  have hrun : PutRun pid s (s₂.goto t (.rename d)) :=
    ((putRun_single h₁).trans (putRun_single h₂)).trans (putRun_single h₃)
  have hfull := FileSystem.file_write 0 hentry htrunc (s.bytes t d)
  rw [hzero, show (0 : Nat) = ([] : List Byte).length from rfl, overwrite_end,
    List.nil_append] at hfull
  refine ⟨_, hrun, ⟨?_, rfl, rfl⟩, (htidy.openTrunc _).write 0 _ _, hfull, fun f hf => ?_⟩
  · show Function.update (Function.update (Function.update s.pc t _) t _) t _ = _
    rw [Function.update_idem, Function.update_idem]
  · exact (FileSystem.file_write_of_ne (htidy.openTrunc _) 0 hentry hf _).trans
      (FileSystem.file_openTrunc_of_ne htidy hf)

/-- The rename: what is in the temporary file is published. -/
theorem rename_run {t : Thread} {d : PutDir} (hpc : s.pc t = .rename d) {c : List Byte}
    (hfile : s.fs.file (tmpFile pid s t d) = some c) (htidy : s.fs.Tidy) :
    ∃ s', PutRun pid s s' ∧ Moved s s' t (afterRename s t d) ∧ s'.fs.Tidy ∧
      s'.fs.file (s.finalName t d) = some c := by
  obtain ⟨i, hi, -⟩ := Option.map_eq_some_iff.mp hfile
  have hren : ∃ fs, s.fs.rename (tmpFile pid s t d) (s.finalName t d) = some fs :=
    ⟨_, by rw [FileSystem.rename, hi]; rfl⟩
  obtain ⟨fs, hfs⟩ := hren
  have hstep : putStep pid s (.sys t 0 false) =
      some ({ s with fs := fs }.goto t (afterRename s t d)) := by
    show sysStep pid s t 0 false = _
    rw [sysStep, hpc]
    show (match s.fs.rename (tmpFile pid s t d) (s.finalName t d) with
      | none => some (s.goto t (.unlink d))
      | some fs => some ({ s with fs := fs }.goto t (afterRename s t d))) = _
    rw [hfs]
  exact ⟨_, putRun_single hstep, ⟨rfl, rfl, rfl⟩, FileSystem.Tidy.rename hfs htidy,
    (FileSystem.file_rename_new hfs).trans hfile⟩

/-- **Two threads of one process publish an empty blob**: one truncates the temporary file
between the other's `fsync` and `rename`. -/
theorem torn_blob_run {t₀ t₁ : Thread} (hne : t₁ ≠ t₀) (hpid : pid t₁ = pid t₀)
    (hinit : PutInit s) {data : List Byte} (hdata : data ≠ []) {key : List Byte}
    (hkey : isHex64 key = true) :
    ∃ s', PutRun pid s s' ∧ s'.fs.file (.blobs, oryxContentAddress data) = some [] := by
  have hempty := hinit.empty .blobs _ (isHex64_contentAddress data)
  -- both find no blob
  obtain ⟨a, ha, hafs, hapc, hadata⟩ := call_run pid data (hinit.pc t₀) hkey
  obtain ⟨b, hb, hbfs, hbpc, hbdata⟩ := call_run pid data (s := a) (t := t₁)
    (by rw [hapc, Function.update_of_ne hne]; exact hinit.pc t₁) hkey
  have hb₀ : b.data t₀ = data := by
    rw [hbdata, Function.update_of_ne hne.symm, hadata, Function.update_self]
  have hb₁ : b.data t₁ = data := by rw [hbdata, Function.update_self]
  have hbfile : b.fs.file (.blobs, oryxContentAddress data) = none := by
    rw [hbfs, hafs]
    exact hempty
  have hname : ∀ {x : PutState Thread} {t : Thread}, x.data t = data →
      x.finalName t .blobs = (.blobs, oryxContentAddress data) := by
    intro x t hx
    rw [PutState.finalName, hx]
  obtain ⟨c, hc, hcm, hcfs⟩ := access_run pid (s := b) (t := t₀)
    (by rw [hbpc, Function.update_of_ne hne.symm, hapc, Function.update_self])
    (by rw [hname hb₀]; exact hbfile)
  have hc₀ : c.data t₀ = data := by rw [hcm.data, hb₀]
  have hc₁ : c.data t₁ = data := by rw [hcm.data, hb₁]
  obtain ⟨d, hd, hdm, hdfs⟩ := access_run pid (s := c) (t := t₁)
    (by rw [hcm.pc, Function.update_of_ne hne, hbpc, Function.update_self])
    (by rw [hname hc₁, hcfs]; exact hbfile)
  have hd₀ : d.data t₀ = data := by rw [hdm.data, hc₀]
  -- one has written its temporary file when the other opens it
  have hdtidy : d.fs.Tidy := by
    rw [hdfs, hcfs, hbfs, hafs]
    exact hinit.tidy
  obtain ⟨e, he, hem, hetidy, -, -⟩ := fill_run pid hdtidy (t := t₀) (d := .blobs)
    (by rw [hdm.pc, Function.update_of_ne hne.symm, hcm.pc, Function.update_self])
    (by rw [PutState.bytes, hd₀]; exact hdata)
  have he₀ : e.data t₀ = data := by rw [hem.data, hd₀]
  have he₁ : e.data t₁ = data := by rw [hem.data, hdm.data, hc₁]
  obtain ⟨f, p, hf, hfm, hftidy, htorn⟩ := open_run pid hetidy (t := t₁) (d := .blobs)
    (by rw [hem.pc, Function.update_of_ne hne, hdm.pc, Function.update_self])
  have hf₀ : f.data t₀ = data := by rw [hfm.data, he₀]
  have hsame : tmpFile pid f t₀ .blobs = tmpFile pid e t₁ .blobs := by
    rw [tmpFile, tmpFile, hpid, hname hf₀, hname he₁]
  -- the first renames what the second has emptied
  obtain ⟨g, hg, -, -, hpublished⟩ := rename_run pid (t := t₀) (d := .blobs) (c := [])
    (by rw [hfm.pc, Function.update_of_ne hne.symm, hem.pc, Function.update_self])
    (by rw [hsame]; exact htorn) hftidy
  rw [hname hf₀] at hpublished
  exact ⟨g, (((((ha.trans hb).trans hc).trans hd).trans he).trans hf).trans hg, hpublished⟩

end Calls

end Invariant

/-- A new store. -/
def emptyStore (Thread : Type) : PutState Thread where
  fs := { entry := fun _ => none, content := fun _ => [], next := 0 }
  pc _ := .idle
  data _ := []
  key _ := []
  sysFailed _ := false
  calls := []

theorem putInit_emptyStore (Thread : Type) : PutInit (emptyStore Thread) where
  tidy := ⟨fun _ _ _ h => (nomatch h), fun _ _ h => (nomatch h)⟩
  empty _ _ _ := rfl
  pc _ := rfl

theorem hex64_zeros : isHex64 (List.replicate 64 0x30) = true := by decide

/-- Two threads call by call in turn: both find no blob, both write it and the index file. -/
def putsInTurn : List (PutEvent Bool) :=
  .call false [1] (List.replicate 64 0x30) :: .call true [1] (List.replicate 64 0x30) ::
    (List.replicate 10 [.sys false 40 false, .sys true 40 false]).flatten

def PutPc.stored : PutPc → Bool
  | .returned (.ok _) => true
  | _ => false

theorem PutPc.returned_of_stored {p : PutPc} (h : p.stored = true) :
    ∃ addr, p = .returned (.ok addr) := by
  unfold stored at h
  split at h
  · next addr => exact ⟨addr, rfl⟩
  · cases h

/-- A thread of each of two processes. -/
def twoPids (t : Bool) : Nat := if t then 7 else 8

theorem twoPids_injective : Function.Injective twoPids := by
  rintro (_ | _) (_ | _) h
  · rfl
  · cases h
  · cases h
  · rfl

/-- Both puts return. -/
theorem exists_putsInTurn : ∃ s,
    Reaches (putStep twoPids) (NoSharedTmp twoPids) (emptyStore Bool) s ∧
      (∀ t, ∃ addr, s.pc t = .returned (.ok addr)) ∧ ∀ p ∈ s.calls, p.1 = [1] := by
  obtain ⟨s, hrun, hstored, hcalls⟩ := @exists_of_events _ _ (fun _ _ => True) (putStep twoPids) _
    (fun s => (∀ t, (s.pc t).stored = true) ∧ ∀ p ∈ s.calls, p.1 = [1]) _ putsInTurn (emptyStore Bool)
    (by decide +kernel)
  refine ⟨s, Relation.ReflTransGen.mono (fun a b h => ?_) _ _ (Reaches.of_events hrun),
    fun t => PutPc.returned_of_stored (hstored t), hcalls⟩
  obtain ⟨e, -, hstep⟩ := h
  exact ⟨e, noSharedTmp_of_injective twoPids_injective a e, hstep⟩

/-- Two processes put the same bytes at once. -/
theorem published_of_two_pids : ∃ s : PutState Bool,
    (∀ t, ∃ addr, s.pc t = .returned (.ok addr)) ∧ Published s := by
  obtain ⟨s, hreach, hreturned, -⟩ := exists_putsInTurn
  exact ⟨s, hreturned, published_of_reaches (putInit_emptyStore Bool) hreach⟩

/-- Two threads of process 7 that put the one byte `1` leave an empty blob. -/
theorem not_published_of_one_pid : ∃ s,
    PutRun (fun _ : Bool => 7) (emptyStore Bool) s ∧ ¬ Published s := by
  obtain ⟨s, hrun, htorn⟩ := @torn_blob_run Bool (fun _ => 7) (emptyStore Bool) _ false true
    (fun h => nomatch h) rfl (putInit_emptyStore Bool) [1] (List.cons_ne_nil _ _) _ hex64_zeros
  refine ⟨s, hrun, fun hpub => ?_⟩
  have hhash := hpub.blobs _ _ (isHex64_contentAddress [1]) htorn
  revert hhash
  decide +kernel

end Oryx
