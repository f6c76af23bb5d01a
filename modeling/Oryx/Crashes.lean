/-
Oryx/Crashes.lean

Puts and crashes of the machine.

`write_atomic` syncs the temporary file before it renames it, and does not sync
the directory.  So a crash at any moment, in any number of puts, may undo
renames, those of finished puts too and a blob's without its index file's, but
never leaves under a final name a file that is not whole: every inode a final
name ever had was synced before and is never written again (`FileSystem.Lasts`
of `Lib/Crash`).

After any number of crashes a lookup gives bytes that were put under its key or
finds nothing (`crash_safe`), and the blob of a put that has returned is there
until the machine crashes again.
-/
import Oryx.CacheReads
import Oryx.Lib.Crash

namespace Oryx

/-! ### Puts on a disk -/

/-- The puts, what of their files is on the disk, and the inode of the temporary file that each
thread has open. -/
structure CrashState (Thread : Type) where
  puts : PutState Thread
  disk : OnDisk FileName
  opened : Thread → Nat

inductive CrashEvent (Thread : Type)
  | put (e : PutEvent Thread)
  /-- The machine crashes, and this is what is left of the files. -/
  | crash (fs : FileSystem FileName Byte)

section Steps

variable {Thread : Type} [DecidableEq Thread] (pid : Thread → Nat)

/-- What a system call does to the disk: `fsync` brings the bytes of the open file there, `write`
and `O_TRUNC` bring new ones that are not, and `open` and `rename` enter names. -/
def diskStep (s : CrashState Thread) (t : Thread) (fail : Bool) : OnDisk FileName :=
  if fail then s.disk
  else
    match s.puts.pc t with
    | .openTmp d =>
        let tmp := tmpFile pid s.puts t d
        let fd := (s.puts.fs.openTrunc tmp).2
        (s.disk.dirty fd.inode).enter tmp fd.inode
    | .write _ fd _ => s.disk.dirty fd.inode
    | .fsync _ => s.disk.sync (s.opened t)
    | .rename d =>
        match s.puts.fs.entry (tmpFile pid s.puts t d) with
        | some i => s.disk.enter (s.puts.finalName t d) i
        | none => s.disk
    | _ => s.disk

/-- The inode a thread has open after a system call. -/
def openedStep (s : CrashState Thread) (t : Thread) (fail : Bool) : Thread → Nat :=
  match s.puts.pc t with
  | .openTmp d =>
      if fail then s.opened
      else Function.update s.opened t (s.puts.fs.openTrunc (tmpFile pid s.puts t d)).2.inode
  | _ => s.opened

def crashStep (s : CrashState Thread) : CrashEvent Thread → Option (CrashState Thread)
  | .put (.call t data key) => (callStep s.puts t data key).map fun p => { s with puts := p }
  | .put (.sys t n fail) =>
      (sysStep pid s.puts t n fail).map fun p =>
        { puts := p, disk := diskStep pid s t fail, opened := openedStep pid s t fail }
  | .crash fs =>
      -- the threads are gone, and the bytes put stay known
      some { s with puts := { s.puts with fs := fs, pc := fun _ => .idle }, disk := .settled fs }

/-- Puts share no temporary file, and crashes leave what a crash may leave. -/
def CrashOk (s : CrashState Thread) : CrashEvent Thread → Prop
  | .put e => NoSharedTmp pid s.puts e
  | .crash fs => s.puts.fs.CrashesTo s.disk fs

end Steps

section Invariant

variable {Thread : Type} (pid : Thread → Nat)

/-- A new store on a disk that shows what is there. -/
structure CrashInit (s : CrashState Thread) : Prop where
  puts : PutInit s.puts
  shown : ∀ f i, s.disk.shown f i ↔ s.puts.fs.entry f = some i

/-! ### The invariant -/

/-- The bytes that belong under a final name: those of a blob that was put, or the address of
one that was put under the key. -/
def Belongs (s : PutState Thread) : FileName → List Byte → Prop
  | (.blobs, n), c => (∃ key, (c, key) ∈ s.calls) ∧ oryxContentAddress c = n
  | (.index, n), c => ∃ data, (data, n) ∈ s.calls ∧ c = oryxContentAddress data

theorem Belongs.mono {s s' : PutState Thread} (hcalls : s.calls ⊆ s'.calls) {f : FileName}
    {c : List Byte} (h : Belongs s f c) : Belongs s' f c := by
  obtain ⟨d, n⟩ := f
  cases d with
  | blobs =>
    obtain ⟨⟨key, hput⟩, haddr⟩ := h
    exact ⟨⟨key, hcalls hput⟩, haddr⟩
  | index =>
    obtain ⟨data, hput, hc⟩ := h
    exact ⟨data, hcalls hput, hc⟩

/-- The file a thread has open and not yet renamed. -/
def PutPc.fills (d : PutDir) : PutPc → Bool
  | .write d' _ _ | .fsync d' | .rename d' => decide (d' = d)
  | _ => false

/-- A put that has returned is there: its blob, and the blob its key leads to. -/
structure There (s : PutState Thread) (t : Thread) (addr : List Byte) : Prop where
  address : addr = oryxContentAddress (s.data t)
  put : (s.data t, s.key t) ∈ s.calls
  hex : isHex64 (s.key t) = true
  blob : (s.fs.file (.blobs, addr)).isSome = true
  index : ∃ data, s.fs.file (.index, s.key t) = some (oryxContentAddress data) ∧
    (s.fs.file (.blobs, oryxContentAddress data)).isSome = true

/-- Beside the puts: the temporary files open, synced when they are to be renamed; every inode a
final name has had since the last crash, which lasts; and what the puts have stored since then. -/
structure CrashInv (s : CrashState Thread) : Prop where
  puts : PutInv pid s.puts
  holds : ∀ t d, (s.puts.pc t).fills d = true →
    s.puts.fs.entry (tmpFile pid s.puts t d) = some (s.opened t)
  synced : ∀ t d, s.puts.pc t = .rename d → s.disk.synced (s.opened t) = true
  names : ∀ f i, s.puts.fs.entry f = some i → s.disk.shown f i
  finals : ∀ f i, isHex64 f.2 = true → s.disk.shown f i →
    ∃ c, s.puts.fs.Lasts s.disk f i c ∧ Belongs s.puts f c
  ahead : ∀ t, (s.puts.pc t).atIndex = true →
    (s.puts.fs.file (.blobs, oryxContentAddress (s.puts.data t))).isSome = true
  returned : ∀ t addr, s.puts.pc t = .returned (.ok addr) → There s.puts t addr

variable {pid} {s s' : CrashState Thread}

/-- Files under final names are whole. -/
theorem CrashInv.belongs (h : CrashInv pid s) {f : FileName} (hf : isHex64 f.2 = true)
    {c : List Byte} (hc : s.puts.fs.file f = some c) : Belongs s.puts f c := by
  obtain ⟨i, hi, rfl⟩ := Option.map_eq_some_iff.mp hc
  obtain ⟨c, hlasts, hbelongs⟩ := h.finals f i hf (h.names f i hi)
  rw [← hlasts.keeps.content] at hbelongs
  exact hbelongs

theorem CrashInit.crashInv (h : CrashInit s) : CrashInv pid s where
  puts := h.puts.putInv
  holds := by
    intro t d hfills
    rw [h.puts.pc] at hfills
    cases hfills
  synced := by
    intro t d hp
    rw [h.puts.pc] at hp
    cases hp
  names f i hi := (h.shown f i).mpr hi
  finals := by
    intro f i hf hi
    have hnone := h.puts.empty f.1 f.2 hf
    rw [FileSystem.file, Option.map_eq_none_iff] at hnone
    cases hnone.symm.trans ((h.shown f i).mp hi)
  ahead := by
    intro t hat
    rw [h.puts.pc] at hat
    cases hat
  returned := by
    intro t addr hp
    rw [h.puts.pc] at hp
    cases hp

/-- **A crash keeps it**: under the final names it leaves files that last. -/
theorem CrashInv.crash (h : CrashInv pid s) {fs : FileSystem FileName Byte}
    (hcrash : s.puts.fs.CrashesTo s.disk fs) :
    CrashInv pid { s with
      puts := { s.puts with fs := fs, pc := fun _ => .idle }
      disk := .settled fs } := by
  have hfinals : ∀ f i, isHex64 f.2 = true → fs.entry f = some i →
      ∃ c, fs.Lasts (.settled fs) f i c ∧ Belongs s.puts f c := by
    intro f i hf hi
    obtain ⟨c, hlasts, hbelongs⟩ := h.finals f i hf (hcrash.entry f i hi)
    exact ⟨c, hlasts.crash hcrash hi, hbelongs⟩
  have hfile : ∀ f c, isHex64 f.2 = true → fs.file f = some c → Belongs s.puts f c := by
    intro f c hf hc
    obtain ⟨i, hi, rfl⟩ := Option.map_eq_some_iff.mp hc
    obtain ⟨c, hlasts, hbelongs⟩ := hfinals f i hf hi
    rw [hlasts.keeps.content]
    exact hbelongs
  exact
    { puts :=
        { tidy := hcrash.tidy
          called := fun t hact => absurd hact Bool.false_ne_true
          place := fun t => trivial
          alone := fun t t' f _ _ hheld => absurd hheld.symm (Option.some_ne_none f)
          blobs := fun n c hn hc => (hfile (.blobs, n) c hn hc).2
          index := fun n c hn hc => hfile (.index, n) c hn hc }
      holds := fun t d hfills => absurd hfills Bool.false_ne_true
      synced := by
        intro t d hp
        cases hp
      names := fun f i hi => hi
      finals := hfinals
      ahead := fun t hat => absurd hat Bool.false_ne_true
      returned := by
        intro t addr hp
        cases hp }

/-! ### System calls -/

section Calls

variable [DecidableEq Thread]

/-- What a system call does to the files, to the disk and to the file its thread has open. -/
inductive DiskCase (pid : Thread → Nat) (s : CrashState Thread) (t : Thread)
    (p : PutState Thread) : OnDisk FileName → (Thread → Nat) → Prop
  | same (hfs : p.fs = s.puts.fs) (hfills : ∀ d, (p.pc t).fills d = false) :
      DiskCase pid s t p s.disk s.opened
  | opens {d : PutDir} (hp : s.puts.pc t = .openTmp d)
      (hfs : p.fs = (s.puts.fs.openTrunc (tmpFile pid s.puts t d)).1)
      (hfills : ∀ d', (p.pc t).fills d' = true → d' = d) (hpc : ∀ d', p.pc t ≠ .rename d') :
      DiskCase pid s t p
        ((s.disk.dirty (s.puts.fs.openTrunc (tmpFile pid s.puts t d)).2.inode).enter
          (tmpFile pid s.puts t d) (s.puts.fs.openTrunc (tmpFile pid s.puts t d)).2.inode)
        (Function.update s.opened t (s.puts.fs.openTrunc (tmpFile pid s.puts t d)).2.inode)
  | writes {d : PutDir} {fd : Descriptor} {left done : List Byte}
      (hp : s.puts.pc t = .write d fd left) (hfs : p.fs = s.puts.fs.write 0 fd done)
      (hfills : ∀ d', (p.pc t).fills d' = true → d' = d) (hpc : ∀ d', p.pc t ≠ .rename d') :
      DiskCase pid s t p (s.disk.dirty fd.inode) s.opened
  | syncs {d : PutDir} (hp : s.puts.pc t = .fsync d)
      (hfs : p.fs = s.puts.fs) (hpc : p.pc t = .rename d) :
      DiskCase pid s t p (s.disk.sync (s.opened t)) s.opened
  | renames {d : PutDir} {i : Nat} (hp : s.puts.pc t = .rename d)
      (hi : s.puts.fs.entry (tmpFile pid s.puts t d) = some i)
      (hren : s.puts.fs.rename (tmpFile pid s.puts t d) (s.puts.finalName t d) = some p.fs)
      (hfills : ∀ d', (p.pc t).fills d' = false) :
      DiskCase pid s t p (s.disk.enter (s.puts.finalName t d) i) s.opened
  | unlinks {d : PutDir} (hp : s.puts.pc t = .unlink d)
      (hfs : p.fs = s.puts.fs.unlink (tmpFile pid s.puts t d))
      (hfills : ∀ d', (p.pc t).fills d' = false) : DiskCase pid s t p s.disk s.opened

theorem fills_writeLoop {d d' : PutDir} {fd : Descriptor} {left : List Byte}
    (h : (writeLoop d fd left).fills d' = true) : d' = d := by
  unfold writeLoop at h
  split at h <;> exact (of_decide_eq_true h).symm

theorem writeLoop_ne_rename (d d' : PutDir) (fd : Descriptor) (left : List Byte) :
    writeLoop d fd left ≠ .rename d' := by
  unfold writeLoop
  split
  · intro h
    cases h
  · intro h
    cases h

omit [DecidableEq Thread] in
/-- Where the calls of `write_atomic` fail, the disk is left as it is. -/
theorem diskStep_fail (s : CrashState Thread) (t : Thread) : diskStep pid s t true = s.disk :=
  if_pos rfl

theorem openedStep_of_ne {t : Thread} {fail : Bool} (h : ∀ d, s.puts.pc t ≠ .openTmp d) :
    openedStep pid s t fail = s.opened := by
  unfold openedStep
  split
  · next d hp => exact absurd hp (h d)
  · rfl

theorem crashSys_cases {t : Thread} {n : Nat} {fail : Bool} {p : PutState Thread}
    (hstep : sysStep pid s.puts t n fail = some p) :
    DiskCase pid s t p (diskStep pid s t fail) (openedStep pid s t fail) := by
  have hopened : ∀ {pc : PutPc}, s.puts.pc t = pc → (∀ d, pc ≠ .openTmp d) →
      openedStep pid s t fail = s.opened := by
    rintro pc rfl hpc
    exact openedStep_of_ne hpc
  have hquiet : ∀ {q : PutState Thread} {pc : PutPc}, (∀ d, pc.fills d = false) →
      ∀ d, ((q.goto t pc).pc t).fills d = false := by
    intro q pc hpc d
    rw [goto_self]
    exact hpc d
  have hloop : ∀ {q : PutState Thread} {d : PutDir} {fd : Descriptor} {left : List Byte},
      (∀ d', ((q.goto t (writeLoop d fd left)).pc t).fills d' = true → d' = d) ∧
        ∀ d', (q.goto t (writeLoop d fd left)).pc t ≠ .rename d' := by
    intro q d fd left
    rw [goto_self]
    exact ⟨fun d' => fills_writeLoop, fun d' => writeLoop_ne_rename d d' fd left⟩
  cases sysStep_cases hstep with
  | found hp =>
    have hdisk : diskStep pid s t false = s.disk := by
      simp only [diskStep, hp, Bool.false_eq_true, if_false]
    rw [hdisk, hopened hp (fun d h => by cases h)]
    exact .same rfl (hquiet fun d => rfl)
  | notFound hp =>
    have hdisk : diskStep pid s t fail = s.disk := by
      simp only [diskStep, hp, ite_self]
    rw [hdisk, hopened hp (fun d h => by cases h)]
    exact .same rfl (hquiet fun d => rfl)
  | openFails hp =>
    have hopen : openedStep pid s t true = s.opened := by
      simp only [openedStep, hp, if_true]
    rw [diskStep_fail, hopen]
    exact .same rfl (hquiet fun d => rfl)
  | opens hp =>
    have hdisk := diskStep.eq_def pid s t false
    have hopen := openedStep.eq_def pid s t false
    simp only [hp, Bool.false_eq_true, if_false] at hdisk hopen
    rw [hdisk, hopen]
    exact .opens hp rfl hloop.1 hloop.2
  | abandons hp =>
    have hopen : openedStep pid s t true = s.opened := by
      rcases hp with ⟨fd, left, hp⟩ | hp | hp
      · exact hopened hp (fun d h => by cases h)
      · exact hopened hp (fun d h => by cases h)
      · exact hopened hp (fun d h => by cases h)
    rw [diskStep_fail, hopen]
    exact .same rfl (hquiet fun d => rfl)
  | writes hp =>
    have hdisk := diskStep.eq_def pid s t false
    simp only [hp, Bool.false_eq_true, if_false] at hdisk
    rw [hdisk, hopened hp (fun d h => by cases h)]
    exact .writes hp rfl hloop.1 hloop.2
  | syncs hp =>
    have hdisk := diskStep.eq_def pid s t false
    simp only [hp, Bool.false_eq_true, if_false] at hdisk
    rw [hdisk, hopened hp (fun d h => by cases h)]
    exact .syncs hp rfl (goto_self _ _ _)
  | noTmp hp hnone =>
    rw [FileSystem.rename, Option.map_eq_none_iff] at hnone
    have hdisk := diskStep.eq_def pid s t false
    simp only [hp, hnone, Bool.false_eq_true, if_false] at hdisk
    rw [hdisk, hopened hp (fun d h => by cases h)]
    exact .same rfl (hquiet fun d => rfl)
  | @renames d fs hp hren =>
    obtain ⟨i, hi, -⟩ := FileSystem.rename_some hren
    have hdisk := diskStep.eq_def pid s t false
    simp only [hp, hi, Bool.false_eq_true, if_false] at hdisk
    rw [hdisk, hopened hp (fun d h => by cases h)]
    refine .renames hp hi hren (hquiet fun d' => ?_)
    cases d <;> rfl
  | unlinkFails hp =>
    rw [diskStep_fail, hopened hp (fun d h => by cases h)]
    exact .same rfl (hquiet fun d => rfl)
  | unlinks hp =>
    have hdisk : diskStep pid s t false = s.disk := by
      simp only [diskStep, hp, Bool.false_eq_true, if_false]
    rw [hdisk, hopened hp (fun d h => by cases h)]
    exact .unlinks hp rfl (hquiet fun d => rfl)

omit [DecidableEq Thread] in
/-- The thread holds the file that it has open. -/
theorem held_of_fills {p : PutState Thread} {t : Thread} {d : PutDir}
    (h : (p.pc t).fills d = true) : heldFile p t = some (p.finalName t d) := by
  unfold heldFile
  cases hp : p.pc t with
  | write d' | fsync d' | rename d' =>
    rw [hp] at h
    rw [of_decide_eq_true h]
  | idle | access | openTmp | unlink | returned =>
    rw [hp] at h
    cases h

omit [DecidableEq Thread] in
theorem fills_rename (d : PutDir) : (PutPc.rename d).fills d = true := decide_eq_true rfl

section System

variable {t : Thread} {n : Nat} {fail : Bool} {p : PutState Thread}

omit [DecidableEq Thread] in
/-- The temporary file of `t` is none of the files open, other than its own. -/
theorem CrashInv.own (h : CrashInv pid s) (hno : NoSharedTmp pid s.puts (.sys t n fail))
    {d : PutDir} (hpc : s.puts.pc t = .openTmp d ∨ heldFile s.puts t = some (s.puts.finalName t d))
    {t' : Thread} (ht' : t' ≠ t) {d' : PutDir} (hfills : (s.puts.pc t').fills d' = true) :
    tmpFile pid s.puts t' d' ≠ tmpFile pid s.puts t d :=
  (h.puts.toPutsGoing.own_of_pc hno hpc).other t' ht' d' (held_of_fills hfills)

/-- What another thread has open is there and synced as before. -/
theorem CrashInv.other (h : CrashInv pid s) (hno : NoSharedTmp pid s.puts (.sys t n fail))
    {disk : OnDisk FileName} {opened : Thread → Nat} (hcase : DiskCase pid s t p disk opened)
    {t' : Thread} (ht' : t' ≠ t) {d' : PutDir} (hfills : (s.puts.pc t').fills d' = true) :
    opened t' = s.opened t' ∧
      p.fs.entry (tmpFile pid s.puts t' d') = some (s.opened t') ∧
      (s.disk.synced (s.opened t') = true → disk.synced (s.opened t') = true) := by
  have hentry := h.holds t' d' hfills
  have hplace := h.puts.place t
  cases hcase with
  | same hfs =>
    rw [hfs]
    exact ⟨rfl, hentry, id⟩
  | @opens d hp hfs =>
    have hne := h.own hno (Or.inl hp) ht' hfills
    have hentry' : (s.puts.fs.openTrunc (tmpFile pid s.puts t d)).1.entry
        (tmpFile pid s.puts t' d') = some (s.opened t') :=
      (FileSystem.entry_openTrunc_of_ne hne).trans hentry
    rw [hfs]
    refine ⟨Function.update_of_ne ht' _ _, hentry', fun hsynced => ?_⟩
    -- two files, two inodes
    refine (s.disk.synced_dirty_of_ne fun heq => hne ?_).trans hsynced
    rw [heq] at hentry'
    exact (h.puts.tidy.openTrunc _).single _ _ _ hentry' (FileSystem.entry_openTrunc _ _)
  | @writes d fd left done hp hfs =>
    have hne := h.own (d := d) hno (Or.inr (by rw [heldFile, hp])) ht' hfills
    rw [hp] at hplace
    rw [hfs]
    refine ⟨rfl, hentry, fun hsynced => ?_⟩
    refine (s.disk.synced_dirty_of_ne fun heq => hne ?_).trans hsynced
    rw [heq] at hentry
    exact h.puts.tidy.single _ _ _ hentry hplace.1
  | syncs hp hfs =>
    rw [hfs]
    exact ⟨rfl, hentry, s.disk.synced_sync⟩
  | @renames d i hp hi hren =>
    have hheld : heldFile s.puts t = some (s.puts.finalName t d) := by rw [heldFile, hp]
    have hne := h.own hno (Or.inr hheld) ht' hfills
    have hfinal : tmpFile pid s.puts t' d' ≠ s.puts.finalName t d :=
      (ne_tmpName (h.puts.toPutsGoing.isHex64_finalName (active_of_held hheld).1 d)
        (h.puts.toPutsGoing.isHex64_finalName (active_of_held (held_of_fills hfills)).1 d')).symm
    exact ⟨rfl, (FileSystem.entry_rename_of_ne hren hne hfinal).trans hentry, id⟩
  | @unlinks d hp hfs =>
    have hne := h.own (d := d) hno (Or.inr (by rw [heldFile, hp])) ht' hfills
    rw [hfs]
    exact ⟨rfl, (FileSystem.entry_unlink_of_ne s.puts.fs hne).trans hentry, id⟩

/-- The thread itself has the file open that it goes on with, and synced it before its rename. -/
theorem CrashInv.self (h : CrashInv pid s) {disk : OnDisk FileName} {opened : Thread → Nat}
    (hcase : DiskCase pid s t p disk opened) :
    (∀ d, (p.pc t).fills d = true →
      p.fs.entry (tmpFile pid s.puts t d) = some (opened t)) ∧
      ∀ d, p.pc t = .rename d → disk.synced (opened t) = true := by
  have hnone : (∀ d, (p.pc t).fills d = false) →
      (∀ d, (p.pc t).fills d = true → p.fs.entry (tmpFile pid s.puts t d) = some (opened t)) ∧
        ∀ d, p.pc t = .rename d → disk.synced (opened t) = true := by
    intro hfills
    refine ⟨fun d hd => ?_, fun d hd => ?_⟩
    · rw [hfills] at hd
      cases hd
    · have hthis := hfills d
      rw [hd, fills_rename] at hthis
      cases hthis
  cases hcase with
  | same _ hfills => exact hnone hfills
  | opens hp hfs hfills hpc =>
    refine ⟨fun d' hd' => ?_, fun d' hd' => absurd hd' (hpc d')⟩
    rw [hfills d' hd', hfs, Function.update_self]
    exact FileSystem.entry_openTrunc _ _
  | @writes d fd left done hp hfs hfills hpc =>
    refine ⟨fun d' hd' => ?_, fun d' hd' => absurd hd' (hpc d')⟩
    rw [hfills d' hd', hfs]
    exact h.holds t d (by rw [hp]; exact decide_eq_true rfl)
  | @syncs d hp hfs hpc =>
    refine ⟨fun d' hd' => ?_, fun d' _ => s.disk.synced_sync_self _⟩
    rw [hpc] at hd'
    rw [hfs, ← of_decide_eq_true hd']
    exact h.holds t d (by rw [hp]; exact decide_eq_true rfl)
  | renames _ _ _ hfills => exact hnone hfills
  | unlinks _ _ hfills => exact hnone hfills

/-- **Final names get inodes that last**. -/
theorem CrashInv.lasts (h : CrashInv pid s) (hno : NoSharedTmp pid s.puts (.sys t n fail))
    {disk : OnDisk FileName} {opened : Thread → Nat} (hcase : DiskCase pid s t p disk opened) :
    (∀ f i, p.fs.entry f = some i → disk.shown f i) ∧
      ∀ f i, isHex64 f.2 = true → disk.shown f i →
        ∃ c, p.fs.Lasts disk f i c ∧ Belongs s.puts f c := by
  have hplace := h.puts.place t
  cases hcase with
  | same hfs =>
    rw [hfs]
    exact ⟨h.names, h.finals⟩
  | @opens d hp hfs =>
    have hown := h.puts.toPutsGoing.own_of_pc hno (Or.inl hp)
    rw [hfs]
    refine ⟨fun f i hi => ?_, fun f i hf hi => ?_⟩
    · by_cases e : f = tmpFile pid s.puts t d
      · rw [e, FileSystem.entry_openTrunc] at hi
        exact Or.inl ⟨e, (Option.some.inj hi).symm⟩
      · rw [FileSystem.entry_openTrunc_of_ne e] at hi
        exact Or.inr (h.names f i hi)
    · rcases hi with ⟨e, -⟩ | hi
      · exact absurd e (hown.final f hf)
      · obtain ⟨c, hlasts, hbelongs⟩ := h.finals f i hf hi
        exact ⟨c, (hlasts.openTrunc (hown.final f hf).symm).enter _ _, hbelongs⟩
  | @writes d fd left done hp hfs =>
    have hown := h.puts.toPutsGoing.own_of_pc (d := d) hno (Or.inr (by rw [heldFile, hp]))
    rw [hp] at hplace
    rw [hfs]
    refine ⟨h.names, fun f i hf hi => ?_⟩
    obtain ⟨c, hlasts, hbelongs⟩ := h.finals f i hf hi
    exact ⟨c, hlasts.write 0 (hown.final f hf).symm hplace.1 _, hbelongs⟩
  | syncs hp hfs =>
    rw [hfs]
    refine ⟨h.names, fun f i hf hi => ?_⟩
    obtain ⟨c, hlasts, hbelongs⟩ := h.finals f i hf hi
    exact ⟨c, hlasts.sync _, hbelongs⟩
  | @renames d i hp hi hren =>
    have hown := h.puts.toPutsGoing.own_of_pc (d := d) hno (Or.inr (by rw [heldFile, hp]))
    have hact : (s.puts.pc t).active = true := by rw [hp]; rfl
    refine ⟨fun f j hj => ?_, fun f j hf hj => ?_⟩
    · obtain ⟨i', hi', hfs⟩ := FileSystem.rename_some hren
      cases hi.symm.trans hi'
      rw [hfs] at hj
      dsimp only at hj
      by_cases e : f = s.puts.finalName t d
      · rw [e, Function.update_self] at hj
        exact Or.inl ⟨e, (Option.some.inj hj).symm⟩
      · rw [Function.update_of_ne e] at hj
        by_cases e' : f = tmpFile pid s.puts t d
        · rw [e', Function.update_self] at hj
          cases hj
        · rw [Function.update_of_ne e'] at hj
          exact Or.inr (h.names f j hj)
    · rcases hj with ⟨rfl, rfl⟩ | hj
      · -- the file renamed was synced, with the bytes of the put
        have hopened : s.opened t = j := by
          have hheld := h.holds t d (by rw [hp]; exact fills_rename d)
          exact Option.some.inj (hheld.symm.trans hi)
        have hsynced := h.synced t d hp
        rw [hopened] at hsynced
        have hbytes : s.puts.fs.content j = s.puts.bytes t d := by
          rw [hp] at hplace
          have hfile : s.puts.fs.file (tmpFile pid s.puts t d) = some (s.puts.bytes t d) := hplace
          rw [FileSystem.file, hi] at hfile
          exact Option.some.inj hfile
        refine ⟨_, (FileSystem.lasts_of_rename h.puts.tidy hren hi hsynced).enter _ _, ?_⟩
        rw [hbytes]
        have hput := (h.puts.called t hact).2
        cases d with
        | blobs => exact ⟨⟨_, hput⟩, rfl⟩
        | index => exact ⟨_, hput, rfl⟩
      · obtain ⟨c, hlasts, hbelongs⟩ := h.finals f j hf hj
        exact ⟨c, (hlasts.rename (hown.final f hf).symm hren).enter _ _, hbelongs⟩
  | @unlinks d hp hfs =>
    rw [hfs]
    refine ⟨fun f i hi => ?_, fun f i hf hi => ?_⟩
    · by_cases e : f = tmpFile pid s.puts t d
      · rw [e, show (s.puts.fs.unlink _).entry _ = none from Function.update_self _ _ _] at hi
        cases hi
      · rw [FileSystem.entry_unlink_of_ne s.puts.fs e] at hi
        exact h.names f i hi
    · obtain ⟨c, hlasts, hbelongs⟩ := h.finals f i hf hi
      exact ⟨c, hlasts.unlink _, hbelongs⟩

end System

/-! ### What puts have stored -/

section Stored

variable {p p' : PutState Thread} {t : Thread} {n : Nat} {fail : Bool} {addr : List Byte}

omit [DecidableEq Thread] in
/-- What a put has stored stays through the calls of others: an index file that is replaced has
its blob again. -/
theorem There.stays (hpub : Publishes p p' t)
    (hahead : (p.pc t).atIndex = true →
      (p.fs.file (.blobs, oryxContentAddress (p.data t))).isSome = true)
    (hargs : p'.data = p.data ∧ p'.key = p.key ∧ p'.calls = p.calls) {t' : Thread}
    (h : There p t' addr) : There p' t' addr := by
  obtain ⟨hdata, hkey, hcalls⟩ := hargs
  have hblob : ∀ {data}, (p.fs.file (.blobs, oryxContentAddress data)).isSome = true →
      (p'.fs.file (.blobs, oryxContentAddress data)).isSome = true := fun hsome =>
    hpub.isSome (isHex64_contentAddress _) hsome
  refine ⟨?_, ?_, ?_, ?_, ?_⟩
  · rw [hdata]
    exact h.address
  · rw [hdata, hkey, hcalls]
    exact h.put
  · rw [hkey]
    exact h.hex
  · have hsome := h.blob
    rw [h.address] at hsome ⊢
    exact hblob hsome
  · rw [hkey]
    obtain ⟨data, hfile, hsome⟩ := h.index
    rcases hpub with hsame | ⟨d, hpc, -, hnew, hold⟩
    · rw [hsame _ h.hex]
      exact ⟨data, hfile, hblob hsome⟩
    · by_cases e : ((.index, p.key t') : FileName) = p.finalName t d
      · cases d with
        | blobs => cases e
        | index =>
          rw [e, hnew]
          exact ⟨p.data t, rfl, hblob (hahead (by rw [hpc]; rfl))⟩
      · rw [hold _ h.hex e]
        exact ⟨data, hfile, hblob hsome⟩

omit [DecidableEq Thread] in
theorem There.of_same (h : There p t addr) (hdata : p'.data t = p.data t)
    (hkey : p'.key t = p.key t) (hcalls : p.calls ⊆ p'.calls) (hfs : p'.fs = p.fs) :
    There p' t addr := by
  obtain ⟨haddr, hput, hhex, hblob, hindex⟩ := h
  rw [← hdata] at haddr hput
  rw [← hkey] at hput hhex hindex
  rw [← hfs] at hblob hindex
  exact ⟨haddr, hcalls hput, hhex, hblob, hindex⟩

/-- The same for the put that returns. -/
theorem There.of_returned (h : PutInv pid p)
    (hahead : (p.pc t).atIndex = true →
      (p.fs.file (.blobs, oryxContentAddress (p.data t))).isSome = true)
    (hno : NoSharedTmp pid p (.sys t n fail)) (hstep : sysStep pid p t n fail = some p')
    (hret : p'.pc t = .returned (.ok addr)) : There p' t addr := by
  obtain ⟨hpc, haddr, hfile⟩ := returned_sysStep (h.place t) hstep hret
  obtain ⟨hdata, hkey, hcalls⟩ := args_sysStep hstep
  obtain ⟨hhex, hput⟩ := h.called t (by rw [hpc]; rfl)
  have hblob := (h.toPutsGoing.publishes hno hstep).isSome
    (isHex64_contentAddress (p.data t)) (hahead (by rw [hpc]; rfl))
  refine ⟨?_, ?_, ?_, ?_, ?_⟩
  · rw [hdata]
    exact haddr
  · rw [hdata, hkey, hcalls]
    exact hput
  · rw [hkey]
    exact hhex
  · rw [haddr]
    exact hblob
  · rw [hkey]
    rw [haddr] at hfile
    exact ⟨p.data t, hfile, hblob⟩

end Stored

/-! ### Steps -/

/-- **A system call keeps it**. -/
theorem CrashInv.sysStep (h : CrashInv pid s) {t : Thread} {n : Nat} {fail : Bool}
    {p : PutState Thread} (hno : NoSharedTmp pid s.puts (.sys t n fail))
    (hstep : sysStep pid s.puts t n fail = some p) :
    CrashInv pid
      { puts := p, disk := diskStep pid s t fail, opened := openedStep pid s t fail } := by
  have hcase := crashSys_cases hstep
  obtain ⟨hdata, hkey, hcalls⟩ := args_sysStep hstep
  have hpub := h.puts.toPutsGoing.publishes hno hstep
  have htmp : ∀ t' d, tmpFile pid p t' d = tmpFile pid s.puts t' d := by
    intro t' d
    rw [tmpFile, tmpFile, finalName_congr (congrFun hdata t') (congrFun hkey t')]
  have hsub : s.puts.calls ⊆ p.calls := by
    rw [hcalls]
    exact List.Subset.refl _
  obtain ⟨hnames, hfinals⟩ := h.lasts hno hcase
  refine ⟨h.puts.sysStep hno hstep, fun t' d hfills => ?_, fun t' d hp => ?_, hnames,
    fun f i hf hi => ?_, fun t' hat => ?_, fun t' addr hret => ?_⟩
  · dsimp only at hfills ⊢
    rw [htmp]
    by_cases ht' : t' = t
    · rw [ht'] at hfills ⊢
      exact (h.self hcase).1 d hfills
    · rw [pc_sysStep hstep ht'] at hfills
      obtain ⟨hopened, hentry, -⟩ := h.other hno hcase ht' hfills
      rw [hopened]
      exact hentry
  · dsimp only at hp ⊢
    by_cases ht' : t' = t
    · rw [ht'] at hp ⊢
      exact (h.self hcase).2 d hp
    · rw [pc_sysStep hstep ht'] at hp
      have hfills : (s.puts.pc t').fills d = true := by
        rw [hp]
        exact fills_rename d
      obtain ⟨hopened, -, hsynced⟩ := h.other hno hcase ht' hfills
      rw [hopened]
      exact hsynced (h.synced t' d hp)
  · obtain ⟨c, hlasts, hbelongs⟩ := hfinals f i hf hi
    exact ⟨c, hlasts, hbelongs.mono hsub⟩
  · dsimp only at hat ⊢
    rw [hdata]
    by_cases ht' : t' = t
    · rw [ht'] at hat ⊢
      exact ahead_sysStep h.puts (h.ahead t) hno hstep hat
    · rw [pc_sysStep hstep ht'] at hat
      exact hpub.isSome (isHex64_contentAddress _) (h.ahead t' hat)
  · dsimp only at hret ⊢
    by_cases ht' : t' = t
    · rw [ht'] at hret ⊢
      exact There.of_returned h.puts (h.ahead t) hno hstep hret
    · rw [pc_sysStep hstep ht'] at hret
      exact (h.returned t' addr hret).stays hpub (h.ahead t) ⟨hdata, hkey, hcalls⟩

/-- A call takes the thread to its first system call, or back with `INVAL`. -/
theorem CrashInv.call (h : CrashInv pid s) {t : Thread} {data key : List Byte}
    {p : PutState Thread} (hcall : callStep s.puts t data key = some p) :
    CrashInv pid { s with puts := p } := by
  have hput := h.puts.call hcall
  obtain ⟨-, rfl⟩ := callStep_some hcall
  generalize hpc : (if isHex64 key = false then PutPc.returned (.error .inval) else .access) = pc
    at hput ⊢
  have hquiet : (∀ d, pc.fills d = false) ∧ pc.atIndex = false ∧
      ∀ addr, pc ≠ .returned (.ok addr) := by
    rw [← hpc]
    split
    · exact ⟨fun d => rfl, rfl, fun addr h => by cases h⟩
    · exact ⟨fun d => rfl, rfl, fun addr h => by cases h⟩
  obtain ⟨hfills, hindex, hok⟩ := hquiet
  generalize hs₁ : ({ s.puts with
    data := Function.update s.puts.data t data
    key := Function.update s.puts.key t key
    sysFailed := Function.update s.puts.sysFailed t false
    calls := (data, key) :: s.puts.calls } : PutState Thread) = s₁ at hput ⊢
  have hfs : s₁.fs = s.puts.fs := by rw [← hs₁]
  have hsub : s.puts.calls ⊆ s₁.calls := by
    rw [← hs₁]
    exact List.subset_cons_self _ _
  have hother : ∀ t' ≠ t, (s₁.goto t pc).pc t' = s.puts.pc t' ∧ s₁.data t' = s.puts.data t' ∧
      s₁.key t' = s.puts.key t' := by
    intro t' ht'
    rw [goto_other _ ht', ← hs₁]
    exact ⟨rfl, Function.update_of_ne ht' _ _, Function.update_of_ne ht' _ _⟩
  have hself : ∀ {t'}, t' = t → (s₁.goto t pc).pc t' = pc := by
    rintro t' rfl
    exact goto_self _ _ _
  -- a thread that is called has no file, and has stored nothing yet
  have hne : ∀ {t'}, ((s₁.goto t pc).pc t' ≠ pc) → t' ≠ t := fun hpc' ht' => hpc' (hself ht')
  refine ⟨hput, fun t' d hd => ?_, fun t' d hd => ?_, fun f i hi => ?_, fun f i hf hi => ?_,
    fun t' hat => ?_, fun t' addr hret => ?_⟩
  · dsimp only at hd ⊢
    obtain ⟨hpc', hdata, hkey⟩ := hother t' (hne fun heq => by
      rw [heq, hfills] at hd
      cases hd)
    rw [hpc'] at hd
    show s₁.fs.entry (tmpFile pid s₁ t' d) = _
    rw [hfs, tmpFile, finalName_congr hdata hkey]
    exact h.holds t' d hd
  · dsimp only at hd ⊢
    obtain ⟨hpc', -, -⟩ := hother t' (hne fun heq => by
      have hthis := hfills d
      rw [← heq, hd, fills_rename] at hthis
      cases hthis)
    rw [hpc'] at hd
    exact h.synced t' d hd
  · exact h.names f i (by rw [← hfs]; exact hi)
  · obtain ⟨c, hlasts, hbelongs⟩ := h.finals f i hf hi
    refine ⟨c, ?_, hbelongs.mono hsub⟩
    show s₁.fs.Lasts s.disk f i c
    rw [hfs]
    exact hlasts
  · dsimp only at hat ⊢
    obtain ⟨hpc', hdata, -⟩ := hother t' (hne fun heq => by
      rw [heq, hindex] at hat
      cases hat)
    rw [hpc'] at hat
    show (s₁.fs.file (.blobs, oryxContentAddress (s₁.data t'))).isSome = true
    rw [hfs, hdata]
    exact h.ahead t' hat
  · dsimp only at hret ⊢
    obtain ⟨hpc', hdata, hkey⟩ := hother t' (hne fun heq => hok addr (heq.symm.trans hret))
    rw [hpc'] at hret
    exact (h.returned t' addr hret).of_same hdata hkey hsub hfs

/-- **The invariant** of puts and crashes. -/
theorem CrashInv.step (h : CrashInv pid s) {e : CrashEvent Thread} (hok : CrashOk pid s e)
    (hstep : crashStep pid s e = some s') : CrashInv pid s' := by
  cases e with
  | put e =>
    cases e with
    | call t data key =>
      obtain ⟨p, hp, rfl⟩ := Option.map_eq_some_iff.mp hstep
      exact h.call hp
    | sys t n fail =>
      obtain ⟨p, hp, rfl⟩ := Option.map_eq_some_iff.mp hstep
      exact h.sysStep hok hp
  | crash fs =>
    cases hstep
    exact h.crash hok

theorem CrashInit.reaches {s₀ : CrashState Thread} (hinit : CrashInit s₀)
    (h : Reaches (crashStep pid) (CrashOk pid) s₀ s) : CrashInv pid s :=
  h.invariant (fun _ _ _ hI hok hstep => hI.step hok hstep) hinit.crashInv

/-! ### Lookups after crashes -/

section Lookup

variable {p : PutState Thread} {key data : List Byte}

omit [DecidableEq Thread]

/-- An index file that is whole resolves. -/
theorem resolve_storeView (hkey : isHex64 key = true)
    (hindex : p.fs.file (.index, key) = some (oryxContentAddress data)) :
    oryxCacheResolve (storeView p) key = .ok (oryxContentAddress data) := by
  have hhex := isHex64_contentAddress data
  have hlen := length_of_isHex64 hhex
  refine oryxCacheResolve_ok.mpr ⟨hkey, oryxContentAddress data,
    (storeView_index p hkey).trans hindex, hlen.ge, ?_, hhex⟩
  rw [← hlen, List.take_length]

/-- A whole blob that was put is the bytes put that have its address. -/
theorem CrashInv.getBlob (h : CrashInv pid s)
    (hapart : ∀ q ∈ s.puts.calls, oryxContentAddress q.1 = oryxContentAddress data → q.1 = data)
    (hblob : (s.puts.fs.file (.blobs, oryxContentAddress data)).isSome = true) :
    oryxCacheGetBlob (storeView s.puts) (oryxContentAddress data) = .ok data := by
  have hhex := isHex64_contentAddress data
  obtain ⟨c, hc⟩ := Option.isSome_iff_exists.mp hblob
  obtain ⟨⟨key, hput⟩, haddr⟩ := h.belongs hhex hc
  have hsame : c = data := hapart _ hput haddr
  refine oryxCacheGetBlob_ok.mpr ⟨hhex, ?_, rfl⟩
  rw [storeView_blobs s.puts hhex, hc, hsame]

/-- A lookup that finds an index file gives the unit of bytes put under the key, or misses their
blob. -/
theorem CrashInv.getTu (h : CrashInv pid s)
    (hapart : ∀ q ∈ s.puts.calls, oryxContentAddress q.1 = oryxContentAddress data → q.1 = data)
    (hkey : isHex64 key = true)
    (hindex : s.puts.fs.file (.index, key) = some (oryxContentAddress data)) :
    oryxCacheGetTu (storeView s.puts) key =
      if (s.puts.fs.file (.blobs, oryxContentAddress data)).isSome = true then oryxTuParse data
      else .error .notfound := by
  cases hblob : s.puts.fs.file (.blobs, oryxContentAddress data) with
  | none =>
    have hhex := isHex64_contentAddress data
    exact oryxCacheGetTu_of_missing (resolve_storeView hkey hindex) hhex
      ((storeView_blobs s.puts hhex).trans hblob)
  | some c =>
    exact oryxCacheGetTu_of_blob (resolve_storeView hkey hindex)
      (h.getBlob hapart (Option.isSome_iff_exists.mpr ⟨c, hblob⟩))

end Lookup

/-- **Crashes tear nothing**: after puts by any threads, cut off by any crashes, a lookup of a
well-formed key gives the unit of bytes put under it or finds nothing.  A put that has returned
since the last crash has its blob, and its key is found; and puts over what crashes have left fail
only when the system fails them. -/
theorem crash_safe {s₀ : CrashState Thread} (hinit : CrashInit s₀)
    (h : Reaches (crashStep pid) (CrashOk pid) s₀ s)
    (hapart : ∀ p ∈ s.puts.calls, ∀ q ∈ s.puts.calls,
      oryxContentAddress p.1 = oryxContentAddress q.1 → p.1 = q.1) :
    (∀ key, isHex64 key = true →
      oryxCacheGetTu (storeView s.puts) key = .error .notfound ∨
        ∃ data, (data, key) ∈ s.puts.calls ∧
          oryxCacheGetTu (storeView s.puts) key = oryxTuParse data) ∧
      (∀ t addr, s.puts.pc t = .returned (.ok addr) →
        oryxCacheGetBlob (storeView s.puts) addr = .ok (s.puts.data t) ∧
          ∃ data, (data, s.puts.key t) ∈ s.puts.calls ∧
            oryxCacheGetTu (storeView s.puts) (s.puts.key t) = oryxTuParse data) ∧
      ∀ t e, s.puts.pc t = .returned (.error e) →
        s.puts.sysFailed t = true ∨ (e = .inval ∧ isHex64 (s.puts.key t) = false) := by
  have hinv : CrashInv pid s := hinit.reaches h
  have hput : ∀ {data key}, (data, key) ∈ s.puts.calls → ∀ q ∈ s.puts.calls,
      oryxContentAddress q.1 = oryxContentAddress data → q.1 = data :=
    fun hmem q hq => hapart q hq _ hmem
  refine ⟨fun key hkey => ?_, fun t addr hret => ?_, hinv.puts.published.fails⟩
  · cases hfile : s.puts.fs.file (.index, key) with
    | none =>
      have hnone := (storeView_index s.puts hkey).trans hfile
      refine Or.inl ?_
      simp only [oryxCacheGetTu, oryxCacheResolve, hkey, readFile, hnone, Bool.true_eq_false,
        if_false]
    | some c =>
      obtain ⟨data, hmem, rfl⟩ := hinv.belongs (f := (.index, key)) hkey hfile
      rw [hinv.getTu (hput hmem) hkey hfile]
      split
      · exact Or.inr ⟨data, hmem, rfl⟩
      · exact Or.inl rfl
  · obtain ⟨rfl, hmem, hhex, hblob, data, hfile, hsome⟩ := hinv.returned t addr hret
    refine ⟨hinv.getBlob (hput hmem) hblob, ?_⟩
    obtain ⟨data', hmem', hsame⟩ := hinv.belongs (f := (.index, s.puts.key t)) hhex hfile
    rw [hsame] at hfile hsome
    refine ⟨data', hmem', ?_⟩
    rw [hinv.getTu (hput hmem') hhex hfile, if_pos hsome]

end Calls

end Invariant

/-! ### A crash in a put -/

/-- A new store, of which nothing is on the disk. -/
def newDisk : CrashState Unit where
  puts := emptyStore Unit
  disk := { synced := fun _ => false, shown := fun _ _ => False }
  opened _ := 0

theorem crashInit_newDisk : CrashInit newDisk where
  puts := putInit_emptyStore Unit
  shown f i := by
    constructor
    · exact False.elim
    · intro h
      cases h

/-- A crash that loses the bytes that are not on the disk, and nothing else. -/
def tear (s : CrashState Unit) : CrashState Unit :=
  let fs : FileSystem FileName Byte := s.puts.fs.torn s.disk
  { s with puts := { s.puts with fs := fs, pc := fun _ => .idle }, disk := .settled fs }

/-- No crash. -/
def Running (_ : CrashState Unit) : CrashEvent Unit → Prop
  | .put _ => True
  | .crash _ => False

instance (s : CrashState Unit) (e : CrashEvent Unit) : Decidable (Running s e) :=
  match e with
  | .put _ => isTrue trivial
  | .crash _ => isFalse id

theorem Running.crashOk {pid : Unit → Nat} {s : CrashState Unit} {e : CrashEvent Unit}
    (h : Running s e) : CrashOk pid s e := by
  cases e with
  | crash fs => cases h
  | put e =>
    cases e with
    | call => trivial
    | sys t n fail => exact fun _ _ t' ht' => absurd (Subsingleton.elim t' t) ht'

/-- The put of a unit and so many of its system calls. -/
def putEvents (calls : Nat) : List (CrashEvent Unit) :=
  .put (.call () (oryxTuSerialize emptyTu) (oryxTuLogicalKey emptyTu)) ::
    List.replicate calls (.put (.sys () 100 false))

/-- The put has returned, and the unit is all that was ever put. -/
def Stored (s : CrashState Unit) : Bool :=
  (match s.puts.pc () with
    | .returned (.ok _) => true
    | _ => false) &&
    decide (s.puts.data () = oryxTuSerialize emptyTu) &&
    s.puts.calls.all fun p => decide (p.1 = oryxTuSerialize emptyTu)

/-- The machine crashes while the index file is being written, and the same put succeeds. -/
theorem crash_safe_again : ∃ (s : CrashState Unit) (addr : List Byte),
    Reaches (crashStep fun _ => 7) (CrashOk fun _ => 7) newDisk s ∧
      s.puts.pc () = .returned (.ok addr) ∧
      oryxCacheGetBlob (storeView s.puts) addr = .ok (oryxTuSerialize emptyTu) := by
  have hrun : ((runEvents (crashStep fun _ => 7) Running newDisk (putEvents 7)).bind fun s =>
      runEvents (crashStep fun _ => 7) Running (tear s) (putEvents 5)).any Stored = true := by
    decide +kernel
  obtain ⟨s, hs, hstored⟩ := (Option.any_eq_true _ _).mp hrun
  obtain ⟨s₁, hs₁, hrest⟩ := Option.bind_eq_some_iff.mp hs
  have hmono : ∀ {a b : CrashState Unit}, Reaches (crashStep fun _ => 7) Running a b →
      Reaches (crashStep fun _ => 7) (CrashOk fun _ => 7) a b := fun h =>
    Relation.ReflTransGen.mono (fun a b ⟨e, hok, hstep⟩ => ⟨e, hok.crashOk, hstep⟩) _ _ h
  have hfirst := hmono (Reaches.of_events hs₁)
  have hinv := crashInit_newDisk.reaches hfirst
  have hreach : Reaches (crashStep fun _ => 7) (CrashOk fun _ => 7) newDisk s :=
    (hfirst.tail ⟨.crash _, FileSystem.crashesTo_torn hinv.puts.tidy hinv.names, rfl⟩).trans
      (hmono (Reaches.of_events hrest))
  unfold Stored at hstored
  rw [Bool.and_eq_true, Bool.and_eq_true, decide_eq_true_iff, List.all_eq_true] at hstored
  obtain ⟨⟨hret, hdata⟩, hcalls⟩ := hstored
  have hall : ∀ p ∈ s.puts.calls, p.1 = oryxTuSerialize emptyTu := fun p hp =>
    of_decide_eq_true (hcalls p hp)
  split at hret
  · next addr hpc =>
    have hget := ((crash_safe crashInit_newDisk hreach fun p hp q hq _ =>
      (hall p hp).trans (hall q hq).symm).2.1 () addr hpc).1
    rw [hdata] at hget
    exact ⟨s, addr, hreach, hpc, hget⟩
  · cases hret

end Oryx
