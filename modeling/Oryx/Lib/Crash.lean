/-
Oryx/Lib/Crash.lean

What a crash leaves of a file system.

The bytes of an inode are on the disk from a sync to the next write; of bytes
that are not, nothing is known after a crash.  A directory entry reaches the
disk some time after it was made, so a crash may leave under a name any inode
the name has had since the crash before, or none (`CrashesTo`).

A file `Lasts` under a name when its bytes are synced and the name is the only
one it has: work on files of other names does not change that, and neither
does a crash that leaves it there.
-/
import Oryx.Lib.FileSystem

namespace Oryx

/-- The inodes whose bytes are on the disk, and those that a crash may leave under each name. -/
structure OnDisk (N : Type*) where
  synced : Nat → Bool
  shown : N → Nat → Prop

namespace OnDisk

variable {N B : Type*} (disk : OnDisk N)

/-- The bytes of an inode change. -/
def dirty (i : Nat) : OnDisk N := { disk with synced := Function.update disk.synced i false }

def sync (i : Nat) : OnDisk N := { disk with synced := Function.update disk.synced i true }

/-- A name gets an inode. -/
def enter (n : N) (i : Nat) : OnDisk N :=
  { disk with shown := fun n' i' => (n' = n ∧ i' = i) ∨ disk.shown n' i' }

/-- After a crash there is nothing but the disk. -/
def settled (fs : FileSystem N B) : OnDisk N where
  synced _ := true
  shown n i := fs.entry n = some i

theorem synced_dirty_of_ne {i j : Nat} (h : j ≠ i) : (disk.dirty i).synced j = disk.synced j :=
  Function.update_of_ne h _ _

theorem synced_sync_self (i : Nat) : (disk.sync i).synced i = true := Function.update_self _ _ _

theorem synced_sync {i j : Nat} (h : disk.synced j = true) : (disk.sync i).synced j = true := by
  show Function.update disk.synced i true j = true
  rw [Function.update_apply]
  split
  · rfl
  · exact h

end OnDisk

namespace FileSystem

variable {N B : Type*}

/-- What a file system may be after a crash. -/
structure CrashesTo (fs : FileSystem N B) (disk : OnDisk N) (fs' : FileSystem N B) : Prop where
  tidy : fs'.Tidy
  entry : ∀ n i, fs'.entry n = some i → disk.shown n i
  content : ∀ i, disk.synced i = true → fs'.content i = fs.content i

/-- Where the bytes that are not on the disk are lost. -/
def torn (fs : FileSystem N B) (disk : OnDisk N) : FileSystem N B :=
  { fs with content := fun i => if disk.synced i then fs.content i else [] }

/-- A crash that leaves the names there are may leave that. -/
theorem crashesTo_torn {fs : FileSystem N B} {disk : OnDisk N} (ht : fs.Tidy)
    (hshown : ∀ n i, fs.entry n = some i → disk.shown n i) : fs.CrashesTo disk (fs.torn disk) where
  tidy := ⟨ht.single, ht.used⟩
  entry := hshown
  content _ hi := if_pos hi

/-- An inode that has this name or none, with its bytes on the disk. -/
structure Lasts (fs : FileSystem N B) (disk : OnDisk N) (n : N) (i : Nat) (c : List B) : Prop where
  keeps : fs.Keeps (· = n) i c
  synced : disk.synced i = true

section Lasts

variable {fs fs' : FileSystem N B} {disk : OnDisk N} {n n' : N} {i : Nat} {c : List B}

/-- **A crash leaves it as it is**, if it leaves it. -/
theorem Lasts.crash (h : fs.Lasts disk n i c) (hcrash : fs.CrashesTo disk fs')
    (hn : fs'.entry n = some i) : fs'.Lasts (OnDisk.settled fs') n i c where
  keeps :=
    { used := hcrash.tidy.used n i hn
      content := (hcrash.content i h.synced).trans h.keeps.content
      names := fun n' hn' => hcrash.tidy.single n' n i hn' hn }
  synced := rfl

theorem Lasts.sync (h : fs.Lasts disk n i c) (j : Nat) : fs.Lasts (disk.sync j) n i c where
  keeps := h.keeps
  synced := disk.synced_sync h.synced

theorem Lasts.enter (h : fs.Lasts disk n i c) (n' : N) (j : Nat) :
    fs.Lasts (disk.enter n' j) n i c := ⟨h.keeps, h.synced⟩

theorem Lasts.write (h : fs.Lasts disk n i c) (fill : B) {fd : Descriptor} (hne : n' ≠ n)
    (hfd : fs.entry n' = some fd.inode) (bytes : List B) :
    (fs.write fill fd bytes).Lasts (disk.dirty fd.inode) n i c where
  keeps := h.keeps.write fill hne hfd bytes
  synced := (disk.synced_dirty_of_ne (h.keeps.ne hne hfd)).trans h.synced

variable [DecidableEq N]

theorem Lasts.openTrunc (h : fs.Lasts disk n i c) (hne : n' ≠ n) :
    (fs.openTrunc n').1.Lasts (disk.dirty (fs.openTrunc n').2.inode) n i c where
  keeps := h.keeps.openTrunc hne
  synced := by
    rw [disk.synced_dirty_of_ne ((h.keeps.openTrunc hne).ne hne (entry_openTrunc fs n'))]
    exact h.synced

theorem Lasts.rename (h : fs.Lasts disk n i c) {old new : N} (hne : old ≠ n)
    (hren : fs.rename old new = some fs') : fs'.Lasts disk n i c :=
  ⟨h.keeps.rename hne hren, h.synced⟩

theorem Lasts.unlink (h : fs.Lasts disk n i c) (n' : N) : (fs.unlink n').Lasts disk n i c :=
  ⟨h.keeps.unlink n', h.synced⟩

/-- **A synced file that is renamed lasts** under its new name. -/
theorem lasts_of_rename (ht : fs.Tidy) {old new : N} (hren : fs.rename old new = some fs')
    (hold : fs.entry old = some i) (hsynced : disk.synced i = true) :
    fs'.Lasts disk new i (fs.content i) := by
  have ht' := Tidy.rename hren ht
  obtain ⟨j, hj, rfl⟩ := rename_some hren
  cases hold.symm.trans hj
  exact ⟨ht'.keeps (Function.update_self _ _ _) rfl, hsynced⟩

end Lasts

end FileSystem

end Oryx
