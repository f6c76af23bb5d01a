/-
Oryx/Lib/FileSystem.lean

Files as the POSIX calls see them: names point to inodes, an open descriptor
points to an inode and an offset in it, and neither follows the other.

Opening with `O_CREAT | O_TRUNC` empties the file of that name for every
descriptor on it, `rename` moves the inode to another name, descriptors and
all.  As long as no two names share an inode (`Tidy`) an operation changes the
file of the name it was called for and no other (`file_*`).
-/
import Mathlib.Logic.Function.Basic

namespace Oryx

/-- Directory entries, the bytes of each inode, and the first inode not in use. -/
structure FileSystem (N B : Type*) where
  entry : N → Option Nat
  content : Nat → List B
  next : Nat

/-- An open file. -/
structure Descriptor where
  inode : Nat
  offset : Nat
  deriving DecidableEq, Repr

/-- Bytes written at an offset; `fill` stands where nothing was ever written. -/
def overwrite {B : Type*} (fill : B) (old : List B) (offset : Nat) (bytes : List B) : List B :=
  old.take offset ++ List.replicate (offset - old.length) fill ++ bytes ++
    old.drop (offset + bytes.length)

theorem overwrite_end {B : Type*} (fill : B) (old bytes : List B) :
    overwrite fill old old.length bytes = old ++ bytes := by
  rw [overwrite, List.take_length, Nat.sub_self, List.replicate_zero, List.append_nil,
    List.drop_of_length_le (Nat.le_add_right _ _), List.append_nil]

namespace FileSystem

variable {N B : Type*}

/-- The bytes under a name. -/
def file (fs : FileSystem N B) (n : N) : Option (List B) := (fs.entry n).map fs.content

/-- No two names share an inode, and all inodes named are in use. -/
structure Tidy (fs : FileSystem N B) : Prop where
  single : ∀ n n' i, fs.entry n = some i → fs.entry n' = some i → n = n'
  used : ∀ n i, fs.entry n = some i → i < fs.next

/-- `write` at the offset of the descriptor. -/
def write (fs : FileSystem N B) (fill : B) (fd : Descriptor) (bytes : List B) : FileSystem N B :=
  { fs with
    content := Function.update fs.content fd.inode
      (overwrite fill (fs.content fd.inode) fd.offset bytes) }

theorem Tidy.write {fs : FileSystem N B} (h : fs.Tidy) (fill : B) (fd : Descriptor)
    (bytes : List B) : (fs.write fill fd bytes).Tidy := ⟨h.single, h.used⟩

theorem file_write {fs : FileSystem N B} (fill : B) {fd : Descriptor} {n : N}
    (hn : fs.entry n = some fd.inode) {old : List B} (hold : fs.file n = some old)
    (bytes : List B) :
    (fs.write fill fd bytes).file n = some (overwrite fill old fd.offset bytes) := by
  rw [file, hn] at hold
  cases hold
  show (fs.entry n).map (Function.update _ _ _) = _
  rw [hn, Option.map_some, Function.update_self]

theorem file_write_of_ne {fs : FileSystem N B} (h : fs.Tidy) (fill : B) {fd : Descriptor} {n n' : N}
    (hn : fs.entry n = some fd.inode) (hne : n' ≠ n) (bytes : List B) :
    (fs.write fill fd bytes).file n' = fs.file n' := by
  show (fs.entry n').map (Function.update _ _ _) = (fs.entry n').map _
  cases hn' : fs.entry n' with
  | none => rfl
  | some i =>
    have hi : i ≠ fd.inode := by
      rintro rfl
      exact hne (h.single n' n _ hn' hn)
    rw [Option.map_some, Option.map_some, Function.update_of_ne hi]

variable [DecidableEq N]

/-- `open` with `O_CREAT | O_TRUNC`. -/
def openTrunc (fs : FileSystem N B) (n : N) : FileSystem N B × Descriptor :=
  match fs.entry n with
  | some i => ({ fs with content := Function.update fs.content i [] }, ⟨i, 0⟩)
  | none =>
      ({ entry := Function.update fs.entry n (some fs.next)
         content := Function.update fs.content fs.next []
         next := fs.next + 1 }, ⟨fs.next, 0⟩)

/-- `rename`, which fails where there is no file to move. -/
def rename (fs : FileSystem N B) (old new : N) : Option (FileSystem N B) :=
  (fs.entry old).map fun i =>
    { fs with entry := Function.update (Function.update fs.entry old none) new (some i) }

def unlink (fs : FileSystem N B) (n : N) : FileSystem N B :=
  { fs with entry := Function.update fs.entry n none }

section Open

variable {fs : FileSystem N B} {n : N}

theorem openTrunc_of_some {i : Nat} (hi : fs.entry n = some i) :
    fs.openTrunc n = ({ fs with content := Function.update fs.content i [] }, ⟨i, 0⟩) := by
  rw [openTrunc, hi]

theorem openTrunc_of_none (hn : fs.entry n = none) :
    fs.openTrunc n =
      ({ entry := Function.update fs.entry n (some fs.next)
         content := Function.update fs.content fs.next []
         next := fs.next + 1 }, ⟨fs.next, 0⟩) := by
  rw [openTrunc, hn]

variable (fs n)

theorem entry_openTrunc : (fs.openTrunc n).1.entry n = some (fs.openTrunc n).2.inode := by
  cases hn : fs.entry n with
  | none =>
    rw [openTrunc_of_none hn]
    exact Function.update_self _ _ _
  | some i =>
    rw [openTrunc_of_some hn]
    exact hn

theorem offset_openTrunc : (fs.openTrunc n).2.offset = 0 := by
  cases hn : fs.entry n with
  | none => rw [openTrunc_of_none hn]
  | some i => rw [openTrunc_of_some hn]

theorem file_openTrunc : (fs.openTrunc n).1.file n = some [] := by
  cases hn : fs.entry n with
  | none =>
    rw [openTrunc_of_none hn]
    show (Function.update fs.entry n (some fs.next) n).map
      (Function.update fs.content fs.next []) = _
    rw [Function.update_self, Option.map_some, Function.update_self]
  | some i =>
    rw [openTrunc_of_some hn]
    show (fs.entry n).map (Function.update fs.content i []) = _
    rw [hn, Option.map_some, Function.update_self]

variable {fs n}

theorem entry_openTrunc_of_ne {n' : N} (hne : n' ≠ n) :
    (fs.openTrunc n).1.entry n' = fs.entry n' := by
  cases hn : fs.entry n with
  | none =>
    rw [openTrunc_of_none hn]
    exact Function.update_of_ne hne _ _
  | some i => rw [openTrunc_of_some hn]

theorem file_openTrunc_of_ne (h : fs.Tidy) {n' : N} (hne : n' ≠ n) :
    (fs.openTrunc n).1.file n' = fs.file n' := by
  rw [file, entry_openTrunc_of_ne hne, file]
  cases hn' : fs.entry n' with
  | none => rfl
  | some j =>
    rw [Option.map_some, Option.map_some]
    cases hn : fs.entry n with
    | none =>
      rw [openTrunc_of_none hn]
      exact congrArg some (Function.update_of_ne (Nat.ne_of_lt (h.used n' j hn')) _ _)
    | some i =>
      rw [openTrunc_of_some hn]
      refine congrArg some (Function.update_of_ne ?_ _ _)
      rintro rfl
      exact hne (h.single n' n j hn' hn)

theorem Tidy.openTrunc (h : fs.Tidy) (n : N) : (fs.openTrunc n).1.Tidy := by
  cases hn : fs.entry n with
  | some i =>
    rw [openTrunc_of_some hn]
    exact ⟨h.single, h.used⟩
  | none =>
    rw [openTrunc_of_none hn]
    -- the new inode is nobody else's
    have hback : ∀ n' i, Function.update fs.entry n (some fs.next) n' = some i →
        (n' = n ∧ i = fs.next) ∨ (fs.entry n' = some i ∧ i < fs.next) := by
      intro n' i hi
      by_cases e : n' = n
      · rw [e, Function.update_self] at hi
        exact Or.inl ⟨e, (Option.some.inj hi).symm⟩
      · rw [Function.update_of_ne e] at hi
        exact Or.inr ⟨hi, h.used n' i hi⟩
    refine ⟨fun n₁ n₂ i h₁ h₂ => ?_, fun n' i hi => ?_⟩
    · rcases hback n₁ i h₁ with ⟨e₁, hi₁⟩ | ⟨he₁, hlt₁⟩
      · rcases hback n₂ i h₂ with ⟨e₂, -⟩ | ⟨-, hlt₂⟩
        · rw [e₁, e₂]
        · exact absurd hi₁ (Nat.ne_of_lt hlt₂)
      · rcases hback n₂ i h₂ with ⟨-, hi₂⟩ | ⟨he₂, -⟩
        · exact absurd hi₂ (Nat.ne_of_lt hlt₁)
        · exact h.single n₁ n₂ i he₁ he₂
    · rcases hback n' i hi with ⟨-, rfl⟩ | ⟨-, hlt⟩
      · exact Nat.lt_succ_self _
      · exact Nat.lt_succ_of_lt hlt

end Open

/-! ### Names -/

theorem Tidy.unlink {fs : FileSystem N B} (h : fs.Tidy) (n : N) : (fs.unlink n).Tidy := by
  have hback : ∀ n' i, (fs.unlink n).entry n' = some i → fs.entry n' = some i := by
    intro n' i hi
    by_cases e : n' = n
    · rw [e, show (fs.unlink n).entry n = none from Function.update_self _ _ _] at hi
      cases hi
    · rw [show (fs.unlink n).entry n' = fs.entry n' from Function.update_of_ne e _ _] at hi
      exact hi
  exact ⟨fun n₁ n₂ i h₁ h₂ => h.single n₁ n₂ i (hback n₁ i h₁) (hback n₂ i h₂),
    fun n' i hi => h.used n' i (hback n' i hi)⟩

theorem entry_unlink_of_ne (fs : FileSystem N B) {n n' : N} (hne : n' ≠ n) :
    (fs.unlink n).entry n' = fs.entry n' := Function.update_of_ne hne _ _

theorem file_unlink_of_ne (fs : FileSystem N B) {n n' : N} (hne : n' ≠ n) :
    (fs.unlink n).file n' = fs.file n' := by
  rw [file, entry_unlink_of_ne fs hne]
  rfl

theorem file_unlink_self (fs : FileSystem N B) (n : N) : (fs.unlink n).file n = none := by
  show (Function.update fs.entry n none n).map _ = none
  rw [Function.update_self]
  rfl

/-- What a rename that finds its file does. -/
theorem rename_some {fs fs' : FileSystem N B} {old new : N} (h : fs.rename old new = some fs') :
    ∃ i, fs.entry old = some i ∧ fs' =
      { fs with entry := Function.update (Function.update fs.entry old none) new (some i) } := by
  obtain ⟨i, hi, rfl⟩ := Option.map_eq_some_iff.mp h
  exact ⟨i, hi, rfl⟩

section Rename

variable {fs fs' : FileSystem N B} {old new : N} (h : fs.rename old new = some fs')

include h

theorem file_rename_new : fs'.file new = fs.file old := by
  obtain ⟨i, hi, rfl⟩ := rename_some h
  show (Function.update (Function.update fs.entry old none) new (some i) new).map fs.content = _
  rw [Function.update_self, file, hi]

theorem file_rename_old (hne : old ≠ new) : fs'.file old = none := by
  obtain ⟨i, -, rfl⟩ := rename_some h
  show (Function.update (Function.update fs.entry old none) new (some i) old).map fs.content = none
  rw [Function.update_of_ne hne, Function.update_self]
  rfl

theorem entry_rename_of_ne {n : N} (hold : n ≠ old) (hnew : n ≠ new) :
    fs'.entry n = fs.entry n := by
  obtain ⟨i, -, rfl⟩ := rename_some h
  show Function.update (Function.update fs.entry old none) new (some i) n = _
  rw [Function.update_of_ne hnew, Function.update_of_ne hold]

theorem file_rename_of_ne {n : N} (hold : n ≠ old) (hnew : n ≠ new) :
    fs'.file n = fs.file n := by
  rw [file, entry_rename_of_ne h hold hnew]
  obtain ⟨i, -, rfl⟩ := rename_some h
  rfl

theorem Tidy.rename (ht : fs.Tidy) : fs'.Tidy := by
  obtain ⟨i, hi, rfl⟩ := rename_some h
  -- every name keeps its inode, but the new one has the old one's
  have hback : ∀ n j, Function.update (Function.update fs.entry old none) new (some i) n = some j →
      (n = new ∧ j = i) ∨ (n ≠ new ∧ n ≠ old ∧ fs.entry n = some j) := by
    intro n j hj
    by_cases e : n = new
    · rw [e, Function.update_self] at hj
      exact Or.inl ⟨e, (Option.some.inj hj).symm⟩
    · rw [Function.update_of_ne e] at hj
      by_cases e' : n = old
      · rw [e', Function.update_self] at hj
        cases hj
      · rw [Function.update_of_ne e'] at hj
        exact Or.inr ⟨e, e', hj⟩
  refine ⟨fun n₁ n₂ j h₁ h₂ => ?_, fun n j hj => ?_⟩
  · rcases hback n₁ j h₁ with ⟨e₁, hj₁⟩ | ⟨-, o₁, he₁⟩
    · rcases hback n₂ j h₂ with ⟨e₂, -⟩ | ⟨-, o₂, he₂⟩
      · rw [e₁, e₂]
      · rw [hj₁] at he₂
        exact absurd (ht.single n₂ old i he₂ hi) o₂
    · rcases hback n₂ j h₂ with ⟨-, hj₂⟩ | ⟨-, -, he₂⟩
      · rw [hj₂] at he₁
        exact absurd (ht.single n₁ old i he₁ hi) o₁
      · exact ht.single n₁ n₂ j he₁ he₂
  · rcases hback n j hj with ⟨-, rfl⟩ | ⟨-, -, he⟩
    · exact ht.used old j hi
    · exact ht.used n j he

end Rename

/-! ### Open files -/

/-- An inode with its content, all of whose names are among those in `keep`; it may have lost
them all, and still be open. -/
structure Keeps (fs : FileSystem N B) (keep : N → Prop) (i : Nat) (c : List B) : Prop where
  used : i < fs.next
  content : fs.content i = c
  names : ∀ n, fs.entry n = some i → keep n

section Keeps

variable {fs : FileSystem N B} {keep : N → Prop} {i : Nat} {c : List B} {n : N}

omit [DecidableEq N] in
/-- A file is kept from the moment it is opened. -/
theorem Tidy.keeps (h : fs.Tidy) (hn : fs.entry n = some i) (hkeep : keep n) :
    fs.Keeps keep i (fs.content i) where
  used := h.used n i hn
  content := rfl
  names n' hn' := h.single n' n i hn' hn ▸ hkeep

omit [DecidableEq N] in
/-- The inode has none of the other names. -/
theorem Keeps.ne (h : fs.Keeps keep i c) {j : Nat} (hn : ¬ keep n) (hj : fs.entry n = some j) :
    i ≠ j := by
  rintro rfl
  exact hn (h.names n hj)

/-- Opening, writing, moving and removing files of other names leaves it alone. -/
theorem Keeps.openTrunc (h : fs.Keeps keep i c) (hn : ¬ keep n) :
    (fs.openTrunc n).1.Keeps keep i c := by
  cases he : fs.entry n with
  | some j =>
    rw [openTrunc_of_some he]
    exact ⟨h.used, (Function.update_of_ne (h.ne hn he) _ _).trans h.content, h.names⟩
  | none =>
    rw [openTrunc_of_none he]
    refine ⟨Nat.lt_succ_of_lt h.used,
      (Function.update_of_ne (Nat.ne_of_lt h.used) _ _).trans h.content, fun n' hn' => ?_⟩
    dsimp only at hn'
    by_cases e : n' = n
    · rw [e, Function.update_self] at hn'
      exact absurd (Option.some.inj hn').symm (Nat.ne_of_lt h.used)
    · rw [Function.update_of_ne e] at hn'
      exact h.names n' hn'

omit [DecidableEq N] in
theorem Keeps.write (h : fs.Keeps keep i c) (fill : B) {fd : Descriptor} (hn : ¬ keep n)
    (hfd : fs.entry n = some fd.inode) (bytes : List B) :
    (fs.write fill fd bytes).Keeps keep i c :=
  ⟨h.used, (Function.update_of_ne (h.ne hn hfd) _ _).trans h.content, h.names⟩

theorem Keeps.rename (h : fs.Keeps keep i c) {fs' : FileSystem N B} {old new : N}
    (hold : ¬ keep old) (hren : fs.rename old new = some fs') : fs'.Keeps keep i c := by
  obtain ⟨j, hj, rfl⟩ := rename_some hren
  refine ⟨h.used, h.content, fun n' hn' => ?_⟩
  dsimp only at hn'
  by_cases e : n' = new
  · rw [e, Function.update_self] at hn'
    exact absurd (Option.some.inj hn').symm (h.ne hold hj)
  · rw [Function.update_of_ne e] at hn'
    by_cases e' : n' = old
    · rw [e', Function.update_self] at hn'
      cases hn'
    · rw [Function.update_of_ne e'] at hn'
      exact h.names n' hn'

theorem Keeps.unlink (h : fs.Keeps keep i c) (n : N) : (fs.unlink n).Keeps keep i c := by
  refine ⟨h.used, h.content, fun n' hn' => ?_⟩
  by_cases e : n' = n
  · rw [e, show (fs.unlink n).entry n = none from Function.update_self _ _ _] at hn'
    cases hn'
  · rw [entry_unlink_of_ne fs e] at hn'
    exact h.names n' hn'

end Keeps

end FileSystem

end Oryx
