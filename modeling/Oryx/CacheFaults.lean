/-
Oryx/CacheFaults.lean

One put on any store: what it makes readable when it succeeds, and what it
leaves when the system fails one of its calls.

A put that succeeds does not write a blob whose name is taken.  The blob is
then readable exactly when the file of that name was missing or holds these
bytes (`readable_iff`): a damaged file stays as it is.

A put that fails runs alone here, system call by system call (`CachePuts`),
with any of `open`, `write`, `fsync` and `rename` failing.  Whatever it has
done by then is behind temporary names, except for a blob that is complete
(`unchanged_of_failed`).
-/
import Oryx.CacheBinding
import Oryx.CachePuts

namespace Oryx

/-! ### A put that succeeds -/

/-- What was put can be read back. -/
def Readable (c : CacheStore) (data key addr : List Byte) : Prop :=
  oryxCacheResolve c key = .ok addr ∧ oryxCacheGetBlob c addr = .ok data

/-- The key of a put resolves to its address. -/
theorem oryxCacheResolve_putStore (c : CacheStore) (data : List Byte) {key : List Byte}
    (hkey : isHex64 key = true) :
    oryxCacheResolve (putStore c data key) key = .ok (oryxContentAddress data) := by
  have hlen := length_of_isHex64 (isHex64_contentAddress data)
  refine oryxCacheResolve_ok.mpr ⟨hkey, oryxContentAddress data, ?_, Nat.le_of_eq hlen.symm, ?_,
    isHex64_contentAddress data⟩
  · rw [putStore_index, Function.update_self]
  · rw [List.take_of_length_le (Nat.le_of_eq hlen)]

/-- The address of a put has the bytes put, unless other bytes had its name. -/
theorem oryxCacheGetBlob_putStore (c : CacheStore) (data key : List Byte) :
    oryxCacheGetBlob (putStore c data key) (oryxContentAddress data) = .ok data ↔
      ∀ old, c.blobs (oryxContentAddress data) = some old → old = data := by
  rw [oryxCacheGetBlob_ok, putStore_blobs, Function.update_self, bytesAfterPut]
  cases c.blobs (oryxContentAddress data) with
  | none => exact iff_of_true ⟨isHex64_contentAddress data, rfl, rfl⟩ (by simp)
  | some old =>
    constructor
    · rintro ⟨-, hold, -⟩ _ ⟨⟩
      exact Option.some.inj hold
    · intro h
      exact ⟨isHex64_contentAddress data, congrArg some (h old rfl), rfl⟩

theorem oryxCachePutBlob_eq_ok {c c' : CacheStore} {data key addr : List Byte}
    (hput : oryxCachePutBlob c data key = .ok (addr, c')) :
    isHex64 key = true ∧ addr = oryxContentAddress data ∧ c' = putStore c data key := by
  have hkey : isHex64 key = true := by
    by_contra hc
    rw [oryxCachePutBlob, if_pos (Bool.eq_false_iff.mpr hc)] at hput
    cases hput
  rw [oryxCachePutBlob_ok c hkey] at hput
  cases hput
  exact ⟨hkey, rfl, rfl⟩

/-- **What is put is readable** exactly when no other bytes had its name. -/
theorem readable_iff {c c' : CacheStore} {data key addr : List Byte}
    (hput : oryxCachePutBlob c data key = .ok (addr, c')) :
    Readable c' data key addr ↔
      ∀ old, c.blobs (oryxContentAddress data) = some old → old = data := by
  obtain ⟨hkey, rfl, rfl⟩ := oryxCachePutBlob_eq_ok hput
  rw [Readable, oryxCacheGetBlob_putStore]
  exact and_iff_right (oryxCacheResolve_putStore c data hkey)

/-- A store whose blob of the byte `1` has been truncated to nothing. -/
def truncatedStore : CacheStore where
  blobs := Function.update (fun _ => none) (oryxContentAddress [1]) (some [])
  index := fun _ => none

/-- Putting the byte again succeeds, and it cannot be read. -/
theorem not_readable_truncatedStore : ∃ addr c',
    oryxCachePutBlob truncatedStore [1] (List.replicate 64 0x30) = .ok (addr, c') ∧
      ¬ Readable c' [1] (List.replicate 64 0x30) addr := by
  refine ⟨_, _, oryxCachePutBlob_ok truncatedStore hex64_zeros, fun h => ?_⟩
  have hfile : truncatedStore.blobs (oryxContentAddress [1]) = some [] := by
    simp only [truncatedStore, Function.update_self]
  cases (oryxCacheGetBlob_putStore truncatedStore [1] (List.replicate 64 0x30)).mp h.2 [] hfile

/-- On a store that has the byte it can, under a second key. -/
theorem readable_again : ∃ addr c', oryxCachePutBlob
    (putStore CacheStore.empty [1] (List.replicate 64 0x30)) [1] (List.replicate 64 0x31) =
      .ok (addr, c') ∧
    Readable c' [1] (List.replicate 64 0x31) addr := by
  have hput := @oryxCachePutBlob_ok (putStore CacheStore.empty [1] (List.replicate 64 0x30)) [1]
    (List.replicate 64 0x31) (by decide)
  refine ⟨_, _, hput, (readable_iff hput).mpr fun old hold => ?_⟩
  rw [putStore_blobs, Function.update_self] at hold
  exact (Option.some.inj hold).symm

/-! ### A put that fails -/

/-- A directory tree without hard links. -/
structure StoreDisk where
  fs : FileSystem FileName Byte
  tidy : fs.Tidy

/-- A call of `oryx_cache_put_blob` or `oryx_cache_put_tu`. -/
inductive PutCall
  | putBlob (data key : List Byte)
  | putTu (tu : OryxTu)

/-- What `oryx_cache_put_blob` is given. -/
def PutCall.data : PutCall → List Byte
  | .putBlob data _ => data
  | .putTu tu => oryxTuSerialize tu

def PutCall.key : PutCall → List Byte
  | .putBlob _ key => key
  | .putTu tu => oryxTuLogicalKey tu

/-- Before the call. -/
def atRest (disk : StoreDisk) : PutState Unit where
  fs := disk.fs
  pc _ := .idle
  data _ := []
  key _ := []
  sysFailed _ := false
  calls := []

/-- The calls that may fail here. -/
def PutPc.mayFail : PutPc → Bool
  | .openTmp _ | .write _ _ _ | .fsync _ | .rename _ => true
  | _ => false

/-- The put runs alone. -/
def AloneOk (s : PutState Unit) : PutEvent Unit → Prop
  | .sys t _ fail => fail = true → (s.pc t).mayFail = true
  | .call _ _ _ => False

/-- A run of one call, with the calls of the system failing at any points. -/
def FaultyRun (pid : Nat) (disk : StoreDisk) (call : PutCall) (s : PutState Unit) : Prop :=
  ∃ s₁, callStep (atRest disk) () call.data call.key = some s₁ ∧
    Reaches (putStep fun _ => pid) AloneOk s₁ s

/-- What a put that fails leaves. -/
structure Unchanged (s s' : PutState Unit) : Prop where
  index : ∀ n, isHex64 n = true → s'.fs.file (.index, n) = s.fs.file (.index, n)
  kept : ∀ n c, isHex64 n = true → s.fs.file (.blobs, n) = some c →
    s'.fs.file (.blobs, n) = some c
  complete : ∀ n c, isHex64 n = true → s.fs.file (.blobs, n) = none →
    s'.fs.file (.blobs, n) = some c → oryxContentAddress c = n
  tmp : ∀ f : FileName, isHex64 f.2 = false → s'.fs.file f = none ∨ s'.fs.file f = s.fs.file f
  resolve : ∀ key addr, oryxCacheResolve (storeView s) key = .ok addr →
    oryxCacheResolve (storeView s') key = .ok addr
  getBlob : ∀ addr data, oryxCacheGetBlob (storeView s) addr = .ok data →
    oryxCacheGetBlob (storeView s') addr = .ok data
  getTu : ∀ key tu, oryxCacheGetTu (storeView s) key = .ok tu →
    oryxCacheGetTu (storeView s') key = .ok tu

/-- The put is at a call for its blob. -/
def PutPc.atBlob : PutPc → Bool
  | .openTmp .blobs | .write .blobs _ _ | .fsync .blobs | .rename .blobs | .unlink .blobs => true
  | _ => false

/-- What holds at every point of a put that runs alone from `fs₀`. -/
structure AloneInv (pid : Unit → Nat) (fs₀ : FileSystem FileName Byte) (s : PutState Unit) :
    Prop where
  going : PutsGoing pid s
  index : (∀ a, s.pc () ≠ .returned (.ok a)) →
    ∀ n, isHex64 n = true → s.fs.file (.index, n) = fs₀.file (.index, n)
  kept : ∀ n c, isHex64 n = true → fs₀.file (.blobs, n) = some c → s.fs.file (.blobs, n) = some c
  complete : ∀ n c, isHex64 n = true → fs₀.file (.blobs, n) = none →
    s.fs.file (.blobs, n) = some c → oryxContentAddress c = n
  absent : (s.pc ()).atBlob = true → fs₀.file (s.finalName () .blobs) = none
  tmp : ∀ f : FileName, isHex64 f.2 = false →
    (∃ d, f = tmpFile pid s () d ∧ heldFile s () = some (s.finalName () d)) ∨
      s.fs.file f = none ∨ s.fs.file f = fs₀.file f

section Alone

variable {pid : Unit → Nat} {fs₀ : FileSystem FileName Byte} {s s' : PutState Unit}

theorem noSharedTmp_alone (s : PutState Unit) (e : PutEvent Unit) : NoSharedTmp pid s e := by
  cases e with
  | call t data key => trivial
  | sys t n fail => exact fun _ _ t' ht' _ => absurd (Subsingleton.elim t' t) ht'

/-- A temporary file that the put has is under way or gone; the others are as they were. -/
theorem AloneInv.tmp_step (h : AloneInv pid fs₀ s) (hname : ∀ d, s'.finalName () d = s.finalName () d)
    {d : PutDir} (hothers : ∀ f : FileName, isHex64 f.2 = false → f ≠ tmpFile pid s () d →
      s'.fs.file f = s.fs.file f)
    (hheld : ∀ d', heldFile s () = some (s.finalName () d') → d' = d)
    (hend : heldFile s' () = some (s.finalName () d) ∨ s'.fs.file (tmpFile pid s () d) = none)
    (f : FileName) (hf : isHex64 f.2 = false) :
    (∃ d, f = tmpFile pid s' () d ∧ heldFile s' () = some (s'.finalName () d)) ∨
      s'.fs.file f = none ∨ s'.fs.file f = fs₀.file f := by
  have htmp : ∀ d, tmpFile pid s' () d = tmpFile pid s () d := by
    intro d
    rw [tmpFile, tmpFile, hname]
  by_cases hd : f = tmpFile pid s () d
  · rcases hend with hend | hend
    · exact Or.inl ⟨d, hd.trans (htmp d).symm, hend.trans (congrArg some (hname d).symm)⟩
    · exact Or.inr (Or.inl (hd ▸ hend))
  · rw [hothers f hf hd]
    rcases h.tmp f hf with ⟨d', hd', hheld'⟩ | hsame
    · exact absurd (hheld d' hheld' ▸ hd') hd
    · exact Or.inr hsame

/-- The same where no file changes. -/
theorem AloneInv.tmp_same (h : AloneInv pid fs₀ s) (hname : ∀ d, s'.finalName () d = s.finalName () d)
    (hfs : s'.fs = s.fs)
    (hheld : heldFile s () = none ∨ heldFile s' () = heldFile s ()) (f : FileName)
    (hf : isHex64 f.2 = false) :
    (∃ d, f = tmpFile pid s' () d ∧ heldFile s' () = some (s'.finalName () d)) ∨
      s'.fs.file f = none ∨ s'.fs.file f = fs₀.file f := by
  rw [hfs]
  rcases h.tmp f hf with ⟨d, hd, hheld'⟩ | hsame
  · rcases hheld with hnone | hkeep
    · rw [hnone] at hheld'
      cases hheld'
    · refine Or.inl ⟨d, ?_, ?_⟩
      · rw [hd, tmpFile, tmpFile, hname]
      · rw [hkeep, hheld', hname]
  · exact Or.inr hsame

/-- What a system call does to the temporary files. -/
theorem AloneInv.tmp_sysStep (h : AloneInv pid fs₀ s) {n : Nat} {fail : Bool}
    (hmay : fail = true → (s.pc ()).mayFail = true) (hstep : sysStep pid s () n fail = some s')
    (f : FileName) (hf : isHex64 f.2 = false) :
    (∃ d, f = tmpFile pid s' () d ∧ heldFile s' () = some (s'.finalName () d)) ∨
      s'.fs.file f = none ∨ s'.fs.file f = fs₀.file f := by
  obtain ⟨hdata, hkey, -⟩ := args_sysStep hstep
  have hname := finalName_congr (congrFun hdata ()) (congrFun hkey ())
  have hactive := active_of_sysStep hstep
  have hplace := h.going.place ()
  -- the put has one temporary file at a time
  have honly : ∀ {d : PutDir}, heldFile s () = some (s.finalName () d) →
      ∀ d', heldFile s () = some (s.finalName () d') → d' = d := by
    intro d hheld d' hd'
    rw [hheld] at hd'
    cases d <;> cases d' <;> first | rfl | cases hd'
  cases sysStep_cases hstep with
  | found hp | notFound hp | openFails hp =>
    exact h.tmp_same hname rfl (Or.inl (by rw [heldFile, hp])) f hf
  | @opens d hp =>
    refine h.tmp_step hname (fun g _ hg => FileSystem.file_openTrunc_of_ne h.going.tidy hg)
      (fun d' hd' => ?_) (Or.inl (heldFile_writeLoop _ _ _ _ _)) f hf
    rw [heldFile, hp] at hd'
    cases hd'
  | abandons hp =>
    refine h.tmp_same hname rfl (Or.inr ?_) f hf
    rw [held_of_abandon hp, heldFile, goto_self]
    rfl
  | @writes d fd left hp =>
    have hheld : heldFile s () = some (s.finalName () d) := by rw [heldFile, hp]
    rw [hp] at hplace
    refine h.tmp_step hname (fun g _ hg => ?_) (honly hheld)
      (Or.inl (heldFile_writeLoop _ _ _ _ _)) f hf
    exact FileSystem.file_write_of_ne h.going.tidy 0 hplace.1 hg _
  | @syncs d hp | @noTmp d hp =>
    have hheld : heldFile s () = some (s.finalName () d) := by rw [heldFile, hp]
    refine h.tmp_same hname rfl (Or.inr ?_) f hf
    rw [hheld, heldFile, goto_self]
    rfl
  | @renames d fs hp hren =>
    have hheld : heldFile s () = some (s.finalName () d) := by rw [heldFile, hp]
    have hhex : isHex64 (s.finalName () d).2 = true := h.going.isHex64_finalName hactive d
    refine h.tmp_step (d := d) hname (fun g hg hne => ?_) (honly hheld) (Or.inr ?_) f hf
    · apply FileSystem.file_rename_of_ne hren hne
      intro hc
      rw [hc, hhex] at hg
      cases hg
    · exact FileSystem.file_rename_old hren (ne_tmpName hhex hhex).symm
  | unlinkFails hp =>
    -- an `unlink` does not fail
    have hbad := hmay rfl
    rw [hp] at hbad
    cases hbad
  | @unlinks d hp =>
    have hheld : heldFile s () = some (s.finalName () d) := by rw [heldFile, hp]
    exact h.tmp_step hname (fun g _ hg => FileSystem.file_unlink_of_ne s.fs hg) (honly hheld)
      (Or.inr (FileSystem.file_unlink_self s.fs _)) f hf

theorem atBlob_writeLoop (d : PutDir) (fd : Descriptor) (left : List Byte) :
    (writeLoop d fd left).atBlob = true ↔ d = .blobs := by
  unfold writeLoop
  split <;> cases d <;> simp [PutPc.atBlob]

/-- A put comes to its blob only if it has found none. -/
theorem AloneInv.absent_sysStep (h : AloneInv pid fs₀ s) {n : Nat} {fail : Bool}
    (hmay : fail = true → (s.pc ()).mayFail = true) (hstep : sysStep pid s () n fail = some s')
    (hat : (s'.pc ()).atBlob = true) : fs₀.file (s.finalName () .blobs) = none := by
  have hback : ∀ {p : PutPc}, s.pc () = p → p.atBlob = true →
      fs₀.file (s.finalName () .blobs) = none := fun hp hblob => h.absent (hp ▸ hblob)
  cases sysStep_cases hstep with
  | found | openFails | unlinkFails | unlinks =>
    rw [goto_self] at hat
    cases hat
  | notFound hp hfound =>
    have hfail : fail = false := by
      rw [hp] at hmay
      cases fail with
      | false => rfl
      | true => exact nomatch hmay rfl
    -- no such file now, so none before
    cases hbefore : fs₀.file (s.finalName () .blobs) with
    | none => rfl
    | some c =>
      have hnow := h.kept _ c (isHex64_contentAddress (s.data ())) hbefore
      exact absurd ⟨by rw [PutState.finalName, hnow]; rfl, hfail⟩ hfound
  | opens hp | writes hp =>
    rw [goto_self, atBlob_writeLoop] at hat
    subst hat
    exact hback hp rfl
  | @abandons d hp =>
    rw [goto_self] at hat
    cases d with
    | index => cases hat
    | blobs => rcases hp with ⟨fd, left, hp⟩ | hp | hp <;> exact hback hp rfl
  | @syncs d hp | @noTmp d hp =>
    rw [goto_self] at hat
    cases d with
    | index => cases hat
    | blobs => exact hback hp rfl
  | @renames d fs hp =>
    rw [goto_self] at hat
    cases d with
    | index => cases hat
    | blobs => cases hat

/-- **A put that runs alone keeps the store** until it has published its index entry. -/
theorem AloneInv.step (h : AloneInv pid fs₀ s) {e : PutEvent Unit} (hok : AloneOk s e)
    (hstep : putStep pid s e = some s') : AloneInv pid fs₀ s' := by
  cases e with
  | call t data key => exact hok.elim
  | sys t n fail =>
    have hno : NoSharedTmp pid s (.sys t n fail) := noSharedTmp_alone s _
    obtain ⟨hdata, hkey, -⟩ := args_sysStep hstep
    have hname := finalName_congr (congrFun hdata ()) (congrFun hkey ())
    have hactive := active_of_sysStep hstep
    have hrunning : ∀ a, s.pc () ≠ .returned (.ok a) := by
      intro a hc
      rw [show s.pc t = s.pc () from rfl, hc] at hactive
      cases hactive
    have habsent : (s'.pc ()).atBlob = true → fs₀.file (s'.finalName () .blobs) = none := by
      intro hat
      rw [hname]
      exact h.absent_sysStep hok hstep hat
    refine ⟨h.going.sysStep hno hstep, fun hret m hm => ?_, fun m c hm hc => ?_,
      fun m c hm hnone hc => ?_, habsent, h.tmp_sysStep hok hstep⟩
    all_goals rcases h.going.publishes hno hstep with hsame | ⟨d, hpc, hpc', hnew, hold⟩
    · rw [hsame (.index, m) hm]
      exact h.index hrunning m hm
    · -- the index is renamed last: then the call has succeeded
      cases d with
      | blobs =>
        rw [hold (.index, m) hm fun hc => nomatch congrArg Prod.fst hc]
        exact h.index hrunning m hm
      | index => exact absurd hpc' (hret _)
    · rw [hsame (.blobs, m) hm]
      exact h.kept m c hm hc
    · -- the name that is published was free
      rw [hold (.blobs, m) hm fun hd => ?_]
      · exact h.kept m c hm hc
      · cases d with
        | blobs =>
          have hfree := h.absent (by rw [show s.pc () = .rename .blobs from hpc]; rfl)
          rw [← show ((.blobs, m) : FileName) = s.finalName () .blobs from hd, hc] at hfree
          cases hfree
        | index => exact nomatch congrArg Prod.fst hd
    · rw [hsame (.blobs, m) hm] at hc
      exact h.complete m c hm hnone hc
    · -- a new blob is the one of this call, complete
      by_cases hd : ((.blobs, m) : FileName) = s.finalName t d
      · rw [hd, hnew] at hc
        cases d with
        | index => exact nomatch congrArg Prod.fst hd
        | blobs =>
          cases hc
          exact (congrArg Prod.snd hd).symm
      · rw [hold (.blobs, m) hm hd] at hc
        exact h.complete m c hm hnone hc

end Alone

/-- Before a put runs, and just after it is called. -/
theorem aloneInv_call (pid : Nat) (disk : StoreDisk) {call : PutCall} {s : PutState Unit}
    (hcall : callStep (atRest disk) () call.data call.key = some s) :
    AloneInv (fun _ => pid) disk.fs s := by
  have hrest : PutsGoing (fun _ => pid) (atRest disk) :=
    ⟨disk.tidy, fun _ h => (nomatch h), fun _ => trivial, fun _ _ _ _ _ h => (nomatch h)⟩
  have hgoing := hrest.call hcall
  obtain ⟨-, rfl⟩ := callStep_some hcall
  refine ⟨hgoing, fun _ _ _ => rfl, fun _ _ _ hc => hc, fun n c _ hnone hc => ?_, fun hat => ?_,
    fun f _ => Or.inr (Or.inr rfl)⟩
  · exact absurd (hnone.symm.trans hc) fun h => nomatch h
  · rw [goto_self] at hat
    split at hat
    · cases hat
    · cases hat

theorem aloneInv_of_run {pid : Nat} {disk : StoreDisk} {call : PutCall} {s : PutState Unit}
    (hrun : FaultyRun pid disk call s) : AloneInv (fun _ => pid) disk.fs s := by
  obtain ⟨s₁, hcall, hreach⟩ := hrun
  exact hreach.invariant (fun _ _ _ hI hok hstep => hI.step hok hstep) (aloneInv_call pid disk hcall)

/-- Lookups follow the files under final names. -/
theorem unchanged_of_files {s s' : PutState Unit}
    (hindex : ∀ n, isHex64 n = true → s'.fs.file (.index, n) = s.fs.file (.index, n))
    (hkept : ∀ n c, isHex64 n = true → s.fs.file (.blobs, n) = some c →
      s'.fs.file (.blobs, n) = some c)
    (hcomplete : ∀ n c, isHex64 n = true → s.fs.file (.blobs, n) = none →
      s'.fs.file (.blobs, n) = some c → oryxContentAddress c = n)
    (htmp : ∀ f : FileName, isHex64 f.2 = false →
      s'.fs.file f = none ∨ s'.fs.file f = s.fs.file f) : Unchanged s s' := by
  have hresolve : ∀ key, oryxCacheResolve (storeView s') key = oryxCacheResolve (storeView s) key := by
    intro key
    have hview : (storeView s').index = (storeView s).index := by
      funext n
      show (if isHex64 n = true then _ else none) = if isHex64 n = true then _ else none
      split
      · next hn => exact hindex n hn
      · rfl
    unfold oryxCacheResolve
    rw [hview]
  -- a blob that was served is still there, byte for byte
  have hgetBlob : ∀ addr data, oryxCacheGetBlob (storeView s) addr = .ok data →
      oryxCacheGetBlob (storeView s') addr = .ok data := by
    intro addr data hget
    obtain ⟨hhex, hblob, haddr⟩ := oryxCacheGetBlob_ok.mp hget
    refine oryxCacheGetBlob_ok.mpr ⟨hhex, ?_, haddr⟩
    have hfile : s.fs.file (.blobs, addr) = some data := by
      rw [← hblob]
      exact (if_pos hhex).symm
    exact (if_pos hhex).trans (hkept addr data hhex hfile)
  refine ⟨hindex, hkept, hcomplete, htmp, fun key addr h => (hresolve key).trans h, hgetBlob, ?_⟩
  -- a unit is served through the index and a blob
  intro key tu hget
  unfold oryxCacheGetTu at hget ⊢
  rw [hresolve]
  cases haddr : oryxCacheResolve (storeView s) key with
  | error e =>
    rw [haddr] at hget
    cases hget
  | ok addr =>
    rw [haddr] at hget
    dsimp only at hget ⊢
    cases hblob : oryxCacheGetBlob (storeView s) addr with
    | error e =>
      rw [hblob] at hget
      cases hget
    | ok bytes =>
      rw [hblob] at hget
      rw [hgetBlob addr bytes hblob]
      exact hget

/-- **A put that fails changes nothing visible.** -/
theorem unchanged_of_failed {pid : Nat} {disk : StoreDisk} {call : PutCall} {s : PutState Unit}
    (hrun : FaultyRun pid disk call s) {e : OryxErr} (hpc : s.pc () = .returned (.error e)) :
    Unchanged (atRest disk) s := by
  have h := aloneInv_of_run hrun
  refine unchanged_of_files (h.index fun a hc => ?_) h.kept h.complete fun f hf => ?_
  · rw [hpc] at hc
    cases hc
  · rcases h.tmp f hf with ⟨d, -, hheld⟩ | hsame
    · rw [heldFile, hpc] at hheld
      cases hheld
    · exact hsame

instance (s : PutState Unit) (e : PutEvent Unit) : Decidable (AloneOk s e) :=
  match e with
  | .sys t _ fail => inferInstanceAs (Decidable (fail = true → (s.pc t).mayFail = true))
  | .call _ _ _ => inferInstanceAs (Decidable False)

/-- A put of the byte `1`. -/
def firstPut : List (PutEvent Unit) :=
  .call () [1] (List.replicate 64 0x30) :: List.replicate 9 (.sys () 100 false)

/-- The calls of a put up to the `rename` of its index file, which fails, and the `unlink`; the
writes are short. -/
def failingCalls : List (PutEvent Unit) :=
  List.replicate 9 (.sys () 40 false) ++ [.sys () 0 true, .sys () 0 false]

def PutPc.ioFailed : PutPc → Bool
  | .returned (.error .io) => true
  | _ => false

theorem PutPc.returned_of_ioFailed {p : PutPc} (h : p.ioFailed = true) :
    p = .returned (.error .io) := by
  unfold ioFailed at h
  split at h
  · rfl
  · cases h

/-- The files as they are, and no put under way. -/
def restart (s : PutState Unit) : PutState Unit :=
  { emptyStore Unit with fs := s.fs }

/-- The put of the byte `2` on a store that has the byte `1` fails when its blob is published. -/
theorem unchanged_of_failed_rename : ∃ disk s,
    disk.fs.file (.index, List.replicate 64 0x30) = some (oryxContentAddress [1]) ∧
      FaultyRun 7 disk (.putBlob [2] (List.replicate 64 0x31)) s ∧
      s.pc () = .returned (.error .io) ∧
      s.fs.file (.blobs, oryxContentAddress [2]) = some [2] ∧ Unchanged (atRest disk) s := by
  have hcompute : ((runEvents (putStep fun _ => 7) (fun _ _ => True) (emptyStore Unit) firstPut).bind
      fun s₀ => (callStep (restart s₀) () [2] (List.replicate 64 0x31)).bind fun s₁ =>
        (runEvents (putStep fun _ => 7) AloneOk s₁ failingCalls).map fun s => (s₀, s)).any
      (fun p => decide (p.1.fs.file (.index, List.replicate 64 0x30) =
          some (oryxContentAddress [1]) ∧ (p.2.pc ()).ioFailed = true ∧
        p.2.fs.file (.blobs, oryxContentAddress [2]) = some [2])) = true := by
    decide +kernel
  obtain ⟨⟨s₀, s⟩, hruns, hend⟩ := (Option.any_eq_true _ _).mp hcompute
  obtain ⟨s₀', hfirst, hrest⟩ := Option.bind_eq_some_iff.mp hruns
  obtain ⟨s₁, hcall, hrest⟩ := Option.bind_eq_some_iff.mp hrest
  obtain ⟨s', hsecond, hpair⟩ := Option.map_eq_some_iff.mp hrest
  cases hpair
  obtain ⟨hindex, hfailed, hblob⟩ := of_decide_eq_true hend
  have hpc := PutPc.returned_of_ioFailed hfailed
  -- the first put leaves a tree without hard links
  have hinv : PutInv (fun _ => 7) s₀ := (Reaches.of_events hfirst).invariant
    (fun _ e _ hI _ hstep => hI.step (noSharedTmp_alone _ e) hstep) (putInit_emptyStore Unit).putInv
  have hrun : FaultyRun 7 ⟨s₀.fs, hinv.tidy⟩ (.putBlob [2] (List.replicate 64 0x31)) s :=
    ⟨s₁, hcall, Reaches.of_events hsecond⟩
  exact ⟨_, s, hindex, hrun, hpc, hblob, unchanged_of_failed hrun hpc⟩

end Oryx
