/-
Oryx/CacheReads.lean

`oryx_cache_get_tu` call by call, beside the puts of other threads.

A get opens the index file of its key, reads it, opens the blob of the address
found there and reads that; between any two of its system calls other threads
go on with their puts.  A file that is open keeps the content it was opened
with, since the puts only write files under temporary names and move whole
ones over a final name (`FileSystem.Keeps`).  The blob of an index file is
there before the index file is, and it stays.

So a get that the system does not fail answers as `oryxCacheGetTu` does on the
store as it was when the index file was opened (`get_linearizable`): it never
sees a torn file, never a key without its blob, and finds every key that was
there when it was called.
-/
import Oryx.CachePuts
import Oryx.CacheRuns

namespace Oryx

/-! ### Gets -/

/-- Where a thread is in `oryx_cache_get_tu`: the system call `read_file` makes next, on a file
of a directory. -/
inductive ReadPc
  | idle
  | opening (d : PutDir) (name : List Byte)
  | stat (d : PutDir) (name : List Byte) (inode : Nat)
  | reading (d : PutDir) (name : List Byte) (inode len : Nat) (got : List Byte)
  | returned (rc : Except OryxErr OryxTu)

/-- A get.  Beside the thread's place stand the store as it was when the get was called and when
it opened the index file. -/
structure Get where
  pc : ReadPc
  key : List Byte
  /-- The system has failed a call of this get. -/
  sysFailed : Bool
  called : CacheStore
  seen : CacheStore

namespace Get

def goto (g : Get) (p : ReadPc) : Get := { g with pc := p }

def failed (g : Get) : Get := { g with pc := .returned (.error .io), sysFailed := true }

/-- Opening an index file sees the store. -/
def sees (g : Get) (v : CacheStore) : PutDir → Get
  | .index => { g with seen := v }
  | .blobs => g

end Get

/-- What `oryx_cache_get_tu` does with the bytes of a file: the rest of `oryx_cache_resolve` for
an index file, of `oryx_cache_get_blob` and the parser for a blob. -/
def afterRead (name buf : List Byte) : PutDir → ReadPc
  | .index =>
      if buf.length < 64 then .returned (.error .format)
      else if isHex64 (buf.take 64) = false then .returned (.error .format)
      else .opening .blobs (buf.take 64)
  | .blobs =>
      if oryxContentAddress buf ≠ name then .returned (.error .integrity)
      else .returned (oryxTuParse buf)

/-- The `while (got < len)` of `read_file`. -/
def readLoop (d : PutDir) (name : List Byte) (inode len : Nat) (got : List Byte) : ReadPc :=
  if got.length < len then .reading d name inode len got else afterRead name got d

/-- The next system call of a get: a `read` takes at most `n + 1` bytes. -/
def readStep (fs : FileSystem FileName Byte) (v : CacheStore) (g : Get) (n : Nat) (fail : Bool) :
    Option Get :=
  match g.pc with
  | .idle | .returned _ => none
  | .opening d name =>
      if fail then some g.failed
      else
        match fs.entry (d, name) with
        | none => some ((g.sees v d).goto (.returned (.error .notfound)))
        | some i => some ((g.sees v d).goto (.stat d name i))
  | .stat d name i =>
      if fail then some g.failed
      else some (g.goto (readLoop d name i (fs.content i).length []))
  | .reading d name i len got =>
      if fail then some g.failed
      else
        let chunk := ((fs.content i).drop got.length).take (min (n + 1) (len - got.length))
        -- the end of the file
        if chunk = [] then some (g.goto (afterRead name got d))
        else some (g.goto (readLoop d name i len (got ++ chunk)))

/-- A thread calls `oryx_cache_get_tu`. -/
def getCallStep (v : CacheStore) (g : Get) (key : List Byte) : Option Get :=
  match g.pc with
  | .idle | .returned _ =>
      some { pc := if isHex64 key = false then .returned (.error .inval) else .opening .index key
             key := key, sysFailed := false, called := v, seen := v }
  | _ => none

/-! ### Gets and puts together -/

/-- A store that some threads put to and others get from. -/
structure SharedStore (Thread Reader : Type) where
  puts : PutState Thread
  get : Reader → Get

inductive StoreEvent (Thread Reader : Type)
  | put (e : PutEvent Thread)
  | get (r : Reader) (key : List Byte)
  | sys (r : Reader) (n : Nat) (fail : Bool)

section Steps

variable {Thread Reader : Type} [DecidableEq Thread] [DecidableEq Reader] (pid : Thread → Nat)

/-- One event of the gets and puts. -/
def storeStep (s : SharedStore Thread Reader) :
    StoreEvent Thread Reader → Option (SharedStore Thread Reader)
  | .put e => (putStep pid s.puts e).map fun p => { s with puts := p }
  | .get r key =>
      (getCallStep (storeView s.puts) (s.get r) key).map fun g =>
        { s with get := Function.update s.get r g }
  | .sys r n fail =>
      (readStep s.puts.fs (storeView s.puts) (s.get r) n fail).map fun g =>
        { s with get := Function.update s.get r g }

/-- No temporary file is shared, and no two puts have different bytes of one address. -/
def Undisturbed (s : SharedStore Thread Reader) : StoreEvent Thread Reader → Prop
  | .put e => NoSharedTmp pid s.puts e ∧ ∀ t data key, e = .call t data key →
      ∀ p ∈ s.puts.calls, oryxContentAddress p.1 = oryxContentAddress data → p.1 = data
  | _ => True

end Steps

/-! ### What the puts keep -/

section Store

variable {Thread : Type} (pid : Thread → Nat)

/-- The put is past its blob. -/
def PutPc.atIndex : PutPc → Bool
  | .openTmp .index | .write .index _ _ | .fsync .index | .rename .index => true
  | _ => false

/-- Every blob was put, every index file has its blob, and so has every put that is past it; the
address of bytes put tells the bytes. -/
structure StoreInv (s : PutState Thread) : Prop extends PutInv pid s where
  fromCalls : ∀ n c, isHex64 n = true → s.fs.file (.blobs, n) = some c →
    ∃ key, (c, key) ∈ s.calls
  indexed : ∀ n c, isHex64 n = true → s.fs.file (.index, n) = some c →
    (s.fs.file (.blobs, c)).isSome = true
  ahead : ∀ t, (s.pc t).atIndex = true →
    (s.fs.file (.blobs, oryxContentAddress (s.data t))).isSome = true
  apart : ∀ p ∈ s.calls, ∀ q ∈ s.calls,
    oryxContentAddress p.1 = oryxContentAddress q.1 → p.1 = q.1

variable {pid} {s s' : PutState Thread}

/-- A file under a final name stays. -/
theorem Publishes.isSome {t : Thread} (h : Publishes s s' t) {f : FileName}
    (hf : isHex64 f.2 = true) (hsome : (s.fs.file f).isSome = true) :
    (s'.fs.file f).isSome = true := by
  rcases h with hsame | ⟨d, -, -, hnew, hold⟩
  · rw [hsame f hf]
    exact hsome
  · by_cases e : f = s.finalName t d
    · rw [e, hnew]
      rfl
    · rw [hold f hf e]
      exact hsome

variable [DecidableEq Thread]

theorem atIndex_writeLoop (d : PutDir) (fd : Descriptor) (left : List Byte) :
    (writeLoop d fd left).atIndex = (PutPc.openTmp d).atIndex := by
  unfold writeLoop
  split <;> cases d <;> rfl

/-- A put that is past its blob after a step has just found or published it, or was past it
before. -/
theorem ahead_sysStep (h : PutInv pid s) {t : Thread} {n : Nat} {fail : Bool}
    (hahead : (s.pc t).atIndex = true →
      (s.fs.file (.blobs, oryxContentAddress (s.data t))).isSome = true)
    (hno : NoSharedTmp pid s (.sys t n fail)) (hstep : sysStep pid s t n fail = some s')
    (hat : (s'.pc t).atIndex = true) :
    (s'.fs.file (.blobs, oryxContentAddress (s.data t))).isSome = true := by
  have hpub := h.toPutsGoing.publishes hno hstep
  have hstay : (s.pc t).atIndex = true →
      (s'.fs.file (.blobs, oryxContentAddress (s.data t))).isSome = true := fun hbefore =>
    hpub.isSome (isHex64_contentAddress _) (hahead hbefore)
  cases sysStep_cases hstep with
  | found hp hsome => exact hsome
  | opens hp =>
    rw [goto_self, atIndex_writeLoop] at hat
    exact hstay (by rw [hp]; exact hat)
  | writes hp =>
    rw [goto_self, atIndex_writeLoop] at hat
    refine hstay ?_
    rw [hp]
    revert hat
    rename_i d _ _
    cases d <;> exact id
  | syncs hp =>
    rw [goto_self] at hat
    refine hstay ?_
    rw [hp]
    rename_i d
    revert hat
    cases d <;> exact id
  | @renames d fs hp hren =>
    cases d with
    | index =>
      rw [goto_self] at hat
      cases hat
    | blobs =>
      -- its own rename
      rcases hpub with hsame | ⟨d, hpc, -, hnew, -⟩
      · have hplace := h.place t
        rw [hp] at hplace
        show (fs.file (s.finalName t .blobs)).isSome = true
        rw [FileSystem.file_rename_new hren, hplace]
        rfl
      · cases hp.symm.trans hpc
        exact Option.isSome_iff_exists.mpr ⟨_, hnew⟩
  | notFound | openFails | abandons | noTmp | unlinkFails | unlinks =>
    rw [goto_self] at hat
    cases hat

/-- The other threads stay where they are. -/
theorem pc_sysStep {t : Thread} {n : Nat} {fail : Bool} (hstep : sysStep pid s t n fail = some s')
    {t' : Thread} (ht' : t' ≠ t) : s'.pc t' = s.pc t' := by
  cases sysStep_cases hstep <;> exact goto_other _ ht' _

theorem StoreInv.sysStep (h : StoreInv pid s) {t : Thread} {n : Nat} {fail : Bool}
    (hno : NoSharedTmp pid s (.sys t n fail)) (hstep : sysStep pid s t n fail = some s') :
    StoreInv pid s' := by
  have hpub := h.toPutsGoing.publishes hno hstep
  obtain ⟨hdata, -, hcalls⟩ := args_sysStep hstep
  refine ⟨h.toPutInv.sysStep hno hstep, fun m c hm hc => ?_, fun m c hm hc => ?_,
    fun t' hat => ?_, ?_⟩
  · rw [hcalls]
    rcases hpub with hsame | ⟨d, hpc, -, hnew, hold⟩
    · rw [hsame (.blobs, m) hm] at hc
      exact h.fromCalls m c hm hc
    · by_cases e : ((.blobs, m) : FileName) = s.finalName t d
      · rw [e, hnew] at hc
        cases d with
        | index => cases e
        | blobs =>
          cases hc
          exact ⟨_, (h.called t (by rw [hpc]; rfl)).2⟩
      · rw [hold (.blobs, m) hm e] at hc
        exact h.fromCalls m c hm hc
  · -- an index file comes after its blob
    have hbefore : (s.fs.file (.blobs, c)).isSome = true ∧ isHex64 c = true := by
      have haddr : ∀ {data}, c = oryxContentAddress data → isHex64 c = true := by
        rintro data rfl
        exact isHex64_contentAddress data
      have hwas : s.fs.file (.index, m) = some c →
          (s.fs.file (.blobs, c)).isSome = true ∧ isHex64 c = true := by
        intro hc
        obtain ⟨data, -, hcd⟩ := h.index m c hm hc
        exact ⟨h.indexed m c hm hc, haddr hcd⟩
      rcases hpub with hsame | ⟨d, hpc, -, hnew, hold⟩
      · rw [hsame (.index, m) hm] at hc
        exact hwas hc
      · by_cases e : ((.index, m) : FileName) = s.finalName t d
        · rw [e, hnew] at hc
          cases d with
          | blobs => cases e
          | index =>
            cases hc
            exact ⟨h.ahead t (by rw [hpc]; rfl), isHex64_contentAddress _⟩
        · rw [hold (.index, m) hm e] at hc
          exact hwas hc
    exact hpub.isSome hbefore.2 hbefore.1
  · rw [hdata]
    by_cases ht' : t' = t
    · rw [ht'] at hat ⊢
      exact ahead_sysStep h.toPutInv (h.ahead t) hno hstep hat
    · rw [pc_sysStep hstep ht'] at hat
      exact hpub.isSome (isHex64_contentAddress _) (h.ahead t' hat)
  · rw [hcalls]
    exact h.apart

theorem StoreInv.call (h : StoreInv pid s) {t : Thread} {data key : List Byte}
    (hapart : ∀ p ∈ s.calls, oryxContentAddress p.1 = oryxContentAddress data → p.1 = data)
    (hcall : callStep s t data key = some s') : StoreInv pid s' := by
  have hput := h.toPutInv.call hcall
  obtain ⟨hidle, rfl⟩ := callStep_some hcall
  refine ⟨hput, fun m c hm hc => ?_, h.indexed, fun t' hat => ?_, fun p hp q hq heq => ?_⟩
  · obtain ⟨key', hmem⟩ := h.fromCalls m c hm hc
    exact ⟨key', List.mem_cons_of_mem _ hmem⟩
  · by_cases ht' : t' = t
    · rw [ht', goto_self] at hat
      split at hat <;> cases hat
    · rw [goto_other _ ht'] at hat
      show (s.fs.file (.blobs, oryxContentAddress (Function.update s.data t data t'))).isSome = true
      rw [Function.update_of_ne ht']
      exact h.ahead t' hat
  · rcases List.mem_cons.mp hp with rfl | hp
    · rcases List.mem_cons.mp hq with rfl | hq
      · rfl
      · exact (hapart q hq heq.symm).symm
    · rcases List.mem_cons.mp hq with rfl | hq
      · exact hapart p hp heq
      · exact h.apart p hp q hq heq

/-- **What the puts keep**: every step of theirs. -/
theorem StoreInv.step (h : StoreInv pid s) {e : PutEvent Thread} (hno : NoSharedTmp pid s e)
    (hapart : ∀ t data key, e = .call t data key →
      ∀ p ∈ s.calls, oryxContentAddress p.1 = oryxContentAddress data → p.1 = data)
    (hstep : putStep pid s e = some s') : StoreInv pid s' := by
  cases e with
  | call t data key => exact h.call (hapart t data key rfl) hstep
  | sys t n fail => exact h.sysStep hno hstep

omit [DecidableEq Thread] in
theorem PutInit.storeInv (h : PutInit s) (hcalls : s.calls = []) : StoreInv pid s where
  toPutInv := h.putInv
  fromCalls := by
    intro n c hn hc
    rw [h.empty .blobs n hn] at hc
    cases hc
  indexed := by
    intro n c hn hc
    rw [h.empty .index n hn] at hc
    cases hc
  ahead := by
    intro t hat
    rw [h.pc] at hat
    cases hat
  apart := by
    intro p hp
    rw [hcalls] at hp
    cases hp

/-- A file under a final name stays. -/
theorem isSome_putStep (h : StoreInv pid s) {e : PutEvent Thread} (hno : NoSharedTmp pid s e)
    (hstep : putStep pid s e = some s') {f : FileName} (hf : isHex64 f.2 = true)
    (hsome : (s.fs.file f).isSome = true) : (s'.fs.file f).isSome = true := by
  cases e with
  | call t data key =>
    obtain ⟨-, rfl⟩ := callStep_some hstep
    exact hsome
  | sys t n fail => exact (h.toPutsGoing.publishes hno hstep).isSome hf hsome

theorem calls_putStep {e : PutEvent Thread} (hstep : putStep pid s e = some s') :
    s.calls ⊆ s'.calls := by
  cases e with
  | call t data key =>
    obtain ⟨-, rfl⟩ := callStep_some hstep
    exact List.subset_cons_self _ _
  | sys t n fail =>
    rw [(args_sysStep hstep).2.2]
    exact List.Subset.refl _

/-- **A file opened under a final name keeps its content**: the puts open, write, move away and
remove temporary files only. -/
theorem keeps_putStep (h : StoreInv pid s) {e : PutEvent Thread}
    (hstep : putStep pid s e = some s') {i : Nat} {c : List Byte}
    (hk : s.fs.Keeps (fun f => isHex64 f.2 = true) i c) :
    s'.fs.Keeps (fun f => isHex64 f.2 = true) i c := by
  cases e with
  | call t data key =>
    obtain ⟨-, rfl⟩ := callStep_some hstep
    exact hk
  | sys t n fail =>
    have hact := active_of_sysStep hstep
    have htmp : ∀ d, ¬ isHex64 (tmpFile pid s t d).2 = true := by
      intro d
      rw [tmpFile, not_isHex64_tmpName (h.toPutsGoing.isHex64_finalName hact d)]
      exact Bool.false_ne_true
    have hplace := h.place t
    cases sysStep_cases hstep with
    | found | notFound | openFails | abandons | syncs | noTmp | unlinkFails => exact hk
    | @opens d hp => exact hk.openTrunc (htmp d)
    | @writes d fd left hp =>
      rw [hp] at hplace
      exact hk.write 0 (htmp d) hplace.1 _
    | @renames d fs hp hren => exact hk.rename (htmp d) hren
    | @unlinks d hp => exact hk.unlink _

end Store

/-! ### What a get has found -/

section Gets

variable {Thread Reader : Type} (pid : Thread → Nat)

/-- What a get reads when the index file it opened names `addr`: that, and the blob there. -/
structure Found (s : PutState Thread) (g : Get) (addr blob : List Byte) : Prop where
  key : isHex64 g.key = true
  names : g.seen.index g.key = some addr
  hex : isHex64 addr = true
  holds : g.seen.blobs addr = some blob
  address : oryxContentAddress blob = addr
  /-- A put of the key left the index file, a put of the blob the blob. -/
  put : ∃ data, (data, g.key) ∈ s.calls ∧ oryxContentAddress data = addr
  stored : ∃ key, (blob, key) ∈ s.calls
  there : (s.fs.file (.blobs, addr)).isSome = true

/-- The name a get opens, and the bytes under it. -/
def Get.name (g : Get) (addr : List Byte) : PutDir → List Byte
  | .index => g.key
  | .blobs => addr

def underName (addr blob : List Byte) : PutDir → List Byte
  | .index => addr
  | .blobs => blob

/-- A get is reading a file it has open. -/
structure Open (s : PutState Thread) (g : Get) (d : PutDir) (name : List Byte) (i : Nat)
    (addr blob : List Byte) : Prop where
  found : Found s g addr blob
  name : name = g.name addr d
  keeps : s.fs.Keeps (fun f => isHex64 f.2 = true) i (underName addr blob d)

/-- A get that the system has not failed answers as the store it has seen; an entry that was
there when it was called is found. -/
structure Answers (s : PutState Thread) (g : Get) (rc : Except OryxErr OryxTu) : Prop where
  atomic : rc = oryxCacheGetTu g.seen g.key
  outcome : (rc = .error .inval ∧ isHex64 g.key = false) ∨
    (rc = .error .notfound ∧ g.called.index g.key = none) ∨
    ∃ data, (data, g.key) ∈ s.calls ∧ rc = oryxTuParse data

/-- What holds of a get at its next system call. -/
def GetOk (s : PutState Thread) (g : Get) : ReadPc → Prop
  | .idle => True
  | .opening .index name => name = g.key ∧ isHex64 g.key = true ∧
      (g.called.index g.key ≠ none → (s.fs.file (.index, g.key)).isSome = true)
  | .opening .blobs name => ∃ blob, Found s g name blob
  | .stat d name i => ∃ addr blob, Open s g d name i addr blob
  | .reading d name i len got => ∃ addr blob, Open s g d name i addr blob ∧
      len = (underName addr blob d).length ∧ got <+: underName addr blob d ∧ got.length < len
  | .returned rc => g.sysFailed = true ∨ Answers s g rc

variable {pid} {s s' : PutState Thread} {g : Get} {addr blob : List Byte}

/-- The answer of a get that has found a blob. -/
theorem Found.answers (hs : StoreInv pid s) (h : Found s g addr blob) :
    Answers s g (oryxTuParse blob) where
  atomic := by
    have hresolve : oryxCacheResolve g.seen g.key = .ok addr := by
      refine oryxCacheResolve_ok.mpr ⟨h.key, addr, h.names, ?_, ?_, h.hex⟩
      · exact (length_of_isHex64 h.hex).ge
      · rw [← length_of_isHex64 h.hex, List.take_length]
    have hget : oryxCacheGetBlob g.seen addr = .ok blob :=
      oryxCacheGetBlob_ok.mpr ⟨h.hex, h.holds, h.address⟩
    simp only [oryxCacheGetTu, hresolve, hget]
  outcome := by
    -- bytes put under the key have the address of the blob
    obtain ⟨data, hput, haddr⟩ := h.put
    obtain ⟨key, hblob⟩ := h.stored
    have hsame : data = blob := hs.apart _ hput _ hblob (haddr.trans h.address.symm)
    exact Or.inr (Or.inr ⟨data, hput, by rw [hsame]⟩)

theorem afterRead_index {name : List Byte} (h : isHex64 addr = true) :
    afterRead name addr .index = .opening .blobs addr := by
  have hlen := length_of_isHex64 h
  have htake : addr.take 64 = addr := by rw [← hlen, List.take_length]
  simp only [afterRead, htake, h, hlen, lt_irrefl, if_false, Bool.true_eq_false]

theorem afterRead_blobs {name : List Byte} (h : oryxContentAddress blob = name) :
    afterRead name blob .blobs = .returned (oryxTuParse blob) := by
  rw [afterRead, if_neg (not_not_intro h)]

/-- Reading on, or what the get does with the whole file. -/
theorem readLoop_ok (hs : StoreInv pid s) {d : PutDir} {name : List Byte} {i : Nat}
    (h : Open s g d name i addr blob) {got : List Byte} (hgot : got <+: underName addr blob d) :
    GetOk s g (readLoop d name i (underName addr blob d).length got) := by
  unfold readLoop
  split
  · next hlt => exact ⟨addr, blob, h, rfl, hgot, hlt⟩
  · next hge =>
    -- all of it
    have hall : got = underName addr blob d := hgot.eq_of_length (by have := hgot.length_le; omega)
    rw [hall]
    cases d with
    | index =>
      rw [underName, afterRead_index h.found.hex]
      exact ⟨blob, h.found⟩
    | blobs =>
      rw [underName, afterRead_blobs (h.found.address.trans h.name.symm)]
      exact Or.inr (h.found.answers hs)

/-! ### Steps of a get -/

/-- What holds of a get depends on its key, the stores it has seen and whether it failed. -/
structure SameGet (g g' : Get) : Prop where
  key : g'.key = g.key
  sysFailed : g'.sysFailed = g.sysFailed
  called : g'.called = g.called
  seen : g'.seen = g.seen

theorem Get.goto_same (g : Get) (p : ReadPc) : SameGet g (g.goto p) := ⟨rfl, rfl, rfl, rfl⟩

theorem Found.of_same {g' : Get} (hsame : SameGet g g') (h : Found s g addr blob) :
    Found s g' addr blob := by
  obtain ⟨hkey, -, -, hseen⟩ := hsame
  refine ⟨?_, ?_, h.hex, ?_, h.address, ?_, h.stored, h.there⟩
  · rw [hkey]
    exact h.key
  · rw [hseen, hkey]
    exact h.names
  · rw [hseen]
    exact h.holds
  · rw [hkey]
    exact h.put

theorem Open.of_same {g' : Get} (hsame : SameGet g g') {d : PutDir} {name : List Byte} {i : Nat}
    (h : Open s g d name i addr blob) : Open s g' d name i addr blob := by
  refine ⟨h.found.of_same hsame, h.name.trans ?_, h.keeps⟩
  cases d with
  | index => exact hsame.key.symm
  | blobs => rfl

theorem GetOk.of_same {g' : Get} (hsame : SameGet g g') {p : ReadPc} (h : GetOk s g p) :
    GetOk s g' p := by
  cases p with
  | idle => trivial
  | opening d name =>
    cases d with
    | index =>
      obtain ⟨hname, hkey, hcalled⟩ := h
      show name = g'.key ∧ _
      rw [hsame.key, hsame.called]
      exact ⟨hname, hkey, hcalled⟩
    | blobs =>
      obtain ⟨blob, hfound⟩ := h
      exact ⟨blob, hfound.of_same hsame⟩
  | stat d name i =>
    obtain ⟨addr, blob, hopen⟩ := h
    exact ⟨addr, blob, hopen.of_same hsame⟩
  | reading d name i len got =>
    obtain ⟨addr, blob, hopen, hrest⟩ := h
    exact ⟨addr, blob, hopen.of_same hsame, hrest⟩
  | returned rc =>
    rcases h with hfail | ⟨hatomic, houtcome⟩
    · exact Or.inl (hsame.sysFailed.trans hfail)
    · refine Or.inr ⟨?_, ?_⟩
      · rw [hsame.seen, hsame.key]
        exact hatomic
      · rw [hsame.key, hsame.called]
        exact houtcome

theorem storeView_index (s : PutState Thread) {n : List Byte} (hn : isHex64 n = true) :
    (storeView s).index n = s.fs.file (.index, n) := if_pos hn

theorem storeView_blobs (s : PutState Thread) {n : List Byte} (hn : isHex64 n = true) :
    (storeView s).blobs n = s.fs.file (.blobs, n) := if_pos hn

/-- Opening the index file of the key: what the get will read is there. -/
theorem found_of_entry (hs : StoreInv pid s) (hkey : isHex64 g.key = true) {i : Nat}
    (hi : s.fs.entry (.index, g.key) = some i) :
    ∃ blob, Found s (g.sees (storeView s) .index) (s.fs.content i) blob := by
  have hfile : s.fs.file (.index, g.key) = some (s.fs.content i) := by
    rw [FileSystem.file, hi]
    rfl
  obtain ⟨data, hput, haddr⟩ := hs.index _ _ hkey hfile
  have hhex : isHex64 (s.fs.content i) = true := by
    rw [haddr]
    exact isHex64_contentAddress data
  have hthere := hs.indexed _ _ hkey hfile
  obtain ⟨blob, hblob⟩ := Option.isSome_iff_exists.mp hthere
  refine ⟨blob, hkey, ?_, hhex, ?_, hs.blobs _ _ hhex hblob, ⟨data, hput, haddr.symm⟩,
    hs.fromCalls _ _ hhex hblob, hthere⟩
  · exact (storeView_index s hkey).trans hfile
  · exact (storeView_blobs s hhex).trans hblob

/-- The blob under an address is the one the get has found there. -/
theorem Found.content (hs : StoreInv pid s) (h : Found s g addr blob) {i : Nat}
    (hi : s.fs.entry (.blobs, addr) = some i) : s.fs.content i = blob := by
  have hfile : s.fs.file (.blobs, addr) = some (s.fs.content i) := by
    rw [FileSystem.file, hi]
    rfl
  obtain ⟨key, hput⟩ := hs.fromCalls _ _ h.hex hfile
  obtain ⟨key', hstored⟩ := h.stored
  exact hs.apart _ hput _ hstored ((hs.blobs _ _ h.hex hfile).trans h.address.symm)

/-- The get has opened a file. -/
theorem open_of_entry (hs : StoreInv pid s) {d : PutDir} {name : List Byte} {i : Nat}
    (hok : GetOk s g (.opening d name)) (hi : s.fs.entry (d, name) = some i) :
    ∃ addr blob, Open s (g.sees (storeView s) d) d name i addr blob := by
  cases d with
  | index =>
    obtain ⟨rfl, hkey, -⟩ := hok
    obtain ⟨blob, hfound⟩ := found_of_entry hs hkey hi
    exact ⟨_, blob, hfound, rfl, hs.tidy.keeps hi hkey⟩
  | blobs =>
    obtain ⟨blob, hfound⟩ := hok
    refine ⟨name, blob, hfound, rfl, ?_⟩
    rw [underName, ← hfound.content hs hi]
    exact hs.tidy.keeps hi hfound.hex

/-- **A system call of a get**. -/
theorem GetOk.readStep (hs : StoreInv pid s) {g' : Get} {n : Nat} {fail : Bool}
    (hok : GetOk s g g.pc) (hstep : readStep s.fs (storeView s) g n fail = some g') :
    GetOk s g' g'.pc := by
  have hfailed : GetOk s g.failed g.failed.pc := Or.inl rfl
  unfold Oryx.readStep at hstep
  cases hp : g.pc with
  | idle | returned =>
    rw [hp] at hstep
    cases hstep
  | opening d name =>
    rw [hp] at hok
    simp only [hp] at hstep
    split at hstep
    · cases hstep
      exact hfailed
    · split at hstep
      · next hnone =>
        cases hstep
        have hmissing : s.fs.file (d, name) = none := by
          rw [FileSystem.file, hnone]
          rfl
        cases d with
        | index =>
          obtain ⟨rfl, hkey, hcalled⟩ := hok
          refine GetOk.of_same (Get.goto_same _ _) (Or.inr ⟨?_, Or.inr (Or.inl ⟨rfl, ?_⟩)⟩)
          · have hview : (storeView s).index g.key = none :=
              (storeView_index s hkey).trans hmissing
            show _ = oryxCacheGetTu (storeView s) g.key
            simp only [oryxCacheGetTu, oryxCacheResolve, hkey, readFile, hview,
              Bool.true_eq_false, if_false]
          · by_contra hthere
            rw [hmissing] at hcalled
            exact Bool.false_ne_true (hcalled hthere)
        | blobs =>
          -- the blob is there
          obtain ⟨blob, hfound⟩ := hok
          have hthere := hfound.there
          rw [hmissing] at hthere
          cases hthere
      · next i hi =>
        cases hstep
        obtain ⟨addr, blob, hopen⟩ := open_of_entry hs hok hi
        exact GetOk.of_same (Get.goto_same _ _) ⟨addr, blob, hopen⟩
  | stat d name i =>
    rw [hp] at hok
    simp only [hp] at hstep
    split at hstep
    · cases hstep
      exact hfailed
    · cases hstep
      obtain ⟨addr, blob, hopen⟩ := hok
      refine GetOk.of_same (Get.goto_same _ _) ?_
      rw [hopen.keeps.content]
      exact readLoop_ok hs hopen List.nil_prefix
  | reading d name i len got =>
    rw [hp] at hok
    simp only [hp] at hstep
    split at hstep
    · cases hstep
      exact hfailed
    · obtain ⟨addr, blob, hopen, rfl, hgot, hlt⟩ := hok
      obtain ⟨rest, hrest⟩ := hgot
      rw [hopen.keeps.content, ← hrest, List.drop_left] at hstep
      split at hstep
      · -- the file does not end before its length
        next hend =>
        rw [hrest, List.take_eq_nil_iff] at hend
        rcases hend with hzero | hnil
        · omega
        · rw [hnil, List.append_nil] at hrest
          rw [hrest] at hlt
          exact absurd hlt (lt_irrefl _)
      · cases hstep
        refine GetOk.of_same (Get.goto_same _ _) ?_
        rw [hrest]
        refine readLoop_ok hs hopen ?_
        rw [← hrest]
        exact (List.prefix_append_right_inj _).mpr (List.take_prefix _ _)

theorem GetOk.call (s : PutState Thread) {g' : Get} {key : List Byte}
    (hcall : getCallStep (storeView s) g key = some g') : GetOk s g' g'.pc := by
  have hnew : GetOk s
      { pc := if isHex64 key = false then .returned (.error .inval) else .opening .index key
        key := key, sysFailed := false, called := storeView s, seen := storeView s }
      (if isHex64 key = false then .returned (.error .inval) else .opening .index key) := by
    split
    · next hkey =>
      refine Or.inr ⟨?_, Or.inl ⟨rfl, hkey⟩⟩
      simp only [oryxCacheGetTu, oryxCacheResolve, hkey, if_true]
    · next hkey =>
      have hkey : isHex64 key = true := Bool.not_eq_false _ ▸ hkey
      refine ⟨rfl, hkey, fun hthere => ?_⟩
      rw [← storeView_index s hkey]
      exact Option.isSome_iff_ne_none.mpr hthere
  unfold getCallStep at hcall
  split at hcall
  · cases hcall
    exact hnew
  · cases hcall
    exact hnew
  · cases hcall

/-! ### The puts go on -/

variable [DecidableEq Thread]

theorem Found.putStep (hs : StoreInv pid s) {e : PutEvent Thread} (hno : NoSharedTmp pid s e)
    (hstep : putStep pid s e = some s') (h : Found s g addr blob) : Found s' g addr blob := by
  obtain ⟨data, hput, haddr⟩ := h.put
  obtain ⟨key, hstored⟩ := h.stored
  exact { h with
    put := ⟨data, calls_putStep hstep hput, haddr⟩
    stored := ⟨key, calls_putStep hstep hstored⟩
    there := isSome_putStep hs hno hstep h.hex h.there }

theorem Open.putStep (hs : StoreInv pid s) {e : PutEvent Thread} (hno : NoSharedTmp pid s e)
    (hstep : putStep pid s e = some s') {d : PutDir} {name : List Byte} {i : Nat}
    (h : Open s g d name i addr blob) : Open s' g d name i addr blob :=
  ⟨h.found.putStep hs hno hstep, h.name, keeps_putStep hs hstep h.keeps⟩

/-- **A step of a put** leaves every get with what it has found. -/
theorem GetOk.putStep (hs : StoreInv pid s) {e : PutEvent Thread} (hno : NoSharedTmp pid s e)
    (hstep : putStep pid s e = some s') {p : ReadPc} (h : GetOk s g p) : GetOk s' g p := by
  cases p with
  | idle => trivial
  | opening d name =>
    cases d with
    | index =>
      obtain ⟨hname, hkey, hcalled⟩ := h
      exact ⟨hname, hkey, fun hthere => isSome_putStep hs hno hstep hkey (hcalled hthere)⟩
    | blobs =>
      obtain ⟨blob, hfound⟩ := h
      exact ⟨blob, hfound.putStep hs hno hstep⟩
  | stat d name i =>
    obtain ⟨addr, blob, hopen⟩ := h
    exact ⟨addr, blob, hopen.putStep hs hno hstep⟩
  | reading d name i len got =>
    obtain ⟨addr, blob, hopen, hrest⟩ := h
    exact ⟨addr, blob, hopen.putStep hs hno hstep, hrest⟩
  | returned rc =>
    refine h.imp_right fun hans => ⟨hans.atomic, hans.outcome.imp_right fun hrest => ?_⟩
    refine hrest.imp_right ?_
    rintro ⟨data, hput, hrc⟩
    exact ⟨data, calls_putStep hstep hput, hrc⟩

/-! ### Runs -/

variable [DecidableEq Reader] (pid)

/-- What holds of the store and of every get, whoever goes on. -/
structure SharedInv (s : SharedStore Thread Reader) : Prop where
  puts : StoreInv pid s.puts
  gets : ∀ r, GetOk s.puts (s.get r) (s.get r).pc

variable {pid} {sh sh' : SharedStore Thread Reader}

omit [DecidableEq Thread] in
theorem SharedInv.update (h : SharedInv pid sh) {r : Reader} (hg : GetOk sh.puts g g.pc) :
    SharedInv pid { sh with get := Function.update sh.get r g } := by
  refine ⟨h.puts, fun r' => ?_⟩
  by_cases hr : r' = r
  · rw [hr]
    show GetOk sh.puts (Function.update sh.get r g r) (Function.update sh.get r g r).pc
    rw [Function.update_self]
    exact hg
  · show GetOk sh.puts (Function.update sh.get r g r') (Function.update sh.get r g r').pc
    rw [Function.update_of_ne hr]
    exact h.gets r'

/-- **The invariant** of gets and puts together. -/
theorem SharedInv.step (h : SharedInv pid sh) {e : StoreEvent Thread Reader}
    (hok : Undisturbed pid sh e) (hstep : storeStep pid sh e = some sh') : SharedInv pid sh' := by
  cases e with
  | put e =>
    obtain ⟨p, hp, rfl⟩ := Option.map_eq_some_iff.mp hstep
    exact ⟨h.puts.step hok.1 hok.2 hp, fun r => (h.gets r).putStep h.puts hok.1 hp⟩
  | get r key =>
    obtain ⟨g, hg, rfl⟩ := Option.map_eq_some_iff.mp hstep
    exact h.update (GetOk.call _ hg)
  | sys r n fail =>
    obtain ⟨g, hg, rfl⟩ := Option.map_eq_some_iff.mp hstep
    exact h.update ((h.gets r).readStep h.puts hg)

/-- A store as `oryx_cache_open` leaves it, with no put called and no get under way. -/
structure SharedInit (s : SharedStore Thread Reader) : Prop where
  puts : PutInit s.puts
  calls : s.puts.calls = []
  idle : ∀ r, (s.get r).pc = .idle

omit [DecidableEq Thread] [DecidableEq Reader] in
theorem SharedInit.inv (h : SharedInit sh) : SharedInv pid sh where
  puts := h.puts.storeInv h.calls
  gets := by
    intro r
    rw [h.idle]
    trivial

/-- **Gets are atomic beside puts**: a get that the system does not fail answers as
`oryxCacheGetTu` does on the store as it was when the get opened its index file.  A key that is
well formed and was there when the get was called has the unit of bytes put under it, never an
index file without its blob or a file half written. -/
theorem get_linearizable {sh₀ : SharedStore Thread Reader} (hinit : SharedInit sh₀)
    (h : Reaches (storeStep pid) (Undisturbed pid) sh₀ sh) {r : Reader}
    {rc : Except OryxErr OryxTu} (hret : (sh.get r).pc = .returned rc)
    (hsys : (sh.get r).sysFailed = false) :
    rc = oryxCacheGetTu (sh.get r).seen (sh.get r).key ∧
      ((rc = .error .inval ∧ isHex64 (sh.get r).key = false) ∨
        (rc = .error .notfound ∧ (sh.get r).called.index (sh.get r).key = none) ∨
        ∃ data, (data, (sh.get r).key) ∈ sh.puts.calls ∧ rc = oryxTuParse data) := by
  have hinv : SharedInv pid sh :=
    h.invariant (fun _ _ _ hI hok hstep => hI.step hok hstep) hinit.inv
  have hok := hinv.gets r
  rw [hret] at hok
  rcases hok with hfail | hans
  · rw [hfail] at hsys
    cases hsys
  · exact ⟨hans.atomic, hans.outcome⟩

end Gets

/-! ### A put and a get -/

/-- One thread puts and one reads. -/
def freshStore : SharedStore Unit Unit where
  puts := emptyStore Unit
  get _ :=
    { pc := .idle, key := [], sysFailed := false
      called := CacheStore.empty, seen := CacheStore.empty }

theorem sharedInit_freshStore : SharedInit freshStore where
  puts := putInit_emptyStore Unit
  calls := rfl
  idle _ := rfl

/-- At most one put is called. -/
def CallsOnce (s : SharedStore Unit Unit) : StoreEvent Unit Unit → Prop
  | .put (.call _ _ _) => s.puts.calls = []
  | _ => True

instance (s : SharedStore Unit Unit) (e : StoreEvent Unit Unit) : Decidable (CallsOnce s e) :=
  match e with
  | .put (.call _ _ _) => inferInstanceAs (Decidable (s.puts.calls = []))
  | .put (.sys _ _ _) => isTrue trivial
  | .get _ _ => isTrue trivial
  | .sys _ _ _ => isTrue trivial

theorem CallsOnce.undisturbed {pid : Unit → Nat} {s : SharedStore Unit Unit}
    {e : StoreEvent Unit Unit} (h : CallsOnce s e) : Undisturbed pid s e := by
  cases e with
  | get | sys => trivial
  | put e =>
    refine ⟨?_, fun t data key he p hp => ?_⟩
    · cases e with
      | call => trivial
      | sys t n fail => exact fun _ _ t' ht' => absurd (Subsingleton.elim t' t) ht'
    · subst he
      rw [show s.puts.calls = [] from h] at hp
      cases hp

/-- The put of a unit, then a get of its key; each read and write takes all there is. -/
def putThenGet : List (StoreEvent Unit Unit) :=
  .put (.call () (oryxTuSerialize emptyTu) (oryxTuLogicalKey emptyTu)) ::
    (List.replicate 9 (.put (.sys () 100 false)) ++
      .get () (oryxTuLogicalKey emptyTu) :: List.replicate 6 (.sys () 100 false))

/-- The get has served the unit. -/
def Served (s : SharedStore Unit Unit) : Bool :=
  match (s.get ()).pc with
  | .returned (.ok tu) => decide (tu = emptyTu) && !(s.get ()).sysFailed
  | _ => false

theorem get_linearizable_emptyTu : ∃ sh : SharedStore Unit Unit,
    Reaches (storeStep fun _ => 7) (Undisturbed fun _ => 7) freshStore sh ∧
      (sh.get ()).pc = .returned (.ok emptyTu) ∧
      oryxCacheGetTu (sh.get ()).seen (sh.get ()).key = .ok emptyTu := by
  obtain ⟨sh, hrun, hserved⟩ :=
    @exists_of_events _ _ CallsOnce (storeStep fun _ => 7) _ (fun s => Served s = true) _
      putThenGet freshStore (by decide +kernel)
  have hreach : Reaches (storeStep fun _ => 7) (Undisturbed fun _ => 7) freshStore sh :=
    Relation.ReflTransGen.mono (fun a b ⟨e, hok, hstep⟩ => ⟨e, hok.undisturbed, hstep⟩) _ _
      (Reaches.of_events hrun)
  have hret : (sh.get ()).pc = .returned (.ok emptyTu) ∧ (sh.get ()).sysFailed = false := by
    unfold Served at hserved
    split at hserved
    · next tu hpc =>
      rw [Bool.and_eq_true, decide_eq_true_iff, Bool.not_eq_true'] at hserved
      exact ⟨hpc.trans (by rw [hserved.1]), hserved.2⟩
    · cases hserved
  exact ⟨sh, hreach, hret.1, (get_linearizable sharedInit_freshStore hreach hret.1 hret.2).1.symm⟩

end Oryx
