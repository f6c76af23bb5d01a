/-
Oryx/StoredBlocks.lean

A program's translations in the store.

The blocks of one image are decoded, translated under any policies, strengths
and profiles, and put into a store, beside maps, plain blobs and the units of
other programs; an adversary writes into the blob files.  Two blocks of the
image that share a key share their translation (`unit_unique`): what the key
leaves out, the length of the guest code and the high halves of the targets, is
determined by the image and the entry PC, since the bytes at the PC are read in
one way.

Between images it is not, so a unit of another program may take the key of a
block (`NoForeignUnit` excludes it).  Otherwise what the store serves under the
key runs as the x86 machine over the image does (`storedUnit_x86`).
-/
import Oryx.CacheKey
import Oryx.ProgramMeaning
import Oryx.Sha256Stream
import Oryx.StoreRuns

namespace Oryx

open X86

/-! ### Units of an image -/

/-- A block of the image, decoded and translated. -/
structure ImageUnit (img : OryxX86Image) where
  pc : U64
  cap : Nat
  policy : MmPolicy
  strength : OrderStrength
  profileId : U32
  ops : List OryxGinsn
  len : U32
  tu : OryxTu
  st : OryxMmStats
  decodes : oryxX86DecodeBlock img pc cap = .ok ops len
  translates : oryxTranslateEx ops ⟨policy, strength, pc, len⟩ profileId = .ok (tu, st)

namespace ImageUnit

variable {img : OryxX86Image}

def cfg (u : ImageUnit img) : TransCfg := ⟨u.policy, u.strength, u.pc, u.len⟩

def key (u : ImageUnit img) : List Byte := oryxTuLogicalKey u.tu

/-- What is hashed for the key. -/
def keyBytes (u : ImageUnit img) : Set (List Byte) :=
  {hashStream u.ops u.cfg, logicalKeyPreimage u.tu}

/-- The stream is short enough for SHA-256. -/
theorem hashBlock_eq {ops : List OryxGinsn} (hlen : ops.length ≤ 2 ^ 20) (cfg : TransCfg) :
    hashBlock ops cfg.guestPc cfg.policy cfg.strength = sha256 (hashStream ops cfg) := by
  have hstream : (hashStream ops cfg).length = 16 + 32 * ops.length := by
    simp [hashStream, hashChunks, length_hashHeader, length_hashRecord, Function.comp_def,
      Nat.mul_comm]
  have hlt : (hashStream ops cfg).length < 2 ^ 61 := by omega
  have hchunks := (sha256Init_holds.updates
    (hashChunks ops cfg.guestPc cfg.policy cfg.strength)).final hlt
  have hone := (sha256Init_holds.update (hashStream ops cfg)).final hlt
  rw [sha256]
  exact Subtype.ext (hchunks.trans hone.symm)

theorem guestHash_eq (u : ImageUnit img) : u.tu.guestHash = sha256 (hashStream u.ops u.cfg) := by
  obtain ⟨body, last, ds, dl, h⟩ := oryxTranslateEx_ok u.translates
  rw [← hashBlock_eq h.length_le, h.tu_eq]
  rfl

/-- **One unit a key**: units of one image with one key are one unit. -/
theorem unit_unique (himg : img.Small) {u v : ImageUnit img}
    (hsha : Set.InjOn sha256 (u.keyBytes ∪ v.keyBytes)) (hkey : u.key = v.key) : u.tu = v.tu := by
  -- the preimages, and in them the digests of the streams
  have hpre : logicalKeyPreimage u.tu = logicalKeyPreimage v.tu :=
    hsha (Or.inl (Or.inr rfl)) (Or.inr (Or.inr rfl)) (sha256Hex_injective hkey)
  obtain ⟨hhash, hrest⟩ := List.append_inj hpre
    (u.tu.guestHash.property.trans v.tu.guestHash.property.symm)
  obtain ⟨-, hrest⟩ := append_putU32_inj hrest
  obtain ⟨-, hrest⟩ := append_putU32_inj hrest
  obtain ⟨hprofile, -⟩ := append_putU32_inj hrest
  rw [(tu_guestLen u.translates).2, (tu_guestLen v.translates).2] at hprofile
  have hstream : hashStream u.ops u.cfg = hashStream v.ops v.cfg := by
    refine hsha (Or.inl (Or.inl rfl)) (Or.inr (Or.inl rfl)) ?_
    rw [← guestHash_eq, ← guestHash_eq]
    exact Subtype.ext hhash
  obtain ⟨hcfg, -⟩ := hashStream_inj hstream
  have hpc : v.pc = u.pc := congrArg TransCfg.guestPc hcfg
  have hpolicy : v.policy = u.policy := congrArg TransCfg.policy hcfg
  have hstrength : v.strength = u.strength := congrArg TransCfg.strength hcfg
  -- the PC leads to one block of the image
  obtain ⟨run, hrun, hops, hlen⟩ := exactBlockAt_of_ok himg u.decodes
  obtain ⟨run', hrun', hops', hlen'⟩ := exactBlockAt_of_ok himg v.decodes
  rw [hpc] at hrun' hops'
  cases block_unique hrun.isBlock hrun'.isBlock hrun.bytes hrun'.bytes
  have hulen : u.len = v.len := BitVec.eq_of_toNat_eq (hlen.trans hlen'.symm)
  have htrans := v.translates
  rw [hpc, hpolicy, hstrength, ← hulen, hops', ← hops, ← hprofile, u.translates,
    Except.ok.injEq, Prod.mk.injEq] at htrans
  exact htrans.1

/-- **A unit runs as its block does.** -/
theorem runs (himg : img.Small) (u : ImageUnit img) :
    ∃ exe, oryxExecMapLinked u.tu = .ok exe ∧ ∀ (m : Machine) (h : Host), m.rip = u.pc →
      Follows h m → (∀ run, img.BlockAt u.pc u.cap run → CleanRun run) →
      TrampReturns exe h ∧ ∀ pc' h', TrampRuns exe h pc' h' →
        ∃ m', BlockStep img.text m m' ∧ m'.rip = pc' ∧ Follows h' m' := by
  obtain ⟨run, hrun, hops, hlen⟩ := exactBlockAt_of_ok himg u.decodes
  obtain ⟨exe, body, last, op, hmap, hlinked⟩ := linked_translated u.translates
  refine ⟨exe, hmap, fun m h hrip hfollows hclean => ?_⟩
  rw [hops, ← hrip] at hlinked
  obtain ⟨hreturns, hruns⟩ :=
    turn_follows hfollows (hclean run hrun) hrun.isBlock hlen ⟨rfl, rfl⟩ hlinked
  refine ⟨hreturns, fun pc' h' hcall => ?_⟩
  have hholds : img.text.Holds m.rip (codeBytes run) := by
    rw [hrip]
    exact hrun.holds (inside_of_ok u.decodes).2
  exact ⟨_, .block m run hrun.isBlock hholds, hruns pc' h' hcall⟩

end ImageUnit

/-! ### The store of a program -/

/-- A put of a unit of the image or of anything else, or an adversary's write. -/
inductive ProgramWrite (img : OryxX86Image)
  | unit (u : ImageUnit img)
  | other (p : StorePut)
  | tamper (addr : List Byte) (content : Option (List Byte))

def ProgramWrite.write {img : OryxX86Image} : ProgramWrite img → StoreWrite
  | .unit u => .put (.putTu u.tu)
  | .other p => .put p
  | .tamper addr content => .tamper addr content

section Program

variable {img : OryxX86Image} {ws : List (ProgramWrite img)}

def programStore (ws : List (ProgramWrite img)) : CacheStore :=
  storeRun (ws.map ProgramWrite.write)

/-- All that is hashed: the byte strings of the run, and the keys of its units and of `u`. -/
def programBytes (ws : List (ProgramWrite img)) (u : ImageUnit img) : Set (List Byte) :=
  involvedBytes (ws.map ProgramWrite.write) ∪ u.keyBytes ∪ {b | ∃ v, .unit v ∈ ws ∧ b ∈ v.keyBytes}

/-- Nothing else that was put under the key is a unit. -/
def NoForeignUnit (ws : List (ProgramWrite img)) (key : List Byte) : Prop :=
  ∀ p, .other p ∈ ws → p.key = key → ∀ tu, oryxTuParse p.data ≠ .ok tu

/-- A put under the key that parses is a unit of the image. -/
theorem unit_of_put {p : StorePut} {tu : OryxTu} (hforeign : NoForeignUnit ws p.key)
    (hput : .put p ∈ ws.map ProgramWrite.write) (hparse : oryxTuParse p.data = .ok tu) :
    ∃ v, .unit v ∈ ws ∧ p = .putTu v.tu ∧ tu = v.tu := by
  obtain ⟨w, hw, heq⟩ := List.mem_map.mp hput
  cases w with
  | unit v =>
    cases heq
    rw [StorePut.data, oryxTuParse_serialize] at hparse
    exact ⟨v, hw, rfl, (Except.ok.inj hparse).symm⟩
  | other q =>
    cases heq
    exact absurd hparse (hforeign _ hw rfl tu)
  | tamper addr content => cases heq

variable {u : ImageUnit img}

/-- What is served under the key of a unit is that unit. -/
theorem eq_of_programStore (himg : img.Small) (hforeign : NoForeignUnit ws u.key)
    (hsha : Set.InjOn sha256 (programBytes ws u)) {tu : OryxTu}
    (h : oryxCacheGetTu (programStore ws) u.key = .ok tu) : tu = u.tu := by
  obtain ⟨p, hlast, hparse⟩ := served_tu (hsha.mono fun b hb => Or.inl (Or.inl hb)) h
  obtain ⟨hput, hkey, -⟩ := lastStored_mem hlast
  rw [← hkey] at hforeign
  obtain ⟨v, hv, rfl, rfl⟩ := unit_of_put hforeign hput hparse
  refine ImageUnit.unit_unique himg (hsha.mono ?_) hkey
  rintro b (hb | hb)
  · exact Or.inr ⟨v, hv, hb⟩
  · exact Or.inl (Or.inr hb)

/-- A put under a key leaves a put under it. -/
theorem exists_lastStored {es : List StoreWrite} {p : StorePut} (hput : .put p ∈ es)
    (hhex : isHex64 p.key = true) : ∃ q, lastStored es p.key = some q := by
  induction es using List.reverseRecOn with
  | nil => cases hput
  | append_singleton es e ih =>
    rw [lastStored_concat]
    rcases List.mem_append.mp hput with hmem | hmem
    · obtain ⟨q, hq⟩ := ih hmem
      cases e with
      | tamper => exact ⟨q, hq⟩
      | put p' =>
        rw [storedStep]
        split
        · by_cases hk : p.key = p'.key
          · exact ⟨p', by rw [hk, Function.update_self]⟩
          · exact ⟨q, by rw [Function.update_of_ne hk, hq]⟩
        · exact ⟨q, hq⟩
    · rw [← List.mem_singleton.mp hmem, storedStep, if_pos hhex]
      exact ⟨p, Function.update_self _ _ _⟩

/-- A unit that was put is served, if nothing else was put under its key and its blob is kept. -/
theorem programStore_serves (himg : img.Small) (hsha : Set.InjOn sha256 (programBytes ws u))
    (hunit : .unit u ∈ ws) (hother : ∀ p, .other p ∈ ws → p.key ≠ u.key)
    (hkept : KeptBlob (ws.map ProgramWrite.write) (oryxContentAddress (oryxTuSerialize u.tu))) :
    oryxCacheGetTu (programStore ws) u.key = .ok u.tu := by
  obtain ⟨q, hlast⟩ := @exists_lastStored (ws.map ProgramWrite.write) (.putTu u.tu)
    (List.mem_map.mpr ⟨_, hunit, rfl⟩) (StorePut.isHex64_putTu u.tu)
  obtain ⟨hput, hkey, -⟩ := lastStored_mem hlast
  obtain ⟨w, hw, heq⟩ := List.mem_map.mp hput
  cases w with
  | unit v =>
    cases heq
    have htu : v.tu = u.tu := by
      refine ImageUnit.unit_unique himg (hsha.mono ?_) hkey
      rintro b (hb | hb)
      · exact Or.inr ⟨v, hw, hb⟩
      · exact Or.inl (Or.inr hb)
    rw [htu] at hlast
    exact serves_kept_tu (hsha.mono fun b hb => Or.inl (Or.inl hb)) hlast hkept
  | other p =>
    injection heq with hpq
    rw [← hpq] at hkey
    exact absurd hkey (hother p hw)
  | tamper addr content => cases heq

/-- **A store of a program's translations runs the program**: a unit found under the key of a
block is the block's translation, links, and takes the host where the x86 machine over the image
goes, whatever the adversary writes, whatever is put beside the units of the image, unless it is
another program's unit under that key, and whatever the policies and strengths of the units.  A
unit put and not tampered with is found, unless other data was put under its key. -/
theorem storedUnit_x86 (himg : img.Small) (ws : List (ProgramWrite img)) (u : ImageUnit img)
    (hforeign : NoForeignUnit ws u.key) (hsha : Set.InjOn sha256 (programBytes ws u)) :
    (∀ tu, oryxCacheGetTu (programStore ws) u.key = .ok tu → tu = u.tu ∧
      ∃ exe, oryxExecMapLinked tu = .ok exe ∧ ∀ (m : Machine) (h : Host), m.rip = u.pc →
        Follows h m → (∀ run, img.BlockAt u.pc u.cap run → CleanRun run) →
        TrampReturns exe h ∧ ∀ pc' h', TrampRuns exe h pc' h' →
          ∃ m', BlockStep img.text m m' ∧ m'.rip = pc' ∧ Follows h' m') ∧
      (.unit u ∈ ws → (∀ p, .other p ∈ ws → p.key ≠ u.key) →
        KeptBlob (ws.map ProgramWrite.write) (oryxContentAddress (oryxTuSerialize u.tu)) →
        oryxCacheGetTu (programStore ws) u.key = .ok u.tu) := by
  constructor
  · intro tu htu
    cases eq_of_programStore himg hforeign hsha htu
    exact ⟨rfl, u.runs himg⟩
  · exact programStore_serves himg hsha

end Program

/-! ### `mov rax, 7; ret` in a store -/

/-- Its block, translated. -/
def sevenUnit : ImageUnit sevenImage where
  pc := 0x400000
  cap := oryxMaxBlockOps
  policy := .drf
  strength := .sc
  profileId := 0
  ops := [ginsn .movRi 0 0 7, ginsn .x86ret 0 0 0]
  len := 8
  tu := _
  st := _
  decodes := rfl
  translates := rfl

/-- The unit, a map, and another program's unit. -/
def sevenWrites : List (ProgramWrite sevenImage) :=
  [.unit sevenUnit, .other (.putMap oneEntryMap), .other (.putTu emptyTu)]

theorem sevenWrites_injOn : Set.InjOn sha256 (programBytes sevenWrites sevenUnit) := by
  have hnodup : ([oryxTuSerialize sevenUnit.tu, oryxMmapSerialize oneEntryMap,
      oryxTuSerialize emptyTu, hashStream sevenUnit.ops sevenUnit.cfg,
      logicalKeyPreimage sevenUnit.tu].map sha256).Nodup := by
    decide +kernel
  have hmem : ∀ b ∈ programBytes sevenWrites sevenUnit,
      b ∈ [oryxTuSerialize sevenUnit.tu, oryxMmapSerialize oneEntryMap, oryxTuSerialize emptyTu,
        hashStream sevenUnit.ops sevenUnit.cfg, logicalKeyPreimage sevenUnit.tu] := by
    have hkey : ∀ b ∈ sevenUnit.keyBytes, b = hashStream sevenUnit.ops sevenUnit.cfg ∨
        b = logicalKeyPreimage sevenUnit.tu := fun b hb => hb
    simp only [List.mem_cons, List.not_mem_nil, or_false]
    rintro b (((⟨p, hp, rfl⟩ | ⟨a, ha⟩) | hb) | ⟨v, hv, hb⟩)
    · simp only [sevenWrites, List.map_cons, List.map_nil, ProgramWrite.write, List.mem_cons,
        StoreWrite.put.injEq, List.not_mem_nil, or_false] at hp
      rcases hp with rfl | rfl | rfl
      · exact Or.inl rfl
      · exact Or.inr (Or.inl rfl)
      · exact Or.inr (Or.inr (Or.inl rfl))
    · simp only [sevenWrites, List.map_cons, List.map_nil, ProgramWrite.write, List.mem_cons,
        reduceCtorEq, List.not_mem_nil, or_self] at ha
    · exact Or.inr (Or.inr (Or.inr (hkey b hb)))
    · simp only [sevenWrites, List.mem_cons, ProgramWrite.unit.injEq, reduceCtorEq,
        List.not_mem_nil, or_false] at hv
      subst hv
      exact Or.inr (Or.inr (Or.inr (hkey b hb)))
  exact fun x hx y hy h => List.inj_on_of_nodup_map hnodup (hmem x hx) (hmem y hy) h

/-- The unit's key is its own. -/
theorem key_sevenWrites (p : StorePut) (hp : .other p ∈ sevenWrites) : p.key ≠ sevenUnit.key := by
  simp only [sevenWrites, List.mem_cons, reduceCtorEq, ProgramWrite.other.injEq, List.not_mem_nil,
    or_false, false_or] at hp
  rcases hp with rfl | rfl
  · decide +kernel
  · decide +kernel

/-- It is found, and run from the start of the image it ends at the halt. -/
theorem storedUnit_x86_seven :
    oryxCacheGetTu (programStore sevenWrites) sevenUnit.key = .ok sevenUnit.tu ∧
      ∃ exe, oryxExecMapLinked sevenUnit.tu = .ok exe ∧ TrampReturns exe sevenHost ∧
        ∀ pc' h', TrampRuns exe sevenHost pc' h' →
          ∃ m', BlockStep sevenImage.text sevenMachine m' ∧ m'.rip = pc' ∧ Follows h' m' := by
  have himg : sevenImage.Small := ⟨by decide, by decide⟩
  obtain ⟨hruns, hserves⟩ := storedUnit_x86 himg sevenWrites sevenUnit
    (fun p hp hkey => absurd hkey (key_sevenWrites p hp)) sevenWrites_injOn
  have hget := hserves List.mem_cons_self key_sevenWrites ?_
  · obtain ⟨-, exe, hmap, hcall⟩ := hruns _ hget
    refine ⟨hget, exe, hmap, hcall sevenMachine sevenHost rfl ⟨rfl, rfl⟩ fun run hat => ?_⟩
    exact runsClean_seven 0 sevenMachine run (.refl _) hat
  · exact ⟨[], .putTu sevenUnit.tu, [.put (.putMap oneEntryMap), .put (.putTu emptyTu)], rfl,
      StorePut.isHex64_putTu sevenUnit.tu, rfl, rfl, by simp⟩

end Oryx
