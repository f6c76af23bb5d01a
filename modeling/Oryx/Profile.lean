/-
Oryx/Profile.lean

`profile.c`: the auto-tuning profiles of Part C as text and as a record, the
choice of the best one for a device, and the environment it is rendered into.

The telemetry is floating point in the source.  Here it is of any type `R`
with the operations the source uses on `double`, with no law assumed of them,
and `atof` is a parameter: no result about these functions may depend on what
the numbers are unless it says so.
-/
import Oryx.Lib.Checks
import Oryx.Lib.CText
import Mathlib.Algebra.Field.Rat
import Mathlib.Data.List.DropRight

namespace Oryx

/-! ### Strings of a profile -/

/-- `ORYX_STR`. -/
def oryxStr : Nat := 96

/-- The C string in a `char[ORYX_STR]`. -/
structure Str where
  bytes : List Byte
  fits : bytes.length < oryxStr
  noNul : 0 ∉ bytes
  deriving DecidableEq

/-- `set_str`: `snprintf` cuts what does not fit. -/
def setStr (src : List Byte) : Str where
  bytes := (cString src).take (oryxStr - 1)
  fits := Nat.lt_of_le_of_lt (List.length_take_le _ _) (by decide)
  noNul h := zero_notMem_cString src (List.mem_of_mem_take h)

/-- `dst[0] == '\0'`. -/
def Str.isEmpty (s : Str) : Bool := s.bytes.isEmpty

/-- `trim`. -/
def trim (s : List Byte) : List Byte := (s.dropWhile isspace).rdropWhile isspace

/-! ### Profiles -/

/-- `ORYX_P_*`, but for `ORYX_P_OK`. -/
inductive ProfileErr
  | err
  | notfound
  | inval
  deriving DecidableEq, Repr

inductive Backend
  | box64
  | fex
  deriving DecidableEq, Repr

inductive MemModel
  | swFences
  | hwTso
  deriving DecidableEq, Repr

/-- `struct oryx_profile`. -/
structure Profile (R : Type*) where
  gameBuildHash : Str
  deviceClass : Str
  requiresHwTso : Int
  backend : Backend
  memmodel : MemModel
  turnipBuild : Str
  dxvkOpts : Str
  vkd3dOpts : Str
  resolution : Str
  fsrMode : Str
  deviceSpoof : Str
  medianFps : R
  p1LowFps : R
  crashRate : R
  sustainedFps : R
  sampleCount : BitVec 32
  deriving DecidableEq

/-- `struct oryx_caps`. -/
structure Caps where
  deviceClass : Str
  hwTso : Int

section Parse

variable {R : Type*} (atof : List Byte → R)

/-- What a key and its value set; unknown keys set nothing. -/
def setKey (out : Profile R) (k v : List Byte) : Profile R :=
  if k = ascii "game_build_hash" then { out with gameBuildHash := setStr v }
  else if k = ascii "device_class" then { out with deviceClass := setStr v }
  else if k = ascii "requires_hw_tso" then { out with requiresHwTso := atoi v }
  else if k = ascii "backend" then
    { out with backend := if v = ascii "fex" then .fex else .box64 }
  else if k = ascii "memmodel" then
    { out with memmodel := if v = ascii "hw_tso" then .hwTso else .swFences }
  else if k = ascii "turnip_build" then { out with turnipBuild := setStr v }
  else if k = ascii "dxvk_opts" then { out with dxvkOpts := setStr v }
  else if k = ascii "vkd3d_opts" then { out with vkd3dOpts := setStr v }
  else if k = ascii "resolution" then { out with resolution := setStr v }
  else if k = ascii "fsr_mode" then { out with fsrMode := setStr v }
  else if k = ascii "device_spoof" then { out with deviceSpoof := setStr v }
  else if k = ascii "median_fps" then { out with medianFps := atof v }
  else if k = ascii "p1_low_fps" then { out with p1LowFps := atof v }
  else if k = ascii "crash_rate" then { out with crashRate := atof v }
  else if k = ascii "sustained_fps" then { out with sustainedFps := atof v }
  else if k = ascii "sample_count" then { out with sampleCount := (strtoul v).setWidth 32 }
  else out

/-- The body of the `strtok_r` loop. -/
def parseLine (out : Profile R) (line : List Byte) : Profile R :=
  let t := trim line
  if t = [] ∨ t.head? = some 0x23 then out
  else if 0x3D ∈ t then
    -- `strchr` finds the first `=`
    let k := trim (t.takeWhile (· ≠ 0x3D))
    let v := trim ((t.dropWhile (· ≠ 0x3D)).drop 1)
    setKey atof out k v
  else out

/-- The tokens of `strtok_r(.., "\n")`. -/
def lineTokens (text : List Byte) : List (List Byte) :=
  ((cString text).splitOn 0x0A).filter (· ≠ [])

variable [OfScientific R]

/-- `oryx_profile_init`. -/
def oryxProfileInit : Profile R where
  gameBuildHash := setStr []
  deviceClass := setStr []
  requiresHwTso := 0
  backend := .box64
  memmodel := .swFences
  turnipBuild := setStr []
  dxvkOpts := setStr []
  vkd3dOpts := setStr []
  resolution := setStr []
  fsrMode := setStr (ascii "off")
  deviceSpoof := setStr []
  medianFps := 0.0
  p1LowFps := 0.0
  crashRate := 0.0
  sustainedFps := 0.0
  sampleCount := 0

/-- `oryx_profile_parse`. -/
def oryxProfileParse (text : List Byte) : Except ProfileErr (Profile R) :=
  let out := (lineTokens text).foldl (parseLine atof) oryxProfileInit
  if out.gameBuildHash.isEmpty ∨ out.deviceClass.isEmpty then .error .inval else .ok out

end Parse

/-! ### Serializing -/

section Serialize

variable {R : Type*}

/-- How `printf` prints a `double` with a number of decimals: on one line and without a
`'\0'`. -/
structure FloatPrinter (R : Type*) where
  print : Nat → R → List Byte
  oneLine : ∀ decimals x, 0x0A ∉ print decimals x
  noNul : ∀ decimals x, 0 ∉ print decimals x

variable (fmt : FloatPrinter R)

/-- The keys of the format string of `oryx_profile_serialize`, and what is printed for each. -/
def profileSettings (p : Profile R) : List (String × List Byte) :=
  [("game_build_hash", p.gameBuildHash.bytes),
    ("device_class", p.deviceClass.bytes),
    ("requires_hw_tso", printInt p.requiresHwTso),
    ("backend", if p.backend = .fex then ascii "fex" else ascii "box64"),
    ("memmodel", if p.memmodel = .hwTso then ascii "hw_tso" else ascii "sw_fences"),
    ("turnip_build", p.turnipBuild.bytes),
    ("dxvk_opts", p.dxvkOpts.bytes),
    ("vkd3d_opts", p.vkd3dOpts.bytes),
    ("resolution", p.resolution.bytes),
    ("fsr_mode", p.fsrMode.bytes),
    ("device_spoof", p.deviceSpoof.bytes),
    ("median_fps", fmt.print 2 p.medianFps),
    ("p1_low_fps", fmt.print 2 p.p1LowFps),
    ("crash_rate", fmt.print 4 p.crashRate),
    ("sustained_fps", fmt.print 2 p.sustainedFps),
    ("sample_count", printNat p.sampleCount.toNat)]

/-- A line of the format string, but for its newline. -/
def settingLine (kv : String × List Byte) : List Byte := ascii kv.1 ++ (ascii " = " ++ kv.2)

/-- `oryx_profile_serialize`: `snprintf` returns the length of the whole text, or a negative
number when that is no `int`. -/
def oryxProfileSerialize (p : Profile R) (bufsz : Nat) : Except ProfileErr (List Byte) :=
  let text := (profileSettings fmt p).flatMap fun kv => settingLine kv ++ ascii "\n"
  if 2 ^ 31 ≤ text.length ∨ bufsz ≤ text.length then .error .err else .ok text

end Serialize

/-! ### What is parsed -/

section Parsed

variable {R : Type*} (atof : List Byte → R)

/-- The strings of a profile. -/
def Profile.strs (p : Profile R) : List Str :=
  [p.gameBuildHash, p.deviceClass, p.turnipBuild, p.dxvkOpts, p.vkd3dOpts, p.resolution,
    p.fsrMode, p.deviceSpoof]

/-- No string of the profile has a newline in it. -/
def OneLine (p : Profile R) : Prop := ∀ s ∈ p.strs, 0x0A ∉ s.bytes

theorem mem_of_mem_setStr {v : List Byte} {b : Byte} (h : b ∈ (setStr v).bytes) : b ∈ v :=
  List.takeWhile_subset _ (List.mem_of_mem_take h)

theorem mem_of_mem_trim {s : List Byte} {b : Byte} (h : b ∈ trim s) : b ∈ s :=
  (List.dropWhile_suffix _).subset ((List.rdropWhile_prefix _ _).subset h)

/-- A key sets one string at most, and to its value. -/
theorem mem_strs_setKey {out : Profile R} {k v : List Byte} {s : Str}
    (h : s ∈ (setKey atof out k v).strs) : s ∈ out.strs ∨ s = setStr v := by
  have hite : ∀ (c : Prop) [Decidable c] (a b : Profile R),
      (s ∈ a.strs → s ∈ out.strs ∨ s = setStr v) → (s ∈ b.strs → s ∈ out.strs ∨ s = setStr v) →
      s ∈ (if c then a else b).strs → s ∈ out.strs ∨ s = setStr v := by
    intro c _ a b ha hb hs
    split at hs
    · exact ha hs
    · exact hb hs
  -- the strings after an assignment are the strings before with one replaced
  have hset : ∀ i, s ∈ out.strs.set i (setStr v) → s ∈ out.strs ∨ s = setStr v :=
    fun _ => List.mem_or_eq_of_mem_set
  revert h
  unfold setKey
  exact hite _ _ _ (hset 0) <| hite _ _ _ (hset 1) <| hite _ _ _ Or.inl <| hite _ _ _ Or.inl <|
    hite _ _ _ Or.inl <| hite _ _ _ (hset 2) <| hite _ _ _ (hset 3) <| hite _ _ _ (hset 4) <|
    hite _ _ _ (hset 5) <| hite _ _ _ (hset 6) <| hite _ _ _ (hset 7) <| hite _ _ _ Or.inl <|
    hite _ _ _ Or.inl <| hite _ _ _ Or.inl <| hite _ _ _ Or.inl <| hite _ _ _ Or.inl Or.inl

theorem OneLine.parseLine {out : Profile R} (h : OneLine out) {line : List Byte}
    (hline : 0x0A ∉ line) : OneLine (parseLine atof out line) := by
  unfold Oryx.parseLine
  extract_lets t k v
  split_ifs
  · exact h
  · intro s hs
    rcases mem_strs_setKey atof hs with hold | rfl
    · exact h s hold
    · -- the value is a part of the line
      intro hmem
      have hv := List.mem_of_mem_drop (mem_of_mem_trim (mem_of_mem_setStr hmem))
      exact hline (mem_of_mem_trim ((List.dropWhile_suffix _).subset hv))
  · exact h

theorem newline_notMem_lineTokens {text line : List Byte} (h : line ∈ lineTokens text) :
    0x0A ∉ line := notMem_of_mem_splitOn (List.mem_of_mem_filter h)

variable [OfScientific R]

/-- **Every string of a parsed profile is on one line.** -/
theorem oneLine_of_parse {text : List Byte} {p : Profile R} (h : oryxProfileParse atof text = .ok p) :
    OneLine p := by
  obtain ⟨-, hp⟩ := check_eq_ok_iff.mp h
  cases hp
  have hrun : ∀ (lines : List (List Byte)) (out : Profile R), OneLine out →
      (∀ l ∈ lines, 0x0A ∉ l) → OneLine (lines.foldl (parseLine atof) out) := by
    intro lines
    induction lines with
    | nil => exact fun _ hout _ => hout
    | cons l lines ih =>
      intro out hout hlines
      exact ih _ (hout.parseLine atof (hlines l List.mem_cons_self))
        fun l' hl' => hlines l' (List.mem_cons_of_mem _ hl')
  refine hrun _ _ ?_ fun l hl => newline_notMem_lineTokens hl
  intro s hs
  simp only [oryxProfileInit, Profile.strs, List.mem_cons, List.not_mem_nil, or_false] at hs
  rcases hs with rfl | rfl | rfl | rfl | rfl | rfl | rfl | rfl
  all_goals decide

end Parsed

/-! ### Ranking and resolution -/

section Resolve

variable {R : Type*}

/-- `oryx_profile_compatible`. -/
def oryxProfileCompatible (p : Profile R) (caps : Caps) : Bool :=
  let needsTso := p.requiresHwTso ≠ 0 ∨ p.memmodel = .hwTso
  if p.deviceClass ≠ caps.deviceClass then false
  else if needsTso ∧ caps.hwTso = 0 then false
  else true

variable [Add R] [Sub R] [Mul R] [Div R] [OfScientific R] [NatCast R]

/-- `oryx_profile_score`. -/
def oryxProfileScore (p : Profile R) : R :=
  let priorN : R := 10.0
  let priorCrash : R := 0.10
  let n : R := (p.sampleCount.toNat : R)
  let conf := n / (n + priorN)
  let effCrash := (p.crashRate * n + priorCrash * priorN) / (n + priorN)
  let base := 0.5 * p.p1LowFps + 0.3 * p.medianFps + 0.2 * p.sustainedFps
  base * (1.0 - effCrash) * (0.5 + 0.5 * conf)

variable [Neg R] [LT R] [DecidableLT R] [BEq R]

/-- The body of the loop of `oryx_profile_resolve`, on `best` and `best_score`. -/
def resolveStep (gameBuildHash : List Byte) (caps : Caps) (best : Option (Profile R) × R)
    (p : Profile R) : Option (Profile R) × R :=
  if p.gameBuildHash.bytes ≠ cString gameBuildHash then best
  else if oryxProfileCompatible p caps = false then best
  else
    let sc := oryxProfileScore p
    if sc > best.2 ∨
        (sc == best.2 ∧ ∃ b ∈ best.1, p.sampleCount > b.sampleCount) then (some p, sc)
    else best

/-- `oryx_profile_resolve`. -/
def oryxProfileResolve (items : List (Profile R)) (gameBuildHash : List Byte) (caps : Caps) :
    Except ProfileErr (Profile R) :=
  match (items.foldl (resolveStep gameBuildHash caps) (none, -1.0)).1 with
  | none => .error .notfound
  | some best => .ok best

end Resolve

/-! ### Rendering -/

/-- `EMIT`: `snprintf` at `buf + off`, where its text and a `'\0'` must fit. -/
def emit (bufsz : Nat) (line : List Byte) (buf : List Byte) : Except ProfileErr (List Byte) :=
  if line.length ≥ bufsz - buf.length then .error .err else .ok (buf ++ line)

/-- `if (field[0]) EMIT(before field after)`. -/
def emitField (bufsz : Nat) (before : String) (field : Str) (after : String) (buf : List Byte) :
    Except ProfileErr (List Byte) :=
  if field.isEmpty then .ok buf
  else emit bufsz (ascii before ++ field.bytes ++ ascii after) buf

section Apply

variable {R : Type*}

/-- The knobs of `oryx_profile_apply_env` for the memory model. -/
def emitOrdering (p : Profile R) (bufsz : Nat) (buf : List Byte) :
    Except ProfileErr (List Byte) :=
  if p.memmodel = .hwTso then do
    -- hardware ordering: the emulator calls liboryxmm
    let buf ← emit bufsz (ascii "export ORYX_MM_TSO=1\n") buf
    if p.backend = .fex then emit bufsz (ascii "export FEX_TSOENABLED=0\n") buf else .ok buf
  else do
    let buf ← emit bufsz (ascii "export ORYX_MM_TSO=0\n") buf
    if p.backend = .box64 then emit bufsz (ascii "export BOX64_DYNAREC_STRONGMEM=1\n") buf
    else emit bufsz (ascii "export FEX_TSOENABLED=1\n") buf

/-- `oryx_profile_apply_env`. -/
def oryxProfileApplyEnv (p : Profile R) (bufsz : Nat) : Except ProfileErr (List Byte) := do
  let buf ← emit bufsz (ascii "export ORYX_BACKEND=" ++
    (if p.backend = .fex then ascii "fex" else ascii "box64") ++ ascii "\n") []
  let buf ← emitOrdering p bufsz buf
  let buf ← emitField bufsz "export ORYX_TURNIP_BUILD=" p.turnipBuild "\n" buf
  let buf ← emitField bufsz "export DXVK_CONFIG=\"" p.dxvkOpts "\"\n" buf
  let buf ← emitField bufsz "export VKD3D_CONFIG=\"" p.vkd3dOpts "\"\n" buf
  let buf ← emitField bufsz "export ORYX_RES=" p.resolution "\n" buf
  let buf ← emitField bufsz "export ORYX_FSR=" p.fsrMode "\n" buf
  emitField bufsz "export ORYX_GPU_SPOOF=\"" p.deviceSpoof "\"\n" buf

/-! ### What is rendered -/

/-- A line `export NAME=VALUE`, its value in double quotes or bare. -/
structure EnvLine where
  name : List Byte
  quoted : Bool
  value : List Byte
  deriving DecidableEq

def EnvLine.rendered (l : EnvLine) : List Byte :=
  if l.quoted then ascii "\"" ++ l.value ++ ascii "\"" else l.value

def EnvLine.text (l : EnvLine) : List Byte := ascii "export " ++ l.name ++ ascii "=" ++ l.rendered

def renderLines (ls : List EnvLine) : List Byte := ls.flatMap fun l => l.text ++ ascii "\n"

/-- The line of a field that is not empty. -/
def fieldLine (name : String) (quoted : Bool) (field : Str) : List EnvLine :=
  if field.isEmpty then [] else [⟨ascii name, quoted, field.bytes⟩]

/-- The lines that choose the memory ordering. -/
def orderingLines (p : Profile R) : List EnvLine :=
  match p.memmodel, p.backend with
  | .hwTso, .fex =>
      [⟨ascii "ORYX_MM_TSO", false, ascii "1"⟩, ⟨ascii "FEX_TSOENABLED", false, ascii "0"⟩]
  | .hwTso, .box64 => [⟨ascii "ORYX_MM_TSO", false, ascii "1"⟩]
  | .swFences, .box64 =>
      [⟨ascii "ORYX_MM_TSO", false, ascii "0"⟩,
        ⟨ascii "BOX64_DYNAREC_STRONGMEM", false, ascii "1"⟩]
  | .swFences, .fex =>
      [⟨ascii "ORYX_MM_TSO", false, ascii "0"⟩, ⟨ascii "FEX_TSOENABLED", false, ascii "1"⟩]

/-- The lines of the free-text fields. -/
def fieldLines (p : Profile R) : List EnvLine :=
  fieldLine "ORYX_TURNIP_BUILD" false p.turnipBuild ++ fieldLine "DXVK_CONFIG" true p.dxvkOpts ++
    fieldLine "VKD3D_CONFIG" true p.vkd3dOpts ++ fieldLine "ORYX_RES" false p.resolution ++
    fieldLine "ORYX_FSR" false p.fsrMode ++ fieldLine "ORYX_GPU_SPOOF" true p.deviceSpoof

def backendLine (p : Profile R) : EnvLine :=
  ⟨ascii "ORYX_BACKEND", false, if p.backend = .fex then ascii "fex" else ascii "box64"⟩

/-- The environment of a profile. -/
def envLines (p : Profile R) : List EnvLine := backendLine p :: (orderingLines p ++ fieldLines p)

/-- A renderer appends these lines when it succeeds. -/
def Appends (f : List Byte → Except ProfileErr (List Byte)) (ls : List EnvLine) : Prop :=
  ∀ buf buf', f buf = .ok buf' → buf' = buf ++ renderLines ls

theorem Appends.then {f g : List Byte → Except ProfileErr (List Byte)} {ls ms : List EnvLine}
    (hf : Appends f ls) (hg : Appends g ms) : Appends (fun buf => f buf >>= g) (ls ++ ms) := by
  intro buf buf' h
  obtain ⟨mid, hmid, hrest⟩ := bind_eq_ok_iff.mp h
  rw [hg mid buf' hrest, hf buf mid hmid, renderLines, renderLines, renderLines,
    List.flatMap_append, List.append_assoc]

theorem Appends.ok : Appends .ok [] := by
  intro buf buf' h
  cases h
  exact (List.append_nil buf).symm

theorem appends_emit (bufsz : Nat) {line : List Byte} {l : EnvLine}
    (hline : line = l.text ++ ascii "\n") : Appends (emit bufsz line) [l] := by
  intro buf buf' h
  obtain ⟨-, hbuf⟩ := check_eq_ok_iff.mp h
  cases hbuf
  rw [renderLines, List.flatMap_cons, List.flatMap_nil, List.append_nil, hline]

theorem appends_emitField (bufsz : Nat) {before after name : String} {quoted : Bool} {field : Str}
    (hline : ascii before ++ field.bytes ++ ascii after =
      (EnvLine.mk (ascii name) quoted field.bytes).text ++ ascii "\n") :
    Appends (emitField bufsz before field after) (fieldLine name quoted field) := by
  intro buf buf' h
  rw [emitField] at h
  rw [fieldLine]
  split at h
  · next hempty =>
    rw [if_pos hempty]
    exact Appends.ok buf buf' h
  · next hempty =>
    rw [if_neg hempty]
    exact appends_emit bufsz hline buf buf' h

theorem appends_ordering (p : Profile R) (bufsz : Nat) :
    Appends (emitOrdering p bufsz) (orderingLines p) := by
  have htso₁ : Appends (emit bufsz (ascii "export ORYX_MM_TSO=1\n"))
      [⟨ascii "ORYX_MM_TSO", false, ascii "1"⟩] := appends_emit bufsz rfl
  have htso₀ : Appends (emit bufsz (ascii "export ORYX_MM_TSO=0\n"))
      [⟨ascii "ORYX_MM_TSO", false, ascii "0"⟩] := appends_emit bufsz rfl
  have hfex₀ : Appends (emit bufsz (ascii "export FEX_TSOENABLED=0\n"))
      [⟨ascii "FEX_TSOENABLED", false, ascii "0"⟩] := appends_emit bufsz rfl
  have hfex₁ : Appends (emit bufsz (ascii "export FEX_TSOENABLED=1\n"))
      [⟨ascii "FEX_TSOENABLED", false, ascii "1"⟩] := appends_emit bufsz rfl
  have hbox : Appends (emit bufsz (ascii "export BOX64_DYNAREC_STRONGMEM=1\n"))
      [⟨ascii "BOX64_DYNAREC_STRONGMEM", false, ascii "1"⟩] := appends_emit bufsz rfl
  intro buf buf' h
  unfold emitOrdering at h
  unfold orderingLines
  -- two memory models, two backends
  cases hm : p.memmodel with
  | hwTso =>
    cases hb : p.backend with
    | fex =>
      simp only [hm, hb, if_true] at h
      exact htso₁.then hfex₀ buf buf' h
    | box64 =>
      simp only [hm, hb, if_true, reduceCtorEq, if_false] at h
      exact htso₁.then Appends.ok buf buf' h
  | swFences =>
    cases hb : p.backend with
    | fex =>
      simp only [hm, hb, reduceCtorEq, if_false] at h
      exact htso₀.then hfex₁ buf buf' h
    | box64 =>
      simp only [hm, hb, if_true, reduceCtorEq, if_false] at h
      exact htso₀.then hbox buf buf' h

/-- **The environment rendered** is the lines of the profile, one after the other. -/
theorem oryxProfileApplyEnv_ok {p : Profile R} {bufsz : Nat} {out : List Byte}
    (h : oryxProfileApplyEnv p bufsz = .ok out) : out = renderLines (envLines p) := by
  have hbackend : Appends (emit bufsz (ascii "export ORYX_BACKEND=" ++
      (if p.backend = .fex then ascii "fex" else ascii "box64") ++ ascii "\n")) [backendLine p] :=
    appends_emit bufsz rfl
  have hbare : ∀ (before name : String) (field : Str),
      ascii before = ascii "export " ++ ascii name ++ ascii "=" →
      Appends (emitField bufsz before field "\n") (fieldLine name false field) := by
    intro before name field hbefore
    apply appends_emitField bufsz
    rw [hbefore]
    rfl
  have hquoted : ∀ (before name : String) (field : Str),
      ascii before = ascii "export " ++ ascii name ++ ascii "=" ++ ascii "\"" →
      Appends (emitField bufsz before field "\"\n") (fieldLine name true field) := by
    intro before name field hbefore
    apply appends_emitField bufsz
    rw [hbefore]
    show _ = _ ++ (ascii "\"" ++ field.bytes ++ ascii "\"") ++ ascii "\n"
    simp only [List.append_assoc]
    rfl
  -- the lines in the order in which the function emits them
  have hall := hbackend.then ((appends_ordering p bufsz).then
    ((hbare "export ORYX_TURNIP_BUILD=" "ORYX_TURNIP_BUILD" p.turnipBuild rfl).then
    ((hquoted "export DXVK_CONFIG=\"" "DXVK_CONFIG" p.dxvkOpts rfl).then
    ((hquoted "export VKD3D_CONFIG=\"" "VKD3D_CONFIG" p.vkd3dOpts rfl).then
    ((hbare "export ORYX_RES=" "ORYX_RES" p.resolution rfl).then
    ((hbare "export ORYX_FSR=" "ORYX_FSR" p.fsrMode rfl).then
    (hquoted "export ORYX_GPU_SPOOF=\"" "ORYX_GPU_SPOOF" p.deviceSpoof rfl)))))))
  rw [hall [] out h, List.nil_append, envLines, fieldLines]
  simp only [List.append_assoc, List.singleton_append]

end Apply

end Oryx
