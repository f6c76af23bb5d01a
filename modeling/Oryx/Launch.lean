/-
Oryx/Launch.lean

Launching a game: `oryx-run.sh` and the `env` command of `oryxprofile`.

The command loads the profiles of a directory, resolves the best one for the
game and the device, and prints its environment; the script evaluates that and
hands over to the launch command.  The command does not look at what
`oryx_profile_apply_env` returns: its 2048 bytes hold every environment there
is (`oryxProfileApplyEnv_fits`).

`oryxRunSh_exec` says in what environment a game starts.  A profile of the
directory that is for another game or device, or needs hardware the user has not
vouched for, has no part in it.
-/
import Oryx.ShellEnv

namespace Oryx

/-! ### Loading a directory -/

/-- The files that the launcher sees: the names `readdir` gives for a directory, in its order,
and the content that a path opens. -/
structure ProfileFiles where
  readdir : List Byte → Option (List (List Byte))
  fopen : List Byte → Option (List Byte)

/-- `ends_with`. -/
def endsWith (s suf : List Byte) : Bool := suf.isSuffixOf s

/-- The path in `char path[1024]`. -/
def profilePath (dir name : List Byte) : List Byte := (dir ++ ascii "/" ++ name).take 1023

/-- What `fread` puts in `char text[4096]`. -/
def profileText (content : List Byte) : List Byte := content.take 4095

section Command

variable {R : Type*} [OfScientific R] (atof : List Byte → R) (files : ProfileFiles)

/-- The body of the `readdir` loop. -/
def loadEntry (dir : List Byte) (items : List (Profile R)) (name : List Byte) :
    List (Profile R) :=
  if endsWith name (ascii ".profile") = false then items
  else
    match files.fopen (profilePath dir name) with
    | none => items
    | some content =>
        match oryxProfileParse atof (profileText content) with
        | .error _ => items
        | .ok p => items ++ [p]

/-- `oryx_profile_set_load_dir` on an empty set; the set, if the directory can be read. -/
def oryxProfileSetLoadDir (dir : List Byte) : Option (List (Profile R)) :=
  (files.readdir dir).map fun names => names.foldl (loadEntry atof files dir) []

/-- The profile comes from a file of the directory. -/
def FromDir (dir : List Byte) (p : Profile R) : Prop :=
  ∃ names name content, files.readdir dir = some names ∧ name ∈ names ∧
    endsWith name (ascii ".profile") = true ∧
    files.fopen (profilePath dir name) = some content ∧
    oryxProfileParse atof (profileText content) = .ok p

variable {atof files}

/-- One entry adds at most its own profile. -/
theorem mem_loadEntry {dir name : List Byte} {items : List (Profile R)} {p : Profile R}
    (h : p ∈ loadEntry atof files dir items name) :
    p ∈ items ∨ (endsWith name (ascii ".profile") = true ∧ ∃ content,
      files.fopen (profilePath dir name) = some content ∧
        oryxProfileParse atof (profileText content) = .ok p) := by
  unfold loadEntry at h
  split at h
  · exact Or.inl h
  · next hend =>
    split at h
    · exact Or.inl h
    · next content hopen =>
      split at h
      · exact Or.inl h
      · next q hparse =>
        rcases List.mem_append.mp h with h | h
        · exact Or.inl h
        · cases List.mem_singleton.mp h
          exact Or.inr ⟨Bool.eq_true_of_not_eq_false hend, content, hopen, hparse⟩

/-- What is loaded comes from the directory. -/
theorem fromDir_of_mem {dir : List Byte} {items : List (Profile R)} {p : Profile R}
    (hload : oryxProfileSetLoadDir atof files dir = some items) (hp : p ∈ items) :
    FromDir atof files dir p := by
  obtain ⟨names, hnames, rfl⟩ := Option.map_eq_some_iff.mp hload
  have hrun : ∀ (rest : List (List Byte)) (acc : List (Profile R)), rest ⊆ names →
      (∀ q ∈ acc, FromDir atof files dir q) →
      ∀ q ∈ rest.foldl (loadEntry atof files dir) acc, FromDir atof files dir q := by
    intro rest
    induction rest with
    | nil => exact fun _ _ hacc => hacc
    | cons name rest ih =>
      intro acc hsub hacc
      refine ih _ (fun x hx => hsub (List.mem_cons_of_mem _ hx)) fun q hq => ?_
      rcases mem_loadEntry hq with hq | ⟨hend, content, hopen, hparse⟩
      · exact hacc q hq
      · exact ⟨names, name, content, hnames, hsub List.mem_cons_self, hend, hopen, hparse⟩
  exact hrun names [] (fun _ h => h) (fun q hq => absurd hq List.not_mem_nil) p hp

end Command

/-! ### The buffer of an environment -/

/-- A renderer that adds at most `n` bytes to a buffer of `bufsz`, and succeeds if they fit. -/
def Room (bufsz n : Nat) (f : List Byte → Except ProfileErr (List Byte)) : Prop :=
  ∀ buf, buf.length + n < bufsz → ∃ buf', f buf = .ok buf' ∧ buf'.length ≤ buf.length + n

section Room

variable {bufsz m n : Nat} {f g : List Byte → Except ProfileErr (List Byte)}

theorem Room.mono (h : Room bufsz m f) (hmn : m ≤ n) : Room bufsz n f := by
  intro buf hroom
  obtain ⟨buf', hf, hlen⟩ := h buf (by omega)
  exact ⟨buf', hf, by omega⟩

theorem Room.then (hf : Room bufsz m f) (hg : Room bufsz n g) :
    Room bufsz (m + n) fun buf => f buf >>= g := by
  intro buf hroom
  obtain ⟨mid, hmid, hlen⟩ := hf buf (by omega)
  obtain ⟨buf', hbuf', hlen'⟩ := hg mid (by omega)
  exact ⟨buf', bind_eq_ok_iff.mpr ⟨mid, hmid, hbuf'⟩, by omega⟩

theorem room_emit (line : List Byte) : Room bufsz line.length (emit bufsz line) := by
  intro buf hroom
  refine ⟨buf ++ line, if_neg (by omega), ?_⟩
  rw [List.length_append]

/-- A field has 95 bytes at most. -/
theorem room_emitField (before after : String) (field : Str) :
    Room bufsz ((ascii before).length + 95 + (ascii after).length)
      (emitField bufsz before field after) := by
  have hfits := field.fits
  unfold oryxStr at hfits
  intro buf hroom
  unfold emitField
  split
  · exact ⟨buf, rfl, Nat.le_add_right _ _⟩
  · refine (room_emit (ascii before ++ field.bytes ++ ascii after)).mono ?_ buf hroom
    rw [List.length_append, List.length_append]
    omega

variable {R : Type*}

theorem room_emitOrdering (p : Profile R) : Room bufsz 60 (emitOrdering p bufsz) := by
  have hline : ∀ s : String, (ascii s).length ≤ 34 → Room bufsz 34 (emit bufsz (ascii s)) :=
    fun s hs => (room_emit (ascii s)).mono hs
  have hset : ∀ s : String, (ascii s).length ≤ 21 → Room bufsz 21 (emit bufsz (ascii s)) :=
    fun s hs => (room_emit (ascii s)).mono hs
  intro buf hroom
  unfold emitOrdering
  cases p.memmodel with
  | hwTso =>
    cases p.backend with
    | fex =>
      exact ((hset _ (by decide)).then (hline "export FEX_TSOENABLED=0\n" (by decide))).mono
        (by decide) buf hroom
    | box64 =>
      obtain ⟨buf', hbuf', hlen⟩ := hset "export ORYX_MM_TSO=1\n" (by decide) buf (by omega)
      exact ⟨buf', bind_eq_ok_iff.mpr ⟨buf', hbuf', rfl⟩, by omega⟩
  | swFences =>
    cases p.backend with
    | fex =>
      exact ((hset _ (by decide)).then (hline "export FEX_TSOENABLED=1\n" (by decide))).mono
        (by decide) buf hroom
    | box64 =>
      exact ((hset _ (by decide)).then
        (hline "export BOX64_DYNAREC_STRONGMEM=1\n" (by decide))).mono (by decide) buf hroom

/-- **Every environment fits** in the buffer of the command. -/
theorem oryxProfileApplyEnv_fits (p : Profile R) :
    oryxProfileApplyEnv p 2048 = .ok (renderLines (envLines p)) := by
  have hbackend : Room 2048 26 (emit 2048 (ascii "export ORYX_BACKEND=" ++
      (if p.backend = .fex then ascii "fex" else ascii "box64") ++ ascii "\n")) := by
    refine (room_emit _).mono ?_
    cases p.backend with
    | fex => decide
    | box64 => decide
  have hall := hbackend.then ((room_emitOrdering p).then
    ((room_emitField "export ORYX_TURNIP_BUILD=" "\n" p.turnipBuild).then
    ((room_emitField "export DXVK_CONFIG=\"" "\"\n" p.dxvkOpts).then
    ((room_emitField "export VKD3D_CONFIG=\"" "\"\n" p.vkd3dOpts).then
    ((room_emitField "export ORYX_RES=" "\n" p.resolution).then
    ((room_emitField "export ORYX_FSR=" "\n" p.fsrMode).then
    (room_emitField "export ORYX_GPU_SPOOF=\"" "\"\n" p.deviceSpoof)))))))
  obtain ⟨out, hout, -⟩ := hall [] (by decide)
  rw [← oryxProfileApplyEnv_ok hout]
  exact hout

end Room

/-! ### The command -/

/-- What a program prints, and its exit code. -/
structure CommandResult where
  code : Nat
  stdout : List Byte

/-- The launch line of the script, and the options before it. -/
structure LaunchOptions where
  profiles : List Byte
  game : List Byte
  device : List Byte
  hwTso : List Byte
  dryRun : Bool

/-- The capabilities the command is told of. -/
def LaunchOptions.caps (o : LaunchOptions) : Caps := ⟨setStr o.device, atoi o.hwTso⟩

/-- The defaults of the script. -/
def launchDefaults : LaunchOptions := ⟨[], [], ascii "SM8850", ascii "0", false⟩

/-- The `while` loop of the script; `none` where it exits: at an unknown option, or at an option
whose value is missing (`set -u`). -/
def parseOptions (o : LaunchOptions) : List (List Byte) → Option (LaunchOptions × List (List Byte))
  | [] => some (o, [])
  | [w] =>
      if w = ascii "--dry-run" then some ({ o with dryRun := true }, [])
      else if w = ascii "--" then some (o, [])
      else none
  | w :: v :: rest =>
      if w = ascii "--profiles" then parseOptions { o with profiles := v } rest
      else if w = ascii "--game" then parseOptions { o with game := v } rest
      else if w = ascii "--device" then parseOptions { o with device := v } rest
      else if w = ascii "--hw-tso" then parseOptions { o with hwTso := v } rest
      else if w = ascii "--dry-run" then parseOptions { o with dryRun := true } (v :: rest)
      else if w = ascii "--" then some (o, v :: rest)
      else none

/-! ### The environment of a launch -/

/-- The variables of a process. -/
abbrev ShellVars := List Byte → Option (List Byte)

/-- `export NAME=VALUE`. -/
def exportVar (vars : ShellVars) (v : List Byte × List Byte) : ShellVars :=
  Function.update vars v.1 (some v.2)

/-- `NAME=VALUE` without `export`: the environment shows it if it has the variable. -/
def assignVar (vars : ShellVars) (v : List Byte × List Byte) : ShellVars :=
  if (vars v.1).isSome then exportVar vars v else vars

/-- The variables of the script itself. -/
def scriptNames : List (List Byte) :=
  ["PROFILES", "GAME", "DEVICE", "HW_TSO", "DRYRUN", "here", "ORYXPROFILE", "ENV"].map ascii

/-- `$(..)` drops the newlines at the end. -/
def stripNewlines (output : List Byte) : List Byte :=
  (output.reverse.dropWhile (· = 0x0A)).reverse

/-- What the script comes to. -/
inductive Launched
  /-- It exits with an error. -/
  | failed
  /-- Without a command it prints the environment. -/
  | printed (vars : ShellVars)
  /-- It runs the command, and prints the environment before that if asked to. -/
  | exec (command : List (List Byte)) (vars : ShellVars) (prints : Bool)
  /-- The output of the command makes the shell do more than export. -/
  | other

/-- From the `if` of `--dry-run` on. -/
def handOff (o : LaunchOptions) (command : List (List Byte)) (vars : ShellVars) : Launched :=
  if command = [] then .printed vars else .exec command vars o.dryRun

section Script

variable {R : Type*} [Add R] [Sub R] [Mul R] [Div R] [OfScientific R] [NatCast R] [LT R]
  [DecidableLT R] [BEq R] [Neg R] (atof : List Byte → R) (files : ProfileFiles)

/-- `oryxprofile env`.  `junk` is what `snprintf` has left in the buffer where the environment
does not fit. -/
def oryxprofileEnv (junk : List Byte) (o : LaunchOptions) : CommandResult :=
  match oryxProfileSetLoadDir atof files o.profiles with
  | none => ⟨1, []⟩
  | some items =>
      match oryxProfileResolve items o.game o.caps with
      | .error _ => ⟨1, []⟩
      | .ok best =>
          -- the return code is not looked at
          match oryxProfileApplyEnv best 2048 with
          | .ok env => ⟨0, env⟩
          | .error _ => ⟨0, junk⟩

/-- Where the script stands, and the `oryxprofile` it has found. -/
structure LaunchSite where
  here : List Byte
  oryxprofile : List Byte

/-- The assignments of the script, `ENV` aside. -/
def scriptAssignments (site : LaunchSite) (o : LaunchOptions) : List (List Byte × List Byte) :=
  [(ascii "PROFILES", o.profiles), (ascii "GAME", o.game), (ascii "DEVICE", o.device),
    (ascii "HW_TSO", o.hwTso), (ascii "DRYRUN", if o.dryRun then ascii "1" else ascii "0"),
    (ascii "here", site.here), (ascii "ORYXPROFILE", site.oryxprofile)]

/-- `oryx-run.sh`, with `oryxprofile` found. -/
def oryxRunSh (site : LaunchSite) (junk : List Byte) (vars : ShellVars)
    (args : List (List Byte)) : Launched :=
  match parseOptions launchDefaults args with
  | none => .failed
  | some (o, command) =>
      if o.profiles = [] ∨ o.game = [] then .failed
      else
        let r := oryxprofileEnv atof files junk o
        let output := if r.code ≠ 0 then [] else r.stdout
        let env := stripNewlines output
        let vars := (scriptAssignments site o ++ [(ascii "ENV", env)]).foldl assignVar vars
        if env = [] then handOff o command vars
        else
          match evalExports output with
          | none => .other
          | some exported => handOff o command (exported.foldl exportVar vars)

/-- The profile that the command resolves. -/
def Resolved (o : LaunchOptions) (p : Profile R) : Prop :=
  ∃ items, oryxProfileSetLoadDir atof files o.profiles = some items ∧
    oryxProfileResolve items o.game o.caps = .ok p

end Script

/-! ### What is exported -/

section Exported

variable {R : Type*}

/-- The value last exported under a name. -/
def lastExported (vs : List (List Byte × List Byte)) (name : List Byte) : Option (List Byte) :=
  (vs.reverse.find? fun v => v.1 = name).map Prod.snd

theorem foldl_exportVar (vs : List (List Byte × List Byte)) (vars : ShellVars) (name : List Byte) :
    vs.foldl exportVar vars name = (lastExported vs name).or (vars name) := by
  induction vs using List.reverseRecOn with
  | nil => rfl
  | append_singleton vs v ih =>
    rw [List.foldl_append, List.foldl_cons, List.foldl_nil, exportVar, lastExported,
      List.reverse_append, List.reverse_singleton, List.singleton_append, List.find?_cons]
    by_cases hv : v.1 = name
    · rw [decide_eq_true hv, ← hv, Function.update_self]
      rfl
    · rw [decide_eq_false hv, Function.update_of_ne (Ne.symm hv), ih]
      rfl

/-- The free-text lines set none of the variables of the fixed ones. -/
theorem exported_fixed (p : Profile R) (vars : ShellVars) {name : String}
    (hname : ∀ n ∈ fieldNames, ascii n ≠ ascii name) {value : List Byte}
    (hvalue : lastExported ((fixedLines p).map fun l => (l.name, l.value)) (ascii name) =
      some value) : (envPairs p).foldl exportVar vars (ascii name) = some value := by
  have hlines : envPairs p = ((fixedLines p).map fun l => (l.name, l.value)) ++
      (fieldLines p).map fun l => (l.name, l.value) := by
    rw [← List.map_append]
    rfl
  have hnone : lastExported ((fieldLines p).map fun l => (l.name, l.value)) (ascii name) = none := by
    rw [lastExported, Option.map_eq_none_iff, List.find?_eq_none]
    intro v hv
    obtain ⟨l, hl, rfl⟩ := List.mem_map.mp (List.mem_reverse.mp hv)
    obtain ⟨⟨n, hn, hln⟩, -⟩ := mem_fieldLines hl
    rw [decide_eq_true_iff, hln]
    exact hname n hn
  rw [hlines, List.foldl_append, foldl_exportVar, hnone, Option.none_or, foldl_exportVar, hvalue,
    Option.some_or]

/-- Who orders the guest's memory accesses in an environment. -/
structure OrderedVars (hwTso : Int) (vars : ShellVars) : Prop where
  one : vars (ascii "ORYX_MM_TSO") = some (ascii "1") ∨
    vars (ascii "ORYX_MM_TSO") = some (ascii "0")
  /-- The hardware, if the user has vouched for it, -/
  hardware : vars (ascii "ORYX_MM_TSO") = some (ascii "1") → hwTso ≠ 0
  /-- or the emulator that runs. -/
  software : vars (ascii "ORYX_MM_TSO") = some (ascii "0") →
    (vars (ascii "ORYX_BACKEND") = some (ascii "box64") ∧
      vars (ascii "BOX64_DYNAREC_STRONGMEM") = some (ascii "1")) ∨
    (vars (ascii "ORYX_BACKEND") = some (ascii "fex") ∧
      vars (ascii "FEX_TSOENABLED") = some (ascii "1"))

theorem ordered_envPairs {p : Profile R} {hwTso : Int} (h : p.memmodel = .hwTso → hwTso ≠ 0)
    (vars : ShellVars) : OrderedVars hwTso ((envPairs p).foldl exportVar vars) := by
  have hfixed : ∀ name ∈ ["ORYX_MM_TSO", "ORYX_BACKEND", "BOX64_DYNAREC_STRONGMEM",
      "FEX_TSOENABLED"], ∀ value,
      lastExported ((fixedLines p).map fun l => (l.name, l.value)) (ascii name) = some value →
        (envPairs p).foldl exportVar vars (ascii name) = some value := by
    have hnames : ∀ name ∈ ["ORYX_MM_TSO", "ORYX_BACKEND", "BOX64_DYNAREC_STRONGMEM",
        "FEX_TSOENABLED"], ∀ n ∈ fieldNames, ascii n ≠ ascii name := by
      decide
    exact fun name hmem value hvalue => exported_fixed p vars (hnames name hmem) hvalue
  have hmm := hfixed "ORYX_MM_TSO" (by decide)
  have hbackend := hfixed "ORYX_BACKEND" (by decide)
  have hbox := hfixed "BOX64_DYNAREC_STRONGMEM" (by decide)
  have hfex := hfixed "FEX_TSOENABLED" (by decide)
  unfold fixedLines backendLine orderingLines at hmm hbackend hbox hfex
  have hne : some (ascii "1") ≠ some (ascii "0") := by decide
  cases hm : p.memmodel with
  | hwTso =>
    rw [hm] at hmm
    have hone : (envPairs p).foldl exportVar vars (ascii "ORYX_MM_TSO") = some (ascii "1") := by
      cases hb : p.backend with
      | fex => exact hmm _ (by rw [hb]; decide)
      | box64 => exact hmm _ (by rw [hb]; decide)
    exact ⟨Or.inl hone, fun _ => h hm, fun hzero => absurd (hone.symm.trans hzero) hne⟩
  | swFences =>
    rw [hm] at hmm hbackend hbox hfex
    have hzero : (envPairs p).foldl exportVar vars (ascii "ORYX_MM_TSO") = some (ascii "0") := by
      cases hb : p.backend with
      | fex => exact hmm _ (by rw [hb]; decide)
      | box64 => exact hmm _ (by rw [hb]; decide)
    refine ⟨Or.inr hzero, fun hone => absurd (hone.symm.trans hzero) hne, fun _ => ?_⟩
    cases hb : p.backend with
    | fex => exact Or.inr ⟨hbackend _ (by rw [hb]; decide), hfex _ (by rw [hb]; decide)⟩
    | box64 => exact Or.inl ⟨hbackend _ (by rw [hb]; decide), hbox _ (by rw [hb]; decide)⟩

/-- A shell that evaluates the environment of a profile with safe fields exports its values. -/
theorem evalExports_envLines {p : Profile R} (hline : OneLine p) (hsafe : ShellSafe p) :
    evalExports (renderLines (envLines p)) = some (envPairs p) := by
  have hlines : envLines p = fixedLines p ++ fieldLines p := rfl
  have hnames : ∀ n ∈ fieldNames, isName (bare (ascii n)) = true := by decide
  have hne : envLines p ≠ [] := List.cons_ne_nil _ _
  rw [evalExports_renderLines hne fun l hl => newline_notMem_envLine hline hl, envPairs]
  have hgood : ∀ l ∈ envLines p, isName (bare l.name) = true ∧ 0x0A ∉ l.value := by
    intro l hl
    rw [hlines, List.mem_append] at hl
    rcases hl with hl | hl
    · exact ⟨(safe_fixedLines p l hl).1, (safe_fixedLines p l hl).2.1⟩
    · obtain ⟨⟨name, hmem, hname⟩, s, hs, hvalue⟩ := mem_fieldLines hl
      exact ⟨hname ▸ hnames name hmem, hvalue ▸ hline s hs⟩
  refine (exports_joinLines _ hgood).mpr ?_
  rw [hlines, List.forall_mem_append]
  exact ⟨fun l hl => (safe_fixedLines p l hl).2.2, (safe_fieldLines p).mpr hsafe⟩

end Exported

/-! ### Launching -/

/-- Without `--hw-tso` the device is taken to have no hardware TSO. -/
theorem hwTso_parseOptions {o o' : LaunchOptions} {args command : List (List Byte)}
    (h : parseOptions o args = some (o', command)) (hno : ascii "--hw-tso" ∉ args) :
    o'.hwTso = o.hwTso := by
  fun_induction parseOptions o args with
  | case1 | case2 | case3 | case10 =>
    cases h
    rfl
  | case4 | case11 => cases h
  | case5 _ _ _ ih | case6 _ _ _ _ ih | case7 _ _ _ _ _ ih =>
    exact ih h fun hmem => hno (List.mem_cons_of_mem _ (List.mem_cons_of_mem _ hmem))
  | case8 => exact absurd List.mem_cons_self hno
  | case9 _ _ _ _ _ _ _ ih => exact ih h fun hmem => hno (List.mem_cons_of_mem _ hmem)

section Launch

variable {R : Type*} [Add R] [Sub R] [Mul R] [Div R] [OfScientific R] [NatCast R] [LT R]
  [DecidableLT R] [BEq R] [Neg R] {atof : List Byte → R} {files : ProfileFiles}

/-- The command prints the whole environment of the profile it resolves, -/
theorem oryxprofileEnv_of_resolved {junk : List Byte} {o : LaunchOptions} {p : Profile R}
    (h : Resolved atof files o p) :
    oryxprofileEnv atof files junk o = ⟨0, renderLines (envLines p)⟩ := by
  obtain ⟨items, hload, hresolve⟩ := h
  unfold oryxprofileEnv
  rw [hload]
  dsimp only
  rw [hresolve]
  dsimp only
  rw [oryxProfileApplyEnv_fits]

/-- and fails if there is none. -/
theorem oryxprofileEnv_of_not_resolved {junk : List Byte} {o : LaunchOptions}
    (h : ∀ p : Profile R, ¬ Resolved atof files o p) :
    oryxprofileEnv atof files junk o = ⟨1, []⟩ := by
  unfold oryxprofileEnv
  cases hload : oryxProfileSetLoadDir atof files o.profiles with
  | none => rfl
  | some items =>
    cases hresolve : oryxProfileResolve items o.game o.caps with
    | error e =>
      dsimp only
      rw [hresolve]
    | ok p => exact absurd ⟨items, hload, hresolve⟩ (h p)

/-- The script's assignments show in its own variables only. -/
theorem assigned_of_notMem {vs : List (List Byte × List Byte)} {name : List Byte}
    (h : ∀ v ∈ vs, v.1 ≠ name) (vars : ShellVars) : vs.foldl assignVar vars name = vars name := by
  induction vs generalizing vars with
  | nil => rfl
  | cons v vs ih =>
    rw [List.forall_mem_cons] at h
    rw [List.foldl_cons, ih h.2, assignVar]
    split
    · exact Function.update_of_ne h.1.symm _ _
    · rfl

/-- The environments agree but for the variables of the script. -/
def SameOutside (vars vars' : ShellVars) : Prop := ∀ name ∉ scriptNames, vars' name = vars name

theorem sameOutside_script (site : LaunchSite) (o : LaunchOptions) (env : List Byte)
    (vars : ShellVars) :
    SameOutside vars ((scriptAssignments site o ++ [(ascii "ENV", env)]).foldl assignVar vars) := by
  intro name hname
  apply assigned_of_notMem
  rintro v hv rfl
  apply hname
  have hnames : (scriptAssignments site o ++ [(ascii "ENV", env)]).map Prod.fst = scriptNames := rfl
  rw [← hnames]
  exact List.mem_map_of_mem hv

theorem SameOutside.exports {vars vars' : ShellVars} (h : SameOutside vars vars')
    (vs : List (List Byte × List Byte)) :
    SameOutside (vs.foldl exportVar vars) (vs.foldl exportVar vars') := by
  intro name hname
  rw [foldl_exportVar, foldl_exportVar, h name hname]

/-- **How a game starts.**  If a profile is resolved whose fields a shell reads as they are, it
is one of the directory for this game and device, and the launch command runs with exactly its
environment on top of the inherited one, but for the script's own variables: in it either the
hardware orders memory accesses, which needs a `--hw-tso` that is not zero, or the emulator that
is to run does.  If none is resolved the command runs as it would without the script. -/
theorem oryxRunSh_exec (site : LaunchSite) (junk : List Byte) (vars : ShellVars)
    {args command : List (List Byte)} {o : LaunchOptions}
    (hargs : parseOptions launchDefaults args = some (o, command))
    (hgiven : o.profiles ≠ [] ∧ o.game ≠ []) (hcommand : command ≠ [])
    (hsafe : ∀ p, Resolved atof files o p → ShellSafe p) :
    ∃ vars', oryxRunSh atof files site junk vars args = .exec command vars' o.dryRun ∧
      ((∃ p, Resolved atof files o p ∧ FromDir atof files o.profiles p ∧
        p.gameBuildHash.bytes = cString o.game ∧ p.deviceClass = setStr o.device ∧
        SameOutside ((envPairs p).foldl exportVar vars) vars' ∧ OrderedVars (atoi o.hwTso) vars' ∧
        (ascii "--hw-tso" ∉ args → vars' (ascii "ORYX_MM_TSO") = some (ascii "0"))) ∨
      ((∀ p, ¬ Resolved atof files o p) ∧ SameOutside vars vars')) := by
  have hneither : ¬ (o.profiles = [] ∨ o.game = []) := not_or.mpr hgiven
  by_cases hex : ∃ p, Resolved atof files o p
  · obtain ⟨p, hres⟩ := hex
    have hcommandResult : oryxprofileEnv atof files junk o = ⟨0, renderLines (envLines p)⟩ :=
      oryxprofileEnv_of_resolved hres
    obtain ⟨items, hload, hresolve⟩ := id hres
    obtain ⟨hmem, hgame, hcompat⟩ := oryxProfileResolve_ok hresolve
    have hfrom := fromDir_of_mem hload hmem
    have hdevice : p.deviceClass = setStr o.device := by
      unfold oryxProfileCompatible at hcompat
      extract_lets needsTso at hcompat
      split at hcompat
      · cases hcompat
      · next h => exact not_not.mp h
    have hline : OneLine p := by
      obtain ⟨-, -, content, -, -, -, -, hparse⟩ := hfrom
      exact oneLine_of_parse atof hparse
    have heval := evalExports_envLines hline (hsafe p hres)
    -- an environment is never empty
    have henv : stripNewlines (renderLines (envLines p)) ≠ [] := by
      intro hnil
      rw [evalExports, ← stripNewlines, hnil] at heval
      cases heval
    have hordered := fun vars => @ordered_envPairs R p _ (hwTso_of_compatible hcompat) vars
    have hsame := sameOutside_script site o (stripNewlines (renderLines (envLines p))) vars
    refine ⟨_, ?_, Or.inl ⟨p, hres, hfrom, hgame, hdevice, hsame.exports _, hordered _, fun hno => ?_⟩⟩
    · unfold oryxRunSh
      rw [hargs]
      dsimp only
      rw [if_neg hneither, hcommandResult, if_neg (not_not.mpr rfl), if_neg henv, heval]
      exact if_neg hcommand
    · refine (hordered _).one.resolve_left fun hone => (hordered _).hardware hone ?_
      show atoi o.hwTso = 0
      rw [hwTso_parseOptions hargs hno]
      decide
  · have hno : ∀ p, ¬ Resolved atof files o p := fun p hp => hex ⟨p, hp⟩
    refine ⟨_, ?_, Or.inr ⟨hno, sameOutside_script site o [] vars⟩⟩
    unfold oryxRunSh
    rw [hargs]
    dsimp only
    rw [if_neg hneither, oryxprofileEnv_of_not_resolved hno, if_pos (by decide)]
    exact if_neg hcommand

end Launch

/-! ### A directory of one profile -/

/-- The directory `d` with the file `g.profile` and one that is no profile. -/
def oneFile : ProfileFiles where
  readdir dir := if dir = ascii "d" then some [ascii "README", ascii "g.profile"] else none
  fopen path := if path = ascii "d/g.profile" then some optionsText else none

/-- `oryx-run --profiles d --game g -- wine`. -/
def wineArgs : List (List Byte) :=
  [ascii "--profiles", ascii "d", ascii "--game", ascii "g", ascii "--", ascii "wine"]

def wineOptions : LaunchOptions := ⟨ascii "d", ascii "g", ascii "SM8850", ascii "0", false⟩

/-- The profile is applied, and the emulator orders memory accesses. -/
theorem oryxRunSh_exec_wine : ∃ vars,
    oryxRunSh (fun _ => (0 : ℚ)) oneFile ⟨[], []⟩ [] (fun _ => none) wineArgs =
      .exec [ascii "wine"] vars false ∧ OrderedVars 0 vars ∧
      vars (ascii "ORYX_MM_TSO") = some (ascii "0") := by
  obtain ⟨q, hq, hqsafe⟩ : ∃ q : Profile ℚ,
      oryxProfileParse (fun _ => 0) optionsText = .ok q ∧ ShellSafe q := by
    refine ⟨_, rfl, ?_⟩
    unfold ShellSafe
    decide +kernel
  have hsafe : ∀ p : Profile ℚ, Resolved (fun _ => 0) oneFile wineOptions p → ShellSafe p := by
    rintro p ⟨items, hload, hresolve⟩
    obtain ⟨names, name, content, hnames, hname, hend, hopen, hparse⟩ :=
      fromDir_of_mem hload (oryxProfileResolve_ok hresolve).1
    cases hnames
    -- only the second name ends in `.profile`
    have hg : name = ascii "g.profile" := by
      rcases List.mem_cons.mp hname with rfl | hname
      · exact absurd hend (by decide)
      · exact List.mem_singleton.mp hname
    subst hg
    cases hopen
    cases hq.symm.trans hparse
    exact hqsafe
  have hargs : parseOptions launchDefaults wineArgs = some (wineOptions, [ascii "wine"]) :=
    rfl
  obtain ⟨vars, hexec, ⟨p, -, -, -, -, -, hordered, hzero⟩ | ⟨hno, -⟩⟩ :=
    oryxRunSh_exec ⟨[], []⟩ [] (fun _ => none) hargs ⟨by decide, by decide⟩ (by decide) hsafe
  · exact ⟨vars, hexec, hordered, hzero (by decide)⟩
  · have hok : ((oryxProfileSetLoadDir (fun _ => (0 : ℚ)) oneFile wineOptions.profiles).map
        fun items => (oryxProfileResolve items wineOptions.game wineOptions.caps).isOk) =
          some true := by
      decide +kernel
    obtain ⟨items, hload, hresolves⟩ := Option.map_eq_some_iff.mp hok
    cases hresolve : oryxProfileResolve items wineOptions.game wineOptions.caps with
    | error e =>
      rw [hresolve] at hresolves
      cases hresolves
    | ok p => exact absurd ⟨items, hload, hresolve⟩ (hno p)

end Oryx
