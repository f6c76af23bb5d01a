/-
Oryx/OrderingKnobs.lean

The knobs for memory ordering in the environment of a profile, line by line.

A profile chosen by `oryx_profile_resolve` is compatible with the device, so
it asks for hardware ordering only where there is some.  Its environment has
one line for each variable, and a free-text field, which is on one line, stays
behind the name it is rendered under (`linesSetting_splitOn`).
-/
import Oryx.Profile

namespace Oryx

/-! ### The knobs -/

/-- The lines that begin with `export NAME=`. -/
def linesSetting (name : String) (lines : List (List Byte)) : List (List Byte) :=
  lines.filter fun line => (ascii "export " ++ ascii name ++ ascii "=").isPrefixOf line

/-- `export NAME=VALUE`. -/
def exportLine (name value : String) : List Byte :=
  ascii "export " ++ ascii name ++ ascii "=" ++ ascii value

/-- The lines that ask the emulator for ordering in software. -/
def softwareLines (lines : List (List Byte)) : List (List Byte) :=
  lines.filter fun line => line = exportLine "BOX64_DYNAREC_STRONGMEM" "1" ∨
    line = exportLine "FEX_TSOENABLED" "1"

/-- The lines of an environment match a device. -/
structure KnobsMatch (hwTso : Int) (lines : List (List Byte)) : Prop where
  one : linesSetting "ORYX_MM_TSO" lines = [exportLine "ORYX_MM_TSO" "1"] ∨
    linesSetting "ORYX_MM_TSO" lines = [exportLine "ORYX_MM_TSO" "0"]
  hardware : exportLine "ORYX_MM_TSO" "1" ∈ lines → hwTso ≠ 0
  fexOff : exportLine "FEX_TSOENABLED" "0" ∈ lines → exportLine "ORYX_MM_TSO" "1" ∈ lines
  software : exportLine "ORYX_MM_TSO" "0" ∈ lines →
    (linesSetting "ORYX_BACKEND" lines = [exportLine "ORYX_BACKEND" "box64"] ∧
      softwareLines lines = [exportLine "BOX64_DYNAREC_STRONGMEM" "1"]) ∨
    (linesSetting "ORYX_BACKEND" lines = [exportLine "ORYX_BACKEND" "fex"] ∧
      softwareLines lines = [exportLine "FEX_TSOENABLED" "1"])

/-! ### What is resolved -/

section Resolve

variable {R : Type*}

theorem hwTso_of_compatible {p : Profile R} {caps : Caps}
    (h : oryxProfileCompatible p caps = true) (hm : p.memmodel = .hwTso) : caps.hwTso ≠ 0 := by
  intro hzero
  unfold oryxProfileCompatible at h
  extract_lets needsTso at h
  split at h
  · cases h
  · rw [if_pos ⟨Or.inr hm, hzero⟩] at h
    cases h

variable [Add R] [Sub R] [Mul R] [Div R] [OfScientific R] [NatCast R] [LT R] [DecidableLT R]
  [BEq R]

/-- What the loop has found is in the set, and good for the device. -/
theorem resolveStep_best {P : Profile R → Prop} {game : List Byte} {caps : Caps}
    {best : Option (Profile R) × R} {p : Profile R} (hbest : ∀ b ∈ best.1, P b)
    (hp : p.gameBuildHash.bytes = cString game → oryxProfileCompatible p caps = true → P p) :
    ∀ b ∈ (resolveStep game caps best p).1, P b := by
  unfold resolveStep
  split
  · exact hbest
  · next hgame =>
    split
    · exact hbest
    · next hcompat =>
      dsimp only
      split
      · rintro b ⟨⟩
        exact hp (not_not.mp hgame) (Bool.eq_true_of_not_eq_false hcompat)
      · exact hbest

variable [Neg R]

/-- **A profile resolved** is one of the set, for this game and compatible with the device. -/
theorem oryxProfileResolve_ok {items : List (Profile R)} {game : List Byte} {caps : Caps}
    {p : Profile R} (h : oryxProfileResolve items game caps = .ok p) :
    p ∈ items ∧ p.gameBuildHash.bytes = cString game ∧ oryxProfileCompatible p caps = true := by
  have hrun : ∀ (rest : List (Profile R)) (best : Option (Profile R) × R), rest ⊆ items →
      (∀ b ∈ best.1, b ∈ items ∧ b.gameBuildHash.bytes = cString game ∧
        oryxProfileCompatible b caps = true) →
      ∀ b ∈ (rest.foldl (resolveStep game caps) best).1, b ∈ items ∧
        b.gameBuildHash.bytes = cString game ∧ oryxProfileCompatible b caps = true := by
    intro rest
    induction rest with
    | nil => exact fun _ _ hbest => hbest
    | cons q rest ih =>
      intro best hsub hbest
      refine ih _ (fun x hx => hsub (List.mem_cons_of_mem _ hx)) (resolveStep_best hbest ?_)
      exact fun hgame hcompat => ⟨hsub List.mem_cons_self, hgame, hcompat⟩
  have hfound := hrun items (none, -1.0) (fun _ hx => hx) fun b hb => nomatch hb
  unfold oryxProfileResolve at h
  split at h
  · cases h
  · next b hb =>
    cases h
    exact hfound p (by rw [hb]; rfl)

end Resolve

/-! ### Lines and the variables they set -/

section Lines

variable {R : Type*}

/-- A name is no part of another name followed by `=`. -/
theorem isPrefixOf_text (l : EnvLine) (hl : 0x3D ∉ l.name) {name : List Byte} (hname : 0x3D ∉ name) :
    (ascii "export " ++ name ++ ascii "=").isPrefixOf l.text = decide (l.name = name) := by
  rw [Bool.eq_iff_iff, decide_eq_true_iff, List.isPrefixOf_iff_prefix, EnvLine.text, List.append_assoc,
    List.append_assoc, List.append_assoc, List.prefix_append_right_inj]
  have hsplit : ∀ {n r : List Byte}, 0x3D ∉ n → (n ++ 0x3D :: r).takeWhile (· ≠ 0x3D) = n := by
    intro n r hn
    rw [List.takeWhile_append_of_pos fun b hb => decide_eq_true (ne_of_mem_of_not_mem hb hn),
      List.takeWhile_cons_of_neg (by decide), List.append_nil]
  constructor
  · rintro ⟨rest, hrest⟩
    -- both sides are a name, an `=` and a rest
    rw [List.append_assoc] at hrest
    rw [← hsplit (r := l.rendered) hl, ← hsplit (r := rest) hname]
    exact congrArg _ hrest.symm
  · rintro rfl
    exact (List.prefix_append_right_inj _).mpr ⟨l.rendered, rfl⟩

/-- Lines of one line each come back when the rendering is split at newlines. -/
theorem splitOn_renderLines {ls : List EnvLine} (h : ∀ l ∈ ls, 0x0A ∉ l.text) :
    (renderLines ls).splitOn 0x0A = ls.map EnvLine.text ++ [[]] := by
  have hlines : renderLines ls = (ls.map EnvLine.text).flatMap (· ++ [0x0A]) := by
    rw [List.flatMap_map]
    rfl
  rw [hlines, splitOn_terminated]
  intro l hl
  obtain ⟨l', hl', rfl⟩ := List.mem_map.mp hl
  exact h l' hl'

/-- The names that free-text fields are rendered under. -/
def fieldNames : List String :=
  ["ORYX_TURNIP_BUILD", "DXVK_CONFIG", "VKD3D_CONFIG", "ORYX_RES", "ORYX_FSR", "ORYX_GPU_SPOOF"]

theorem mem_fieldLine {name : String} {quoted : Bool} {field : Str} {l : EnvLine}
    (h : l ∈ fieldLine name quoted field) : l = ⟨ascii name, quoted, field.bytes⟩ := by
  unfold fieldLine at h
  split at h
  · cases h
  · exact List.mem_singleton.mp h

/-- A free-text line shows a string of the profile under one of the names for them. -/
theorem mem_fieldLines {p : Profile R} {l : EnvLine} (h : l ∈ fieldLines p) :
    (∃ name ∈ fieldNames, l.name = ascii name) ∧ ∃ s ∈ p.strs, l.value = s.bytes := by
  simp only [fieldLines, List.mem_append] at h
  rcases h with ((((h | h) | h) | h) | h) | h
  all_goals rw [mem_fieldLine h]
  · exact ⟨⟨_, .head _, rfl⟩, p.turnipBuild, by simp [Profile.strs], rfl⟩
  · exact ⟨⟨_, .tail _ (.head _), rfl⟩, p.dxvkOpts, by simp [Profile.strs], rfl⟩
  · exact ⟨⟨_, .tail _ (.tail _ (.head _)), rfl⟩, p.vkd3dOpts, by simp [Profile.strs], rfl⟩
  · exact ⟨⟨"ORYX_RES", by decide, rfl⟩, p.resolution, by simp [Profile.strs], rfl⟩
  · exact ⟨⟨"ORYX_FSR", by decide, rfl⟩, p.fsrMode, by simp [Profile.strs], rfl⟩
  · exact ⟨⟨"ORYX_GPU_SPOOF", by decide, rfl⟩, p.deviceSpoof, by simp [Profile.strs], rfl⟩

/-- The lines that are the same for all free texts. -/
def fixedLines (p : Profile R) : List EnvLine := backendLine p :: orderingLines p

theorem newline_notMem_fieldLine {p : Profile R} (hp : OneLine p) {l : EnvLine}
    (h : l ∈ fieldLines p) : 0x0A ∉ l.text := by
  obtain ⟨⟨name, hmem, hname⟩, s, hs, hvalue⟩ := mem_fieldLines h
  have hnames : ∀ n ∈ fieldNames, 0x0A ∉ ascii n := by decide
  have hrendered : 0x0A ∉ l.rendered := by
    unfold EnvLine.rendered
    rw [hvalue]
    split
    · rw [List.mem_append, List.mem_append]
      rintro ((hq | hv) | hq)
      · exact absurd hq (by decide)
      · exact hp s hs hv
      · exact absurd hq (by decide)
    · exact hp s hs
  unfold EnvLine.text
  rw [List.mem_append, List.mem_append, List.mem_append, hname]
  rintro (((hc | hc) | hc) | hc)
  · exact absurd hc (by decide)
  · exact hnames name hmem hc
  · exact absurd hc (by decide)
  · exact hrendered hc

theorem newline_notMem_fixedLine {p : Profile R} {l : EnvLine} (h : l ∈ fixedLines p) :
    0x0A ∉ l.text := by
  revert l
  unfold fixedLines backendLine orderingLines
  cases p.memmodel with
  | hwTso =>
    cases p.backend with
    | fex => decide
    | box64 => decide
  | swFences =>
    cases p.backend with
    | fex => decide
    | box64 => decide

/-- Every setting stays on its line. -/
theorem newline_notMem_envLine {p : Profile R} (hp : OneLine p) {l : EnvLine}
    (h : l ∈ envLines p) : 0x0A ∉ l.text := by
  have hlines : envLines p = fixedLines p ++ fieldLines p := rfl
  rw [hlines, List.mem_append] at h
  rcases h with hfixed | hfield
  · exact newline_notMem_fixedLine hfixed
  · exact newline_notMem_fieldLine hp hfield

/-- The environment, split at its newlines. -/
theorem splitOn_applyEnv {p : Profile R} (hp : OneLine p) {bufsz : Nat} {out : List Byte}
    (h : oryxProfileApplyEnv p bufsz = .ok out) :
    out.splitOn 0x0A = (fixedLines p).map EnvLine.text ++
      ((fieldLines p).map EnvLine.text ++ [[]]) := by
  have hlines : envLines p = fixedLines p ++ fieldLines p := rfl
  rw [oryxProfileApplyEnv_ok h, splitOn_renderLines fun l hl => newline_notMem_envLine hp hl,
    hlines, List.map_append, List.append_assoc]

/-- What no free-text line shows is found among the fixed lines. -/
theorem filter_applyEnv {p : Profile R} (hp : OneLine p) {bufsz : Nat} {out : List Byte}
    (h : oryxProfileApplyEnv p bufsz = .ok out) {f : List Byte → Bool} (hnil : f [] = false)
    (hfields : ∀ l ∈ fieldLines p, f l.text = false) :
    (out.splitOn 0x0A).filter f = ((fixedLines p).map EnvLine.text).filter f := by
  have hrest : ((fieldLines p).map EnvLine.text ++ [[]]).filter f = [] := by
    rw [List.filter_eq_nil_iff]
    intro line hline
    rcases List.mem_append.mp hline with hl | hl
    · obtain ⟨l, hmem, rfl⟩ := List.mem_map.mp hl
      rw [hfields l hmem]
      exact Bool.false_ne_true
    · rw [List.mem_singleton.mp hl, hnil]
      exact Bool.false_ne_true
  rw [splitOn_applyEnv hp h, List.filter_append, hrest, List.append_nil]

/-- A free-text line sets none of the variables for ordering. -/
theorem isPrefixOf_fieldLine {p : Profile R} {l : EnvLine} (h : l ∈ fieldLines p) {name : String}
    (hname : 0x3D ∉ ascii name) (hne : ∀ n ∈ fieldNames, ascii n ≠ ascii name) :
    (ascii "export " ++ ascii name ++ ascii "=").isPrefixOf l.text = false := by
  obtain ⟨⟨n, hmem, hn⟩, -⟩ := mem_fieldLines h
  have hnames : ∀ n ∈ fieldNames, 0x3D ∉ ascii n := by decide
  rw [isPrefixOf_text l (hn ▸ hnames n hmem) hname, hn]
  exact decide_eq_false (hne n hmem)

/-- The fixed lines of a profile that suits the device match the device. -/
theorem knobsMatch_fixedLines {p : Profile R} {hwTso : Int} (h : p.memmodel = .hwTso → hwTso ≠ 0) :
    KnobsMatch hwTso ((fixedLines p).map EnvLine.text) := by
  unfold fixedLines backendLine orderingLines
  cases hm : p.memmodel with
  | hwTso =>
    have hhw := h hm
    cases p.backend with
    | fex => exact ⟨by decide, fun _ => hhw, by decide, by decide⟩
    | box64 => exact ⟨by decide, fun _ => hhw, by decide, by decide⟩
  | swFences =>
    cases p.backend with
    | fex => exact ⟨by decide, fun hc => absurd hc (by decide), by decide, by decide⟩
    | box64 => exact ⟨by decide, fun hc => absurd hc (by decide), by decide, by decide⟩

/-- Lines that agree on the variables for ordering match the same devices. -/
theorem KnobsMatch.of_same {hwTso : Int} {lines lines' : List (List Byte)}
    (h : KnobsMatch hwTso lines)
    (hset : ∀ n ∈ ["ORYX_MM_TSO", "FEX_TSOENABLED", "ORYX_BACKEND"],
      linesSetting n lines' = linesSetting n lines)
    (hsoft : softwareLines lines' = softwareLines lines) : KnobsMatch hwTso lines' := by
  have hmem : ∀ n ∈ ["ORYX_MM_TSO", "FEX_TSOENABLED", "ORYX_BACKEND"], ∀ v,
      exportLine n v ∈ lines' ↔ exportLine n v ∈ lines := by
    intro n hn v
    have hsets : (ascii "export " ++ ascii n ++ ascii "=").isPrefixOf (exportLine n v) = true :=
      List.isPrefixOf_iff_prefix.mpr ⟨ascii v, rfl⟩
    have hiff : ∀ ls : List (List Byte), exportLine n v ∈ linesSetting n ls ↔ exportLine n v ∈ ls :=
      fun ls => List.mem_filter.trans (and_iff_left hsets)
    rw [← hiff lines', ← hiff lines, hset n hn]
  refine ⟨?_, ?_, ?_, ?_⟩
  · rw [hset _ (by decide)]
    exact h.one
  · rw [hmem _ (by decide)]
    exact h.hardware
  · rw [hmem _ (by decide), hmem _ (by decide)]
    exact h.fexOff
  · rw [hmem _ (by decide), hset _ (by decide), hsoft]
    exact h.software

end Lines

section Knobs

variable {R : Type*} [Add R] [Sub R] [Mul R] [Div R] [OfScientific R] [NatCast R] [LT R]
  [DecidableLT R] [BEq R] [Neg R] (atof : List Byte → R)

/-- **The ordering knobs match the device**, whatever the profiles say. -/
theorem knobsMatch_of_resolve {items : List (Profile R)}
    (hparsed : ∀ p ∈ items, ∃ text, oryxProfileParse atof text = .ok p) {game : List Byte}
    {caps : Caps} {p : Profile R} (hresolve : oryxProfileResolve items game caps = .ok p)
    {bufsz : Nat} {out : List Byte} (happly : oryxProfileApplyEnv p bufsz = .ok out) :
    KnobsMatch caps.hwTso (out.splitOn 0x0A) := by
  obtain ⟨hmem, -, hcompat⟩ := oryxProfileResolve_ok hresolve
  obtain ⟨text, htext⟩ := hparsed p hmem
  have hp := oneLine_of_parse atof htext
  have hnames : ∀ n ∈ ["ORYX_MM_TSO", "FEX_TSOENABLED", "ORYX_BACKEND",
      "BOX64_DYNAREC_STRONGMEM"], 0x3D ∉ ascii n ∧ ∀ f ∈ fieldNames, ascii f ≠ ascii n := by
    decide
  have hno : ∀ n ∈ ["ORYX_MM_TSO", "FEX_TSOENABLED", "ORYX_BACKEND", "BOX64_DYNAREC_STRONGMEM"],
      ∀ l ∈ fieldLines p, (ascii "export " ++ ascii n ++ ascii "=").isPrefixOf l.text = false :=
    fun n hn l hl => isPrefixOf_fieldLine hl (hnames n hn).1 (hnames n hn).2
  have hne : ∀ n ∈ ["ORYX_MM_TSO", "FEX_TSOENABLED", "ORYX_BACKEND", "BOX64_DYNAREC_STRONGMEM"],
      ∀ v, ∀ l ∈ fieldLines p, l.text ≠ exportLine n v := by
    intro n hn v l hl heq
    have hsets := hno n hn l hl
    rw [heq, exportLine, List.isPrefixOf_iff_prefix.mpr ⟨ascii v, rfl⟩] at hsets
    cases hsets
  refine (knobsMatch_fixedLines (hwTso_of_compatible hcompat)).of_same (fun n hn => ?_) ?_
  · exact filter_applyEnv hp happly rfl (hno n (List.mem_append_left ["BOX64_DYNAREC_STRONGMEM"] hn))
  · refine filter_applyEnv hp happly (by decide) fun l hl => decide_eq_false ?_
    rintro (hbox | hfex)
    · exact hne _ (by decide) _ l hl hbox
    · exact hne _ (by decide) _ l hl hfex

end Knobs

/-- A profile whose resolution field names a knob. -/
def knobText : List Byte :=
  ascii "game_build_hash = g\ndevice_class = SM8850\nbackend = fex\nresolution = 1 FEX_TSOENABLED=0\n"

/-- A stock phone resolves it and keeps software ordering. -/
theorem knobsMatch_of_knobText : ∃ (p : Profile ℚ) (out : List Byte),
    oryxProfileParse (fun _ => 0) knobText = .ok p ∧
      oryxProfileApplyEnv p 2048 = .ok out ∧ KnobsMatch 0 (out.splitOn 0x0A) := by
  have hparse : ∃ p : Profile ℚ, oryxProfileParse (fun _ => 0) knobText = .ok p ∧
      oryxProfileResolve [p] (ascii "g") ⟨setStr (ascii "SM8850"), 0⟩ = .ok p ∧
      (oryxProfileApplyEnv p 2048).toBool = true := by
    refine ⟨_, rfl, ?_, ?_⟩
    · decide +kernel
    · decide +kernel
  obtain ⟨p, hp, hresolve, hok⟩ := hparse
  cases happly : oryxProfileApplyEnv p 2048 with
  | error e =>
    rw [happly] at hok
    cases hok
  | ok out =>
    refine ⟨p, out, hp, happly, knobsMatch_of_resolve (fun _ => 0) ?_ hresolve happly⟩
    intro q hq
    exact ⟨knobText, (List.mem_singleton.mp hq) ▸ hp⟩

end Oryx
