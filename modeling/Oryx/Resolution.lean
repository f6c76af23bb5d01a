/-
Oryx/Resolution.lean

Whether a profile is found for a game and a device, from the texts.

A text gives a game and a device by the last values of their keys (`Gives`).
Two things stand between that and the answer of `oryx_profile_resolve`.  The
fields hold the first 95 bytes of a value, so what is compared is `GivesCut`;
and the search starts from a score of `-1`, which telemetry out of range can
fall below.  `resolve_found_iff` says exactly when neither of them changes the
answer.
-/
import Oryx.ProfileText
import Oryx.Ranking

namespace Oryx

section Resolution

variable (atof : List Byte → ℚ)

/-- The set that `oryx_profile_set_add` makes of the texts that parse, in their order. -/
def loadTexts (texts : List (List Byte)) : List (Profile ℚ) :=
  texts.filterMap fun text => (oryxProfileParse atof text).toOption

/-- A number of the telemetry, zero where the text gives none. -/
def textNumber (text : List Byte) (key : String) : ℚ := (textValue text key).elim 0 atof

/-- The sessions behind them. -/
def textSamples (text : List Byte) : Nat :=
  (textValue text "sample_count").elim 0 fun v => (strtoul v).toNat % 2 ^ 32

/-- What the telemetry of a text comes to: the frame rates, weighted, times the chance not to
crash and the discount for few samples. -/
def textScore (text : List Byte) : ℚ :=
  (0.5 * textNumber atof text "p1_low_fps" + 0.3 * textNumber atof text "median_fps" +
      0.2 * textNumber atof text "sustained_fps") *
    sampledFactor (textNumber atof text "crash_rate") (textSamples text)

/-- The text asks for hardware TSO. -/
def NeedsTso (text : List Byte) : Prop :=
  (∃ v, textValue text "requires_hw_tso" = some v ∧ atoi v ≠ 0) ∨
    textValue text "memmodel" = some (ascii "hw_tso")

/-- The text gives this game, the class of this device and a memory model the device allows. -/
structure Gives (text game : List Byte) (caps : Caps) : Prop where
  game : textValue text "game_build_hash" = some (cString game)
  device : textValue text "device_class" = some caps.deviceClass.bytes
  allowed : NeedsTso text → caps.hwTso ≠ 0

/-- The same of the first 95 bytes of what the text gives. -/
structure GivesCut (text game : List Byte) (caps : Caps) : Prop where
  game : ∃ v, textValue text "game_build_hash" = some v ∧ v.take 95 = cString game
  device : ∃ v, textValue text "device_class" = some v ∧ v.take 95 = caps.deviceClass.bytes
  allowed : NeedsTso text → caps.hwTso ≠ 0

/-- A name in the text does not fit its field. -/
def Overlong (text : List Byte) : Prop :=
  ∃ key ∈ ["game_build_hash", "device_class"], ∃ v, textValue text key = some v ∧ 95 < v.length

variable {atof}
variable {text game : List Byte} {caps : Caps}

theorem mem_loadTexts {texts : List (List Byte)}
    (h : ∀ t ∈ texts, ∃ p, oryxProfileParse atof t = .ok p) {p : Profile ℚ} :
    p ∈ loadTexts atof texts ↔ ∃ t ∈ texts, p = profileOfLines atof t := by
  rw [loadTexts, List.mem_filterMap]
  refine exists_congr fun t => and_congr_right fun ht => ?_
  obtain ⟨q, hq⟩ := h t ht
  rw [hq, ← (oryxProfileParse_ok.mp hq).2.2]
  exact ⟨fun e => (Option.some.inj e).symm, fun e => congrArg some e.symm⟩

/-- **The score of a profile** is what the telemetry of its text comes to. -/
theorem textScore_eq (text : List Byte) :
    textScore atof text = oryxProfileScore (profileOfLines atof text) := by
  have hzero : (0.0 : ℚ) = 0 := by norm_num
  have hnumber (f : String × (Profile ℚ → ℚ)) (hf : f ∈ numberFields)
      (hinit : f.2 oryxProfileInit = 0.0) :
      f.2 (profileOfLines atof text) = textNumber atof text f.1 := by
    rw [(setBy_number hf).profileOfLines, hinit, hzero]
    rfl
  have hmedian := hnumber ("median_fps", Profile.medianFps) (by simp [numberFields]) rfl
  have hlow := hnumber ("p1_low_fps", Profile.p1LowFps) (by simp [numberFields]) rfl
  have hcrash := hnumber ("crash_rate", Profile.crashRate) (by simp [numberFields]) rfl
  have hsustained := hnumber ("sustained_fps", Profile.sustainedFps) (by simp [numberFields]) rfl
  have hsamples : (profileOfLines atof text).sampleCount.toNat = textSamples text := by
    obtain ⟨-, -, -, hset⟩ := (@setBy_fields ℚ atof).2.2
    rw [hset.profileOfLines, textSamples]
    cases textValue text "sample_count" with
    | none => rfl
    | some v => exact BitVec.toNat_setWidth 32 _
  dsimp only at hmedian hlow hcrash hsustained
  rw [oryxProfileScore_eq, fpsBase, hmedian, hlow, hcrash, hsustained, hsamples, textScore]

/-- A string that is not empty is the first 95 bytes of what its key gives. -/
theorem string_eq_iff {field : Profile ℚ → Str} {key : String}
    (hset : SetBy atof field key setStr) (hinit : field oryxProfileInit = setStr [])
    (hne : (field (profileOfLines atof text)).isEmpty = false) (bs : List Byte) :
    (field (profileOfLines atof text)).bytes = bs ↔
      ∃ v, textValue text key = some v ∧ v.take 95 = bs := by
  rw [hset.profileOfLines] at hne ⊢
  cases hv : textValue text key with
  | none =>
    rw [hv, Option.elim_none, hinit] at hne
    cases hne
  | some v =>
    rw [Option.elim_some, setStr_bytes (of_textValue hv).1]
    simp only [Option.some.injEq, exists_eq_left']

theorem needsTso_iff : (profileOfLines atof text).requiresHwTso ≠ 0 ∨
    (profileOfLines atof text).memmodel = .hwTso ↔ NeedsTso text := by
  obtain ⟨htso, -, hmemmodel, -⟩ := (@setBy_fields ℚ atof).2.2
  rw [htso.profileOfLines, hmemmodel.profileOfLines, NeedsTso]
  refine or_congr ?_ ?_
  · cases textValue text "requires_hw_tso" with
    | none => exact iff_of_false (fun h => h rfl) fun ⟨_, h, _⟩ => nomatch h
    | some v => simp only [Option.elim_some, Option.some.injEq, exists_eq_left']
  · cases textValue text "memmodel" with
    | none => exact iff_of_false (fun h => nomatch h) fun h => nomatch h
    | some v =>
      rw [Option.elim_some, Option.some.injEq]
      split
      · next hv => exact iff_of_true rfl hv
      · next hv => exact iff_of_false (fun h => nomatch h) hv

/-- What a device asks of a profile. -/
theorem compatible_iff {p : Profile ℚ} :
    oryxProfileCompatible p caps = true ↔
      p.deviceClass = caps.deviceClass ∧
        (p.requiresHwTso ≠ 0 ∨ p.memmodel = .hwTso → caps.hwTso ≠ 0) := by
  rw [oryxProfileCompatible]
  by_cases hclass : p.deviceClass = caps.deviceClass
  swap
  · rw [if_pos hclass]
    exact iff_of_false Bool.false_ne_true fun h => hclass h.1
  rw [if_neg (not_not.mpr hclass)]
  by_cases hblocked : (p.requiresHwTso ≠ 0 ∨ p.memmodel = .hwTso) ∧ caps.hwTso = 0
  · rw [if_pos hblocked]
    exact iff_of_false Bool.false_ne_true fun h => h.2 hblocked.1 hblocked.2
  · rw [if_neg hblocked]
    exact iff_of_true rfl ⟨hclass, fun hneeds hzero => hblocked ⟨hneeds, hzero⟩⟩

/-- **What is compared**: a loaded profile suits exactly when its text gives the game and the
device in the first 95 bytes. -/
theorem suits_iff_givesCut (h : ∃ p, oryxProfileParse atof text = .ok p) :
    suits game caps (profileOfLines atof text) = true ↔ GivesCut text game caps := by
  obtain ⟨p, hp⟩ := h
  obtain ⟨hgame, hdevice, rfl⟩ := oryxProfileParse_ok.mp hp
  have hdev : (profileOfLines atof text).deviceClass = caps.deviceClass ↔
      ∃ v, textValue text "device_class" = some v ∧ v.take 95 = caps.deviceClass.bytes := by
    rw [← string_eq_iff (setBy_string (f := ("device_class", Profile.deviceClass))
      (by simp [stringFields])) rfl hdevice]
    exact ⟨congrArg Str.bytes, Str.ext_bytes⟩
  rw [suits_iff, compatible_iff, needsTso_iff, hdev,
    string_eq_iff (setBy_string (f := ("game_build_hash", Profile.gameBuildHash))
      (by simp [stringFields])) rfl hgame]
  constructor
  · rintro ⟨hg, hd, ha⟩
    exact ⟨hg, hd, ha⟩
  · rintro ⟨hg, hd, ha⟩
    exact ⟨hg, hd, ha⟩

/-- **When nothing is found**: no text that gives the game and the device in the first 95 bytes
scores above the floor. -/
theorem notfound_iff_givesCut {texts : List (List Byte)}
    (h : ∀ t ∈ texts, ∃ p, oryxProfileParse atof t = .ok p) :
    oryxProfileResolve (loadTexts atof texts) game caps = .error .notfound ↔
      ∀ t ∈ texts, GivesCut t game caps → textScore atof t ≤ -1 := by
  rw [resolve_notfound_iff]
  constructor
  · intro hall t ht hgives
    rw [textScore_eq]
    exact hall _ ((mem_loadTexts h).mpr ⟨t, ht, rfl⟩) ((suits_iff_givesCut (h t ht)).mpr hgives)
  · intro hall p hp hsuits
    obtain ⟨t, ht, rfl⟩ := (mem_loadTexts h).mp hp
    rw [← textScore_eq]
    exact hall t ht ((suits_iff_givesCut (h t ht)).mp hsuits)

/-- What is given in the first 95 bytes only has a name that does not fit. -/
theorem GivesCut.gives_or_overlong (h : GivesCut text game caps) :
    Gives text game caps ∨ Overlong text := by
  obtain ⟨⟨v, hv, hgame⟩, ⟨w, hw, hdevice⟩, hallowed⟩ := h
  by_cases hv95 : 95 < v.length
  · exact .inr ⟨"game_build_hash", by simp, v, hv, hv95⟩
  by_cases hw95 : 95 < w.length
  · exact .inr ⟨"device_class", by simp, w, hw, hw95⟩
  rw [List.take_of_length_le (Nat.not_lt.mp hv95)] at hgame
  rw [List.take_of_length_le (Nat.not_lt.mp hw95)] at hdevice
  exact .inl ⟨hgame ▸ hv, hdevice ▸ hw, hallowed⟩

theorem GivesCut.length_game (h : GivesCut text game caps) : (cString game).length ≤ 95 := by
  obtain ⟨v, -, hgame⟩ := h.game
  rw [← hgame, List.length_take]
  exact Nat.min_le_left _ _

variable (atof) in
/-- A text gives what is asked for, and nothing is found: the game's name does not fit the field,
or the telemetry of every text that could be chosen is at the floor of the search or below. -/
def Missed (texts : List (List Byte)) (game : List Byte) (caps : Caps) : Prop :=
  (∃ t ∈ texts, Gives t game caps) ∧
    (95 < (cString game).length ∨
      ∀ t ∈ texts, GivesCut t game caps → textScore atof t ≤ -1)

variable (atof) in
/-- No text gives what is asked for, and one is found whose name was cut to it. -/
def Mistaken (texts : List (List Byte)) (game : List Byte) (caps : Caps) : Prop :=
  (∀ t ∈ texts, ¬ Gives t game caps) ∧
    ∃ t ∈ texts, Overlong t ∧ GivesCut t game caps ∧ -1 < textScore atof t

/-- **When the texts alone decide whether a profile is found**: nothing is found exactly when no
text gives the game and the device, if and only if none is missed and none is mistaken for
it. -/
theorem resolve_found_iff {texts : List (List Byte)}
    (h : ∀ t ∈ texts, ∃ p, oryxProfileParse atof t = .ok p) :
    (oryxProfileResolve (loadTexts atof texts) game caps = .error .notfound ↔
        ∀ t ∈ texts, ¬ Gives t game caps) ↔
      ¬ Missed atof texts game caps ∧ ¬ Mistaken atof texts game caps := by
  rw [notfound_iff_givesCut h]
  constructor
  · intro hagree
    constructor
    · rintro ⟨⟨t, ht, hgives⟩, hmissed⟩
      refine hagree.mp ?_ t ht hgives
      rcases hmissed with hlong | hlow
      · exact fun t' _ hcut => absurd hcut.length_game (Nat.not_le.mpr hlong)
      · exact hlow
    · rintro ⟨hnone, t, ht, -, hcut, habove⟩
      exact absurd (hagree.mpr hnone t ht hcut) (not_le.mpr habove)
  · rintro ⟨hmissed, hmistaken⟩
    constructor
    · intro hlow t ht hgives
      exact hmissed ⟨⟨t, ht, hgives⟩, .inr hlow⟩
    · intro hnone t ht hcut
      by_contra habove
      have hlong := hcut.gives_or_overlong.resolve_left (hnone t ht)
      exact hmistaken ⟨hnone, t, ht, hlong, hcut, not_le.mp habove⟩

end Resolution

/-! ### A profile that is not found -/

/-- A profile with a crash rate in per cent. -/
def perCentText : List Byte :=
  ascii "game_build_hash = g\ndevice_class = d\nmedian_fps = 60\ncrash_rate = 5\nsample_count = 250"

def deviceD : Caps where
  deviceClass := setStr (ascii "d")
  hwTso := 0

/-- Its lines. -/
def perCentAssignments : List (List Byte × List Byte) :=
  [(ascii "game_build_hash", ascii "g"), (ascii "device_class", ascii "d"),
    (ascii "median_fps", ascii "60"), (ascii "crash_rate", ascii "5"),
    (ascii "sample_count", ascii "250")]

theorem assignments_perCent : assignments perCentText = perCentAssignments := by decide +kernel

theorem profileOfLines_perCent :
    profileOfLines atofDecimal perCentText =
      perCentAssignments.foldl (fun p kv => setKey atofDecimal p kv.1 kv.2) oryxProfileInit := by
  rw [profileOfLines, foldl_parseLine, ← assignments, assignments_perCent]

theorem parse_perCent : ∃ p, oryxProfileParse atofDecimal perCentText = .ok p := by
  refine ⟨_, oryxProfileParse_ok.mpr ⟨?_, ?_, rfl⟩⟩
  · rw [profileOfLines_perCent]
    decide +kernel
  · rw [profileOfLines_perCent]
    decide +kernel

theorem gives_perCent : Gives perCentText (ascii "g") deviceD := by
  have hvalue (key : String) : textValue perCentText key =
      lastValue (ascii key) perCentAssignments := by
    rw [textValue, assignments_perCent]
  refine ⟨by rw [hvalue]; decide, by rw [hvalue]; decide, ?_⟩
  rintro (⟨v, hv, -⟩ | hv)
  · rw [hvalue, show lastValue (ascii "requires_hw_tso") perCentAssignments = none by decide] at hv
    cases hv
  · rw [hvalue, show lastValue (ascii "memmodel") perCentAssignments = none by decide] at hv
    cases hv

/-- The only profile for the game and the device is not found. -/
theorem perCent_notfound :
    Gives perCentText (ascii "g") deviceD ∧
      oryxProfileResolve (loadTexts atofDecimal [perCentText]) (ascii "g") deviceD =
        .error .notfound ∧
      ¬ (oryxProfileResolve (loadTexts atofDecimal [perCentText]) (ascii "g") deviceD =
          .error .notfound ↔
        ∀ t ∈ [perCentText], ¬ Gives t (ascii "g") deviceD) := by
  have hscore : textScore atofDecimal perCentText ≤ -1 := by
    rw [textScore_eq, profileOfLines_perCent]
    decide +kernel
  have hnot : oryxProfileResolve (loadTexts atofDecimal [perCentText]) (ascii "g") deviceD =
      .error .notfound := by
    refine (notfound_iff_givesCut fun t ht => ?_).mpr fun t ht _ => ?_
    · rw [List.mem_singleton.mp ht]
      exact parse_perCent
    · rw [List.mem_singleton.mp ht]
      exact hscore
  exact ⟨gives_perCent, hnot, fun hagree =>
    hagree.mp hnot _ (List.mem_singleton_self _) gives_perCent⟩

theorem resolve_found_iff_perCent :
    (oryxProfileResolve (loadTexts atofDecimal [perCentText]) (ascii "g") deviceD =
        .error .notfound ↔ ∀ t ∈ [perCentText], ¬ Gives t (ascii "g") deviceD) ↔
      ¬ Missed atofDecimal [perCentText] (ascii "g") deviceD ∧
        ¬ Mistaken atofDecimal [perCentText] (ascii "g") deviceD :=
  resolve_found_iff fun _ ht => List.mem_singleton.mp ht ▸ parse_perCent

end Oryx
