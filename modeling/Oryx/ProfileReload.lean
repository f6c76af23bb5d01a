/-
Oryx/ProfileReload.lean

Saving a profile and reading it back.

The text of a profile is one line for each key.  Every line assigns its key
again, and to what was printed but for the spaces at its ends
(`lineAssign_settingLine`).  So a field comes back when trimming does not
change it, and the one way in which a parsed string can end in a space is that
`set_str` cut it there: `reload_iff` says that a parsed profile survives a save
and a reload exactly when its text has no such value.

The telemetry is printed with two or four decimals and read back by `atof`;
nothing is said about it.
-/
import Oryx.ProfileText

namespace Oryx

variable {R : Type*}

/-! ### Lines -/

/-- Small letters, digits and the underscore. -/
def isWordByte (b : Byte) : Bool := (0x30 ≤ b && b ≤ 0x39) || (0x5F ≤ b && b ≤ 0x7A)

theorem of_isWordByte {b : Byte} (h : isWordByte b = true) :
    isspace b = false ∧ b ≠ 0x3D ∧ b ≠ 0x23 ∧ b ≠ 0x0A ∧ b ≠ 0 := by
  revert b
  decide

/-- A key that `strchr` and `trim` leave whole. -/
def isKey (k : List Byte) : Bool := !k.isEmpty && k.all isWordByte

theorem of_isKey {k : List Byte} (h : isKey k = true) :
    k ≠ [] ∧ ∀ b ∈ k, isspace b = false ∧ b ≠ 0x3D ∧ b ≠ 0x23 ∧ b ≠ 0x0A ∧ b ≠ 0 := by
  rw [isKey, Bool.and_eq_true, Bool.not_eq_true', List.isEmpty_eq_false_iff, List.all_eq_true] at h
  exact ⟨h.1, fun b hb => of_isWordByte (h.2 b hb)⟩

theorem trim_key {k : List Byte} (hk : isKey k = true) : trim k = k :=
  trim_of_noSpace fun b hb => ((of_isKey hk).2 b hb).1

/-- **A line assigns its key**, to its value without the spaces at the ends. -/
theorem lineAssign_settingLine {kv : String × List Byte} (hk : isKey (ascii kv.1) = true) :
    lineAssign (settingLine kv) = some (ascii kv.1, trim kv.2) := by
  obtain ⟨key, v⟩ := kv
  obtain ⟨hne, hkey⟩ := of_isKey hk
  have hline : settingLine (key, v) = (ascii key ++ [0x20]) ++ 0x3D :: 0x20 :: v := by
    rw [settingLine, List.append_assoc]
    rfl
  -- neither the key nor the `=` is touched from the ends
  have htrim : trim (settingLine (key, v)) =
      (ascii key ++ [0x20]) ++ 0x3D :: (0x20 :: v).rdropWhile isspace := by
    rw [trim, hline]
    cases hkeyEq : ascii key with
    | nil => exact absurd hkeyEq hne
    | cons b k =>
      have hb := (hkey b (hkeyEq ▸ List.mem_cons_self)).1
      rw [List.cons_append, List.cons_append,
        List.dropWhile_cons_of_neg (by rw [hb]; exact Bool.false_ne_true), ← List.cons_append,
        ← List.cons_append, rdropWhile_append_cons (by decide)]
  have hnoEq : ∀ b ∈ ascii key ++ [0x20], decide (b ≠ (0x3D : Byte)) = true := by
    intro b hb
    rcases List.mem_append.mp hb with hb | hb
    · exact decide_eq_true (hkey b hb).2.1
    · rw [List.mem_singleton.mp hb]
      rfl
  have hfirst : ¬ (trim (settingLine (key, v)) = [] ∨
      (trim (settingLine (key, v))).head? = some 0x23) := by
    rw [htrim]
    cases hkeyEq : ascii key with
    | nil => exact absurd hkeyEq hne
    | cons b k =>
      rintro (h | h)
      · cases h
      · exact (hkey b (hkeyEq ▸ List.mem_cons_self)).2.2.1 (Option.some.inj h)
  have hmem : (0x3D : Byte) ∈ trim (settingLine (key, v)) := by
    rw [htrim]
    exact List.mem_append_right _ List.mem_cons_self
  rw [lineAssign, if_neg hfirst, if_pos hmem, htrim, List.takeWhile_append_of_pos hnoEq,
    List.dropWhile_append_of_pos hnoEq, List.takeWhile_cons_of_neg (by decide),
    List.dropWhile_cons_of_neg (by decide), List.append_nil, List.drop_one, List.tail_cons,
    trim_rdropWhile, trim_cons_space (by decide)]
  have hname : trim (ascii key ++ [0x20]) = ascii key := by
    rw [← trim_rdropWhile, List.rdropWhile_concat_pos _ _ _ (by decide), trim_rdropWhile,
      trim_key hk]
  rw [hname]

/-! ### The text of a profile -/

section Text

variable (fmt : FloatPrinter R)

/-- The keys, in the order of the format string. -/
def settingKeys : List String :=
  ["game_build_hash", "device_class", "requires_hw_tso", "backend", "memmodel", "turnip_build",
    "dxvk_opts", "vkd3d_opts", "resolution", "fsr_mode", "device_spoof", "median_fps",
    "p1_low_fps", "crash_rate", "sustained_fps", "sample_count"]

theorem map_fst_profileSettings (p : Profile R) :
    (profileSettings fmt p).map Prod.fst = settingKeys := rfl

theorem isKey_settingKeys : (settingKeys.all fun k => isKey (ascii k)) = true := by decide

theorem settingKeys_nodup : (settingKeys.map ascii).Nodup := by decide

/-- The bytes of a printed number. -/
theorem of_mem_printInt {i : Int} {b : Byte} (h : b ∈ printInt i) :
    isspace b = false ∧ b ≠ 0x0A ∧ b ≠ 0 := by
  rcases isdigit_or_of_mem_printInt h with hdigit | rfl
  · obtain ⟨hspace, -, -, hline, hnul⟩ := of_isdigit hdigit
    exact ⟨hspace, hline, hnul⟩
  · decide

theorem of_mem_printNat {n : Nat} {b : Byte} (h : b ∈ printNat n) :
    isspace b = false ∧ b ≠ 0x0A ∧ b ≠ 0 := by
  obtain ⟨hspace, -, -, hline, hnul⟩ := of_isdigit (isdigit_of_mem_printNat h)
  exact ⟨hspace, hline, hnul⟩

/-- A value that stays on its line and does not end the text. -/
def Printable (v : List Byte) : Prop := 0x0A ∉ v ∧ 0 ∉ v

instance (v : List Byte) : Decidable (Printable v) := inferInstanceAs (Decidable (_ ∧ _))

theorem printable_profileSettings {p : Profile R} (hp : OneLine p) :
    ∀ kv ∈ profileSettings fmt p, Printable kv.2 := by
  have hstr (s : Str) (hs : s ∈ p.strs) : Printable s.bytes := ⟨hp s hs, s.noNul⟩
  have hfloat (decimals : Nat) (x : R) : Printable (fmt.print decimals x) :=
    ⟨fmt.oneLine decimals x, fmt.noNul decimals x⟩
  have hint (i : Int) : Printable (printInt i) :=
    ⟨fun h => (of_mem_printInt h).2.1 rfl, fun h => (of_mem_printInt h).2.2 rfl⟩
  have hnat (n : Nat) : Printable (printNat n) :=
    ⟨fun h => (of_mem_printNat h).2.1 rfl, fun h => (of_mem_printNat h).2.2 rfl⟩
  have hname (c : Prop) [Decidable c] {a b : List Byte} (ha : Printable a) (hb : Printable b) :
      Printable (if c then a else b) := by
    split
    · exact ha
    · exact hb
  have hbackend := hname (p.backend = .fex) (a := ascii "fex") (b := ascii "box64")
    (by decide) (by decide)
  have hmemmodel := hname (p.memmodel = .hwTso) (a := ascii "hw_tso") (b := ascii "sw_fences")
    (by decide) (by decide)
  simp only [Profile.strs, List.forall_mem_cons] at hstr
  obtain ⟨hgame, hdevice, hturnip, hdxvk, hvkd3d, hres, hfsr, hspoof, -⟩ := hstr
  simp only [profileSettings, List.forall_mem_cons]
  exact ⟨hgame, hdevice, hint _, hbackend, hmemmodel, hturnip, hdxvk, hvkd3d, hres, hfsr, hspoof,
    hfloat _ _, hfloat _ _, hfloat _ _, hfloat _ _, hnat _, List.forall_mem_nil _⟩

/-- A saved text falls into its lines again. -/
theorem lineTokens_settings {settings : List (String × List Byte)}
    (hkeys : ∀ kv ∈ settings, isKey (ascii kv.1) = true)
    (hvals : ∀ kv ∈ settings, Printable kv.2) :
    lineTokens (settings.flatMap fun kv => settingLine kv ++ ascii "\n") =
      settings.map settingLine := by
  have hsep : ∀ b ∈ ascii " = ", b ≠ 0x0A ∧ b ≠ 0 := by decide
  have hclean (kv : String × List Byte) (hkv : kv ∈ settings) (b : Byte)
      (hb : b ∈ settingLine kv) : b ≠ 0x0A ∧ b ≠ 0 := by
    rw [settingLine] at hb
    rcases List.mem_append.mp hb with hb | hb
    · exact ((of_isKey (hkeys kv hkv)).2 b hb).2.2.2
    rcases List.mem_append.mp hb with hb | hb
    · exact hsep b hb
    · exact ⟨ne_of_mem_of_not_mem hb (hvals kv hkv).1, ne_of_mem_of_not_mem hb (hvals kv hkv).2⟩
  have htext : (settings.flatMap fun kv => settingLine kv ++ ascii "\n") =
      (settings.map settingLine).flatMap (· ++ [0x0A]) := by
    rw [List.flatMap_map]
    rfl
  have hnul : cString ((settings.map settingLine).flatMap (· ++ [0x0A])) =
      (settings.map settingLine).flatMap (· ++ [0x0A]) := by
    refine List.takeWhile_eq_self_iff.mpr fun b hb => decide_eq_true ?_
    obtain ⟨line, hline, hmem⟩ := List.mem_flatMap.mp hb
    obtain ⟨kv, hkv, rfl⟩ := List.mem_map.mp hline
    rcases List.mem_append.mp hmem with hmem | hmem
    · exact (hclean kv hkv b hmem).2
    · rw [List.mem_singleton.mp hmem]
      decide
  have hnonempty : ∀ line ∈ settings.map settingLine, decide (line ≠ []) = true := by
    intro line hline
    obtain ⟨kv, -, rfl⟩ := List.mem_map.mp hline
    refine decide_eq_true (List.append_ne_nil_of_right_ne_nil _ ?_)
    exact List.append_ne_nil_of_left_ne_nil (by decide) _
  have hlines : ∀ line ∈ settings.map settingLine, 0x0A ∉ line := by
    intro line hline hmem
    obtain ⟨kv, hkv, rfl⟩ := List.mem_map.mp hline
    exact (hclean kv hkv _ hmem).1 rfl
  rw [lineTokens, htext, hnul, splitOn_terminated hlines, List.filter_append,
    List.filter_eq_self.mpr hnonempty]
  exact List.append_nil _

/-- What a save succeeded with. -/
theorem oryxProfileSerialize_ok {p : Profile R} {bufsz : Nat} {out : List Byte}
    (h : oryxProfileSerialize fmt p bufsz = .ok out) :
    out = (profileSettings fmt p).flatMap fun kv => settingLine kv ++ ascii "\n" := by
  obtain ⟨-, hout⟩ := check_eq_ok_iff.mp h
  exact (Except.ok.inj hout).symm

/-- **What a saved text gives** to each key: what was printed, trimmed. -/
theorem textValue_serialize {p : Profile R} (hp : OneLine p) {bufsz : Nat} {out : List Byte}
    (h : oryxProfileSerialize fmt p bufsz = .ok out) {key : String} {v : List Byte}
    (hkv : (key, v) ∈ profileSettings fmt p) : textValue out key = some (trim v) := by
  have hkeys : ∀ kv ∈ profileSettings fmt p, isKey (ascii kv.1) = true := by
    intro kv hmem
    apply List.all_eq_true.mp isKey_settingKeys kv.1
    have hfst := List.mem_map_of_mem (f := Prod.fst) hmem
    rwa [map_fst_profileSettings] at hfst
  have hassign : assignments out =
      (profileSettings fmt p).map fun kv => (ascii kv.1, trim kv.2) := by
    have hlines : ∀ kv ∈ profileSettings fmt p,
        (lineAssign ∘ settingLine) kv = some (ascii kv.1, trim kv.2) :=
      fun kv hmem => lineAssign_settingLine (hkeys kv hmem)
    rw [assignments, oryxProfileSerialize_ok fmt h,
      lineTokens_settings hkeys (printable_profileSettings fmt hp), List.filterMap_map]
    exact List.filterMap_eq_map_iff_forall_eq_some.mpr hlines
  have hkey : (Prod.fst ∘ fun kv : String × List Byte => (ascii kv.1, trim kv.2)) =
      ascii ∘ Prod.fst := rfl
  have hnodup : ((assignments out).map Prod.fst).Nodup := by
    rw [hassign, List.map_map, hkey, ← List.map_map, map_fst_profileSettings]
    exact settingKeys_nodup
  have hmem : (ascii key, trim v) ∈ assignments out := by
    rw [hassign]
    exact List.mem_map.mpr ⟨(key, v), hkv, rfl⟩
  exact lastValue_of_nodup hnodup hmem

end Text

/-! ### Strings cut to their field -/

/-- `set_str` cuts the value, and the last byte it keeps is a space. -/
def CutAtSpace (v : List Byte) : Prop := 95 < v.length ∧ ∃ b ∈ v[94]?, isspace b = true

instance (v : List Byte) : Decidable (CutAtSpace v) := inferInstanceAs (Decidable (_ ∧ _))

/-- What is kept of a trimmed value is trimmed, unless it was cut at a space. -/
theorem trim_take_iff {v : List Byte} (htrim : trim v = v) :
    trim (v.take 95) = v.take 95 ↔ ¬ CutAtSpace v := by
  by_cases hlen : v.length ≤ 95
  · rw [List.take_of_length_le hlen]
    exact iff_of_true htrim fun h => Nat.not_lt.mpr hlen h.1
  have hfirst : ∀ b ∈ (v.take 95).head?, isspace b = false := by
    intro b hb
    rw [List.head?_take, if_neg (by decide)] at hb
    exact (trim_eq_self_iff.mp htrim).1 b hb
  have hlast : (v.take 95).getLast? = v[94]? := by
    rw [List.getLast?_eq_getElem?, List.length_take, Nat.min_eq_left (by omega),
      List.getElem?_take_of_lt (by decide)]
  rw [trim_eq_self_iff, hlast]
  constructor
  · rintro ⟨-, hkept⟩ ⟨-, b, hb, hspace⟩
    rw [hkept b hb] at hspace
    cases hspace
  · intro hcut
    refine ⟨hfirst, fun b hb => Bool.eq_false_of_not_eq_true fun hspace => ?_⟩
    exact hcut ⟨Nat.lt_of_not_le hlen, b, hb, hspace⟩

theorem setStr_trim_iff {s : Str} : setStr (trim s.bytes) = s ↔ trim s.bytes = s.bytes := by
  have hnul : 0 ∉ trim s.bytes := fun h => s.noNul (mem_of_mem_trim h)
  have hlen : (trim s.bytes).length ≤ 95 := by
    have hle := ((List.rdropWhile_prefix isspace _).length_le).trans
      (List.dropWhile_suffix isspace (l := s.bytes)).length_le
    exact hle.trans (Nat.le_of_lt_succ s.fits)
  have hbytes : (setStr (trim s.bytes)).bytes = trim s.bytes := by
    rw [setStr_bytes hnul, List.take_of_length_le hlen]
  constructor
  · intro h
    rw [← hbytes, h]
  · intro h
    exact Str.ext_bytes (hbytes.trans h)

/-- A text that does not begin with a space is not all spaces. -/
theorem trim_ne_nil {s : List Byte} (hne : s ≠ []) (hfirst : ∀ b ∈ s.head?, isspace b = false) :
    trim s ≠ [] := by
  cases s with
  | nil => exact absurd rfl hne
  | cons b s =>
    have hb : ¬ isspace b = true := by
      rw [hfirst b rfl]
      exact Bool.false_ne_true
    have hrest := rdropWhile_append_cons hb [] s
    rw [List.nil_append, List.nil_append] at hrest
    rw [trim, List.dropWhile_cons_of_neg hb, hrest]
    exact List.cons_ne_nil _ _

/-! ### Saving and reloading -/

/-- The keys of the string fields. -/
def stringKeys : List String :=
  ["game_build_hash", "device_class", "turnip_build", "dxvk_opts", "vkd3d_opts", "resolution",
    "fsr_mode", "device_spoof"]

section Reload

variable [OfScientific R] {atof : List Byte → R} {fmt : FloatPrinter R}

/-- Two profiles with the same settings; the telemetry may differ, but for its sample count. -/
structure SameSettings (p q : Profile R) : Prop where
  strs : p.strs = q.strs
  backend : p.backend = q.backend
  memmodel : p.memmodel = q.memmodel
  requiresHwTso : p.requiresHwTso = q.requiresHwTso
  sampleCount : p.sampleCount = q.sampleCount

omit [OfScientific R] in
theorem strs_eq_iff {p q : Profile R} :
    p.strs = q.strs ↔ ∀ f ∈ stringFields, f.2 p = f.2 q := by
  show stringFields.map (fun f => f.2 p) = stringFields.map (fun f => f.2 q) ↔ _
  exact List.map_inj_left

variable {text : List Byte} {p : Profile R} (h : oryxProfileParse atof text = .ok p)

include h

/-- A string of a parsed profile is trimmed exactly when its value was not cut at a space. -/
theorem trim_string_iff {f : String × (Profile R → Str)} (hf : f ∈ stringFields) :
    trim (f.2 p).bytes = (f.2 p).bytes ↔ ∀ v, textValue text f.1 = some v → ¬ CutAtSpace v := by
  have hinit : ∀ f ∈ @stringFields R, trim (f.2 oryxProfileInit).bytes =
      (f.2 (@oryxProfileInit R _)).bytes := by
    simp only [stringFields, List.forall_mem_cons]
    exact ⟨rfl, rfl, rfl, rfl, rfl, rfl, rfl, rfl, List.forall_mem_nil _⟩
  rw [(setBy_string hf).of_parse h]
  cases hv : textValue text f.1 with
  | none =>
    rw [Option.elim_none]
    exact iff_of_true (hinit f hf) (by simp)
  | some v =>
    obtain ⟨hnul, htrim⟩ := of_textValue hv
    rw [Option.elim_some, setStr_bytes hnul, trim_take_iff htrim]
    exact ⟨fun hcut v' hv' => Option.some.inj hv' ▸ hcut, fun hcut => hcut v rfl⟩

/-- A parsed `requires_hw_tso` is an `int`. -/
theorem requiresHwTso_range : -(2 ^ 31) ≤ p.requiresHwTso ∧ p.requiresHwTso < 2 ^ 31 := by
  rw [setBy_fields.2.2.1.of_parse h]
  cases textValue text "requires_hw_tso" with
  | none =>
    show -(2 ^ 31) ≤ (0 : Int) ∧ (0 : Int) < 2 ^ 31
    decide
  | some v => exact ⟨BitVec.le_toInt _, BitVec.toInt_lt⟩

/-- A parsed string does not begin with a space. -/
theorem head_string {f : String × (Profile R → Str)} (hf : f ∈ stringFields)
    (hne : (f.2 p).bytes ≠ []) : trim (f.2 p).bytes ≠ [] := by
  apply trim_ne_nil hne
  have hoff : ∀ b ∈ (setStr (ascii "off")).bytes.head?, isspace b = false := by decide
  have hempty : ∀ b ∈ ([] : List Byte).head?, isspace b = false := by simp
  have hinit : ∀ f ∈ @stringFields R, ∀ b ∈ (f.2 (@oryxProfileInit R _)).bytes.head?,
      isspace b = false := by
    simp only [stringFields, List.forall_mem_cons]
    exact ⟨hempty, hempty, hempty, hempty, hempty, hempty, hoff, hempty, List.forall_mem_nil _⟩
  rw [(setBy_string hf).of_parse h]
  cases hv : textValue text f.1 with
  | none => exact hinit f hf
  | some v =>
    obtain ⟨hnul, htrim⟩ := of_textValue hv
    rw [Option.elim_some, setStr_bytes hnul, List.head?_take, if_neg (by decide)]
    exact (trim_eq_self_iff.mp htrim).1

variable {bufsz : Nat} {out : List Byte} (hsave : oryxProfileSerialize fmt p bufsz = .ok out)

include hsave

/-- The strings of the saved text are those of the profile, trimmed. -/
theorem reload_string {f : String × (Profile R → Str)} (hf : f ∈ stringFields) :
    f.2 (profileOfLines atof out) = setStr (trim (f.2 p).bytes) := by
  have hprinted : (f.1, (f.2 p).bytes) ∈ profileSettings fmt p := by
    simp only [stringFields, List.mem_cons, List.not_mem_nil, or_false] at hf
    rcases hf with rfl | rfl | rfl | rfl | rfl | rfl | rfl | rfl
    all_goals simp [profileSettings]
  rw [(setBy_string hf).profileOfLines,
    textValue_serialize fmt (oneLine_of_parse atof h) hsave hprinted, Option.elim_some]

/-- The other settings come back. -/
theorem reload_settings :
    (profileOfLines atof out).requiresHwTso = p.requiresHwTso ∧
      (profileOfLines atof out).backend = p.backend ∧
      (profileOfLines atof out).memmodel = p.memmodel ∧
      (profileOfLines atof out).sampleCount = p.sampleCount := by
  obtain ⟨htso, hbackend, hmemmodel, hsamples⟩ := (@setBy_fields R atof).2.2
  have hvalue {key : String} {v : List Byte} (hkv : (key, v) ∈ profileSettings fmt p) :
      textValue out key = some (trim v) :=
    textValue_serialize fmt (oneLine_of_parse atof h) hsave hkv
  refine ⟨?_, ?_, ?_, ?_⟩
  · obtain ⟨hlow, hhigh⟩ := requiresHwTso_range h
    rw [htso.profileOfLines, hvalue (v := printInt p.requiresHwTso) (by simp [profileSettings]),
      Option.elim_some, trim_of_noSpace fun b hb => (of_mem_printInt hb).1,
      atoi_printInt hlow hhigh]
  · rw [hbackend.profileOfLines, hvalue (v := if p.backend = .fex then ascii "fex" else
      ascii "box64") (by simp [profileSettings]), Option.elim_some]
    cases p.backend with
    | box64 => decide
    | fex => decide
  · rw [hmemmodel.profileOfLines, hvalue (v := if p.memmodel = .hwTso then ascii "hw_tso" else
      ascii "sw_fences") (by simp [profileSettings]), Option.elim_some]
    cases p.memmodel with
    | swFences => decide
    | hwTso => decide
  · have hlt := p.sampleCount.isLt
    rw [hsamples.profileOfLines, hvalue (v := printNat p.sampleCount.toNat)
      (by simp [profileSettings]), Option.elim_some,
      trim_of_noSpace fun b hb => (of_mem_printNat hb).1, strtoul_printNat (by omega)]
    apply BitVec.eq_of_toNat_eq
    rw [BitVec.toNat_setWidth, BitVec.toNat_ofNat]
    omega

/-- A saved profile is accepted again. -/
theorem reload_accepted :
    oryxProfileParse atof out = .ok (profileOfLines atof out) := by
  obtain ⟨hgame, hdevice, -⟩ := oryxProfileParse_ok.mp h
  have hkept {f : String × (Profile R → Str)} (hf : f ∈ stringFields)
      (hne : (f.2 p).isEmpty = false) : (f.2 (profileOfLines atof out)).isEmpty = false := by
    have hbytes := head_string h hf (List.isEmpty_eq_false_iff.mp hne)
    rw [reload_string h hsave hf, Str.isEmpty, List.isEmpty_eq_false_iff,
      setStr_bytes fun hnul => (f.2 p).noNul (mem_of_mem_trim hnul)]
    exact fun htake => (List.take_eq_nil_iff.mp htake).elim (by decide) hbytes
  exact oryxProfileParse_ok.mpr ⟨hkept (f := ("game_build_hash", Profile.gameBuildHash))
    (by simp [stringFields]) hgame, hkept (f := ("device_class", Profile.deviceClass))
    (by simp [stringFields]) hdevice, rfl⟩

/-- **When a profile survives a save and a reload**: exactly when its text gives no string that
is cut at a space. -/
theorem reload_iff :
    (∃ q, oryxProfileParse atof out = .ok q ∧ SameSettings q p) ↔
      ∀ key ∈ stringKeys, ∀ v, textValue text key = some v → ¬ CutAtSpace v := by
  have hkeys : (∀ key ∈ stringKeys, ∀ v, textValue text key = some v → ¬ CutAtSpace v) ↔
      ∀ f ∈ @stringFields R, f.2 (profileOfLines atof out) = f.2 p := by
    rw [show stringKeys = (@stringFields R).map Prod.fst from rfl, List.forall_mem_map]
    apply forall₂_congr
    intro f hf
    rw [reload_string h hsave hf, setStr_trim_iff, trim_string_iff h hf]
  rw [hkeys]
  constructor
  · rintro ⟨q, hq, hsame⟩
    rw [reload_accepted h hsave] at hq
    cases hq
    exact strs_eq_iff.mp hsame.strs
  · intro hstrings
    obtain ⟨htso, hbackend, hmemmodel, hsamples⟩ := reload_settings h hsave
    exact ⟨_, reload_accepted h hsave,
      { strs := strs_eq_iff.mpr hstrings, backend := hbackend, memmodel := hmemmodel
        requiresHwTso := htso, sampleCount := hsamples }⟩

end Reload

/-! ### A name that does not survive -/

/-- The telemetry of a profile without any. -/
def zeroPrinter : FloatPrinter ℚ where
  print decimals _ := ascii "0." ++ List.replicate decimals 0x30
  oneLine decimals _ h := by
    rcases List.mem_append.mp h with h | h
    · revert h
      decide
    · exact absurd (List.eq_of_mem_replicate h) (by decide)
  noNul decimals _ h := by
    rcases List.mem_append.mp h with h | h
    · revert h
      decide
    · exact absurd (List.eq_of_mem_replicate h) (by decide)

/-- A text with nothing but a game and a device. -/
def namedText (game : List Byte) : List Byte :=
  ascii "game_build_hash = " ++ game ++ ascii "\ndevice_class = d\n"

/-- A name of two words, with the 95th byte between them. -/
def twoWords : List Byte := List.replicate 94 0x61 ++ ascii " b"

/-- The text saved for it. -/
def savedText (game : List Byte) : List Byte :=
  (profileSettings zeroPrinter (profileOfLines (fun _ => (0 : ℚ)) (namedText game))).flatMap
    fun kv => settingLine kv ++ ascii "\n"

/-- The texts are short enough for the buffer of the tests. -/
theorem serialize_namedText {game : List Byte} (h : (savedText game).length < 2048) :
    oryxProfileSerialize zeroPrinter (profileOfLines (fun _ => (0 : ℚ)) (namedText game)) 2048 =
      .ok (savedText game) :=
  if_neg (not_or.mpr ⟨Nat.not_le.mpr (h.trans (by decide)), Nat.not_le.mpr h⟩)

/-- The first word comes back without the space behind it. -/
theorem twoWords_not_reloaded :
    oryxProfileParse (fun _ => (0 : ℚ)) (namedText twoWords) =
        .ok (profileOfLines (fun _ => 0) (namedText twoWords)) ∧
      oryxProfileSerialize zeroPrinter (profileOfLines (fun _ => (0 : ℚ)) (namedText twoWords))
        2048 = .ok (savedText twoWords) ∧
      ¬ ∃ q, oryxProfileParse (fun _ => (0 : ℚ)) (savedText twoWords) = .ok q ∧
        SameSettings q (profileOfLines (fun _ => 0) (namedText twoWords)) := by
  have hparse : oryxProfileParse (fun _ => (0 : ℚ)) (namedText twoWords) =
      .ok (profileOfLines (fun _ => 0) (namedText twoWords)) :=
    oryxProfileParse_ok.mpr ⟨by decide +kernel, by decide +kernel, rfl⟩
  have hsave := @serialize_namedText twoWords (by decide +kernel)
  refine ⟨hparse, hsave, ?_⟩
  rintro ⟨q, hq, hsame⟩
  rw [reload_accepted hparse hsave] at hq
  have hq' := Except.ok.inj hq
  subst hq'
  have hgame : ("game_build_hash", Profile.gameBuildHash) ∈ @stringFields ℚ := by
    simp [stringFields]
  -- the 95 bytes kept end in a space
  have hkept := strs_eq_iff.mp hsame.strs _ hgame
  rw [reload_string hparse hsave hgame, setStr_trim_iff, trim_string_iff hparse hgame] at hkept
  exact hkept twoWords (by decide +kernel) (by decide +kernel)

theorem reload_iff_short :
    (∃ q, oryxProfileParse (fun _ => (0 : ℚ)) (savedText (ascii "g")) = .ok q ∧
        SameSettings q (profileOfLines (fun _ => 0) (namedText (ascii "g")))) ↔
      ∀ key ∈ stringKeys, ∀ v, textValue (namedText (ascii "g")) key = some v → ¬ CutAtSpace v :=
  reload_iff (oryxProfileParse_ok.mpr ⟨by decide +kernel, by decide +kernel, rfl⟩)
    (serialize_namedText (by decide +kernel))

end Oryx
