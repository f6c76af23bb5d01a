/-
Oryx/ProfileText.lean

A profile as its text: which line decides a field.

The lines of a text are assignments of values to keys (`assignments`), and of
the assignments to one key the last one counts (`textValue`).  `SetBy` says of
a field of the profile which key sets it and how its value is read, and
`SetBy.of_parse` is what all results about accepted texts start from: the field
is read from the last value of its key, or is as `oryx_profile_init` left it.
-/
import Oryx.Profile

namespace Oryx

/-! ### Trimming -/

/-- Spaces may be dropped in front first or behind first. -/
theorem dropWhile_rdropWhile {α : Type*} (p : α → Bool) (l : List α) :
    (l.rdropWhile p).dropWhile p = (l.dropWhile p).rdropWhile p := by
  induction l using List.reverseRecOn with
  | nil => rfl
  | append_singleton l x ih =>
    rw [List.dropWhile_append]
    by_cases hx : p x = true
    · rw [List.rdropWhile_concat_pos p l x hx, ih]
      split
      · next hempty => rw [List.isEmpty_iff.mp hempty, List.dropWhile_cons_of_pos hx]; rfl
      · rw [List.rdropWhile_concat_pos p _ x hx]
    · rw [List.rdropWhile_concat_neg p l x hx, List.dropWhile_append]
      split
      · next hempty =>
        rw [List.dropWhile_cons_of_neg hx]
        exact (List.rdropWhile_concat_neg p [] x hx).symm
      · rw [List.rdropWhile_concat_neg p _ x hx]

/-- What stands before an element that stays is not touched from behind. -/
theorem rdropWhile_append_cons {α : Type*} {p : α → Bool} {x : α} (hx : ¬ p x = true)
    (l r : List α) : (l ++ x :: r).rdropWhile p = l ++ x :: r.rdropWhile p := by
  induction r using List.reverseRecOn with
  | nil => exact List.rdropWhile_concat_neg p l x hx
  | append_singleton r y ih =>
    rw [← List.cons_append, ← List.append_assoc]
    by_cases hy : p y = true
    · rw [List.rdropWhile_concat_pos p _ y hy, List.rdropWhile_concat_pos p _ y hy, ih]
    · rw [List.rdropWhile_concat_neg p _ y hy, List.rdropWhile_concat_neg p _ y hy,
        List.append_assoc, List.cons_append]

theorem trim_cons_space {b : Byte} (hb : isspace b = true) (s : List Byte) :
    trim (b :: s) = trim s := by
  rw [trim, List.dropWhile_cons_of_pos hb, trim]

theorem trim_rdropWhile (s : List Byte) : trim (s.rdropWhile isspace) = trim s := by
  rw [trim, dropWhile_rdropWhile, List.rdropWhile_idempotent, trim]

theorem trim_trim (s : List Byte) : trim (trim s) = trim s := by
  rw [trim, trim, dropWhile_rdropWhile, List.rdropWhile_idempotent, List.dropWhile_idempotent]

theorem dropWhile_trim (s : List Byte) : (trim s).dropWhile isspace = trim s := by
  rw [trim, dropWhile_rdropWhile, List.dropWhile_idempotent]

theorem rdropWhile_trim (s : List Byte) : (trim s).rdropWhile isspace = trim s := by
  rw [trim, List.rdropWhile_idempotent]

/-- A text is trimmed when neither of its ends is a space. -/
theorem trim_eq_self_iff {s : List Byte} :
    trim s = s ↔ (∀ b ∈ s.head?, isspace b = false) ∧ ∀ b ∈ s.getLast?, isspace b = false := by
  have hfront : s.dropWhile isspace = s ↔ ∀ b ∈ s.head?, isspace b = false := by
    cases s with
    | nil => simp
    | cons b s => simp [List.dropWhile_eq_self_iff]
  have hback : s.rdropWhile isspace = s ↔ ∀ b ∈ s.getLast?, isspace b = false := by
    rw [List.rdropWhile_eq_self_iff]
    constructor
    · intro h b hb
      obtain ⟨hne, rfl⟩ := List.mem_getLast?_eq_getLast hb
      exact Bool.eq_false_of_not_eq_true (h hne)
    · intro h hne hspace
      rw [h _ (List.getLast_mem_getLast? hne)] at hspace
      cases hspace
  rw [← hfront, ← hback]
  constructor
  · intro h
    exact ⟨by rw [← h, dropWhile_trim], by rw [← h, rdropWhile_trim]⟩
  · rintro ⟨h, h'⟩
    rw [trim, h, h']

theorem trim_of_noSpace {s : List Byte} (h : ∀ b ∈ s, isspace b = false) : trim s = s :=
  trim_eq_self_iff.mpr ⟨fun b hb => h b (List.mem_of_head? hb),
    fun b hb => h b (List.mem_of_getLast? hb)⟩

/-! ### Strings -/

theorem Str.ext_bytes {s t : Str} (h : s.bytes = t.bytes) : s = t := by
  cases s
  cases t
  cases h
  rfl

/-- What `set_str` keeps of a string. -/
theorem setStr_bytes {v : List Byte} (hnul : 0 ∉ v) : (setStr v).bytes = v.take 95 := by
  have hwhole : cString v = v :=
    List.takeWhile_eq_self_iff.mpr fun b hb => decide_eq_true (ne_of_mem_of_not_mem hb hnul)
  show (cString v).take 95 = v.take 95
  rw [hwhole]

/-! ### Assignments -/

/-- The key and the value of a line that assigns one. -/
def lineAssign (line : List Byte) : Option (List Byte × List Byte) :=
  let t := trim line
  if t = [] ∨ t.head? = some 0x23 then none
  else if 0x3D ∈ t then
    some (trim (t.takeWhile (· ≠ 0x3D)), trim ((t.dropWhile (· ≠ 0x3D)).drop 1))
  else none

/-- The assignments of a text, in order. -/
def assignments (text : List Byte) : List (List Byte × List Byte) :=
  (lineTokens text).filterMap lineAssign

/-- The value that a key has in the end. -/
def lastValue (key : List Byte) (as : List (List Byte × List Byte)) : Option (List Byte) :=
  (as.reverse.find? (·.1 = key)).map Prod.snd

/-- The value that a text gives to a key. -/
def textValue (text : List Byte) (key : String) : Option (List Byte) :=
  lastValue (ascii key) (assignments text)

theorem lastValue_concat (key : List Byte) (as : List (List Byte × List Byte))
    (kv : List Byte × List Byte) :
    lastValue key (as ++ [kv]) = if kv.1 = key then some kv.2 else lastValue key as := by
  rw [lastValue, List.reverse_append, List.reverse_singleton, List.singleton_append,
    List.find?_cons]
  by_cases hkey : kv.1 = key
  · rw [if_pos hkey, decide_eq_true hkey]
    rfl
  · rw [if_neg hkey, decide_eq_false hkey]
    rfl

/-- The value comes from an assignment. -/
theorem mem_of_lastValue {key v : List Byte} {as : List (List Byte × List Byte)}
    (h : lastValue key as = some v) : (key, v) ∈ as := by
  obtain ⟨⟨k, v'⟩, hfind, rfl⟩ := Option.map_eq_some_iff.mp h
  have hkey : k = key := by simpa using List.find?_some hfind
  have hmem := List.mem_reverse.mp (List.mem_of_find?_eq_some hfind)
  rwa [hkey] at hmem

/-- Where the keys differ, every assignment counts. -/
theorem lastValue_of_nodup {as : List (List Byte × List Byte)} (hnodup : (as.map Prod.fst).Nodup)
    {key v : List Byte} (h : (key, v) ∈ as) : lastValue key as = some v := by
  induction as using List.reverseRecOn with
  | nil => cases h
  | append_singleton as kv ih =>
    rw [List.map_append, List.map_singleton, List.nodup_append] at hnodup
    rw [lastValue_concat]
    rcases List.mem_append.mp h with hfront | hlast
    · have hne : kv.1 ≠ key := fun heq =>
        hnodup.2.2 key (List.mem_map_of_mem hfront) kv.1 (List.mem_singleton_self _) heq.symm
      rw [if_neg hne, ih hnodup.1 hfront]
    · obtain rfl := List.mem_singleton.mp hlast
      rw [if_pos rfl]

/-- A value has no `'\0'`, and its ends are no spaces. -/
theorem of_textValue {text : List Byte} {key : String} {v : List Byte}
    (h : textValue text key = some v) : 0 ∉ v ∧ trim v = v := by
  obtain ⟨line, hline, hassign⟩ := List.mem_filterMap.mp (mem_of_lastValue h)
  have hnul : 0 ∉ line := by
    intro hmem
    have hpiece := List.mem_of_mem_filter hline
    exact zero_notMem_cString text (mem_of_mem_of_splitOn hpiece hmem)
  rw [lineAssign] at hassign
  split at hassign
  · cases hassign
  split at hassign
  · have hv : trim (((trim line).dropWhile (· ≠ 0x3D)).drop 1) = v :=
      congrArg Prod.snd (Option.some.inj hassign)
    rw [← hv]
    refine ⟨fun hmem => hnul ?_, trim_trim _⟩
    have hrest := List.mem_of_mem_drop (mem_of_mem_trim hmem)
    exact mem_of_mem_trim ((List.dropWhile_suffix _).subset hrest)
  · cases hassign

/-! ### The fields -/

section Fields

variable {R α : Type*} (atof : List Byte → R)

/-- The field is set by this key alone, and read like this from its value. -/
structure SetBy (field : Profile R → α) (key : String) (read : List Byte → α) : Prop where
  hit : ∀ out v, field (setKey atof out (ascii key) v) = read v
  miss : ∀ out k v, k ≠ ascii key → field (setKey atof out k v) = field out

theorem parseLine_eq (out : Profile R) (line : List Byte) :
    parseLine atof out line =
      match lineAssign line with
      | none => out
      | some kv => setKey atof out kv.1 kv.2 := by
  rw [parseLine, lineAssign]
  extract_lets t
  split
  · rfl
  · split
    · rfl
    · rfl

theorem foldl_parseLine (lines : List (List Byte)) (out : Profile R) :
    lines.foldl (parseLine atof) out =
      (lines.filterMap lineAssign).foldl (fun p kv => setKey atof p kv.1 kv.2) out := by
  induction lines generalizing out with
  | nil => rfl
  | cons line lines ih =>
    rw [List.foldl_cons, ih, parseLine_eq, List.filterMap_cons]
    cases lineAssign line with
    | none => rfl
    | some kv => rfl

variable {atof}

/-- After a run of assignments the field is as its key's last one sets it. -/
theorem SetBy.foldl {field : Profile R → α} {key : String} {read : List Byte → α}
    (h : SetBy atof field key read) (as : List (List Byte × List Byte)) (out : Profile R) :
    field (as.foldl (fun p kv => setKey atof p kv.1 kv.2) out) =
      (lastValue (ascii key) as).elim (field out) read := by
  induction as using List.reverseRecOn with
  | nil => rfl
  | append_singleton as kv ih =>
    rw [List.foldl_append, List.foldl_cons, List.foldl_nil, lastValue_concat]
    by_cases hkey : kv.1 = ascii key
    · rw [if_pos hkey, hkey, h.hit]
      rfl
    · rw [if_neg hkey, h.miss _ _ _ hkey, ih]

variable [OfScientific R]

/-- The profile that the lines of a text make. -/
def profileOfLines (atof : List Byte → R) (text : List Byte) : Profile R :=
  (lineTokens text).foldl (parseLine atof) oryxProfileInit

theorem oryxProfileParse_ok {text : List Byte} {p : Profile R} :
    oryxProfileParse atof text = .ok p ↔
      p.gameBuildHash.isEmpty = false ∧ p.deviceClass.isEmpty = false ∧
        p = profileOfLines atof text := by
  have hcheck : oryxProfileParse atof text = .ok p ↔
      ¬ ((profileOfLines atof text).gameBuildHash.isEmpty ∨
        (profileOfLines atof text).deviceClass.isEmpty) ∧
        Except.ok (profileOfLines atof text) = (.ok p : Except ProfileErr (Profile R)) :=
    check_eq_ok_iff
  rw [hcheck, not_or, Bool.not_eq_true, Bool.not_eq_true, Except.ok.injEq]
  constructor
  · rintro ⟨⟨hgame, hdevice⟩, rfl⟩
    exact ⟨hgame, hdevice, rfl⟩
  · rintro ⟨hgame, hdevice, rfl⟩
    exact ⟨⟨hgame, hdevice⟩, rfl⟩

/-- **Where a field comes from**: the last value of its key, or the initial profile. -/
theorem SetBy.profileOfLines {field : Profile R → α} {key : String} {read : List Byte → α}
    (h : SetBy atof field key read) (text : List Byte) :
    field (profileOfLines atof text) =
      (textValue text key).elim (field oryxProfileInit) read := by
  rw [Oryx.profileOfLines, foldl_parseLine, h.foldl]
  rfl

theorem SetBy.of_parse {field : Profile R → α} {key : String} {read : List Byte → α}
    (h : SetBy atof field key read) {text : List Byte} {p : Profile R}
    (hp : oryxProfileParse atof text = .ok p) :
    field p = (textValue text key).elim (field oryxProfileInit) read := by
  rw [(oryxProfileParse_ok.mp hp).2.2, h.profileOfLines]

/-- The string fields and their keys. -/
def stringFields : List (String × (Profile R → Str)) :=
  [("game_build_hash", Profile.gameBuildHash), ("device_class", Profile.deviceClass),
    ("turnip_build", Profile.turnipBuild), ("dxvk_opts", Profile.dxvkOpts),
    ("vkd3d_opts", Profile.vkd3dOpts), ("resolution", Profile.resolution),
    ("fsr_mode", Profile.fsrMode), ("device_spoof", Profile.deviceSpoof)]

omit [OfScientific R] in
/-- A branch that leaves the field alone. -/
theorem field_ite {field : Profile R → α} {c : Prop} {_ : Decidable c} {a b out : Profile R}
    (hb : field b = field out) (ha : c → field a = field out) :
    field (if c then a else b) = field out := by
  split
  · next hc => exact ha hc
  · exact hb

/-- The telemetry and its keys. -/
def numberFields : List (String × (Profile R → R)) :=
  [("median_fps", Profile.medianFps), ("p1_low_fps", Profile.p1LowFps),
    ("crash_rate", Profile.crashRate), ("sustained_fps", Profile.sustainedFps)]

omit [OfScientific R] in
/-- **Each field is set by its own key.** -/
theorem setBy_fields :
    (∀ f ∈ @stringFields R, SetBy atof f.2 f.1 setStr) ∧
    (∀ f ∈ @numberFields R, SetBy atof f.2 f.1 atof) ∧
    SetBy atof Profile.requiresHwTso "requires_hw_tso" atoi ∧
    SetBy atof Profile.backend "backend" (fun v => if v = ascii "fex" then .fex else .box64) ∧
    SetBy atof Profile.memmodel "memmodel"
      (fun v => if v = ascii "hw_tso" then .hwTso else .swFences) ∧
    SetBy atof Profile.sampleCount "sample_count" fun v => (strtoul v).setWidth 32 := by
  simp only [stringFields, numberFields, List.forall_mem_cons]
  refine ⟨⟨?_, ?_, ?_, ?_, ?_, ?_, ?_, ?_, List.forall_mem_nil _⟩,
    ⟨?_, ?_, ?_, ?_, List.forall_mem_nil _⟩, ?_, ?_, ?_, ?_⟩
  all_goals refine ⟨fun _ _ => rfl, fun out k v hk => ?_⟩
  -- the branch of the field's own key is the only one that touches it
  all_goals
    unfold setKey
    iterate 16 refine field_ite ?_ fun h => ?_
    all_goals first | rfl | exact absurd h hk

omit [OfScientific R] in
/-- Each string is set by its own key, cut to what fits. -/
theorem setBy_string {f : String × (Profile R → Str)} (hf : f ∈ stringFields) :
    SetBy atof f.2 f.1 setStr := setBy_fields.1 f hf

omit [OfScientific R] in
theorem setBy_number {f : String × (Profile R → R)} (hf : f ∈ numberFields) :
    SetBy atof f.2 f.1 atof := setBy_fields.2.1 f hf

end Fields

end Oryx
