/-
Oryx/ShellEnv.lean

What a shell makes of the environment of a profile.

`oryx-run.sh` evaluates the output of `oryxprofile env`.  The renderer puts
three of the free-text fields between double quotes and leaves the others
bare, and quotes nothing in them.  So the output is a sequence of exports that
give each variable the text of its field exactly when the bare fields have
only bytes that mean themselves and nothing that the shell expands, and the
fields between quotes have nothing that ends the quotation, is expanded in it,
or quotes what follows (`evalExports_iff`).
-/
import Oryx.OrderingKnobs
import Oryx.Lib.Shell

namespace Oryx

/-! ### Lines joined by newlines -/

/-- Lines with a newline between them. -/
def joinLines : List EnvLine → List Byte
  | [] => []
  | [l] => l.text
  | l :: l' :: ls => l.text ++ 0x0A :: joinLines (l' :: ls)

/-- What follows the first line. -/
def joinRest (ls : List EnvLine) : List Byte := if ls = [] then [] else 0x0A :: joinLines ls

theorem text_eq (l : EnvLine) : l.text = exportPrefix l.name ++ writeValue l.quoted l.value := by
  obtain ⟨name, q, value⟩ := l
  cases q with
  | false => rfl
  | true => rfl

theorem joinLines_cons (l : EnvLine) (ls : List EnvLine) :
    joinLines (l :: ls) = exportPrefix l.name ++ (writeValue l.quoted l.value ++ joinRest ls) := by
  rw [← List.append_assoc, ← text_eq]
  cases ls with
  | nil => exact (List.append_nil _).symm
  | cons l' ls => rfl

/-- Every line begins with the `e` of `export`. -/
theorem valueEnd_joinRest (ls : List EnvLine) : ValueEnd 0x65 (joinRest ls) := by
  cases ls with
  | nil => exact Or.inl rfl
  | cons l ls => exact Or.inr ⟨_, by rw [joinRest, if_neg (List.cons_ne_nil _ _), joinLines_cons]; rfl⟩

theorem renderLines_eq {ls : List EnvLine} (hls : ls ≠ []) : renderLines ls = joinLines ls ++ [0x0A] := by
  induction ls with
  | nil => exact absurd rfl hls
  | cons l ls ih =>
    cases ls with
    | nil =>
      rw [renderLines, List.flatMap_cons, List.flatMap_nil, List.append_nil]
      rfl
    | cons l' ls =>
      have hrest := ih (List.cons_ne_nil _ _)
      show (l.text ++ ascii "\n") ++ renderLines (l' :: ls) = _
      rw [hrest, List.append_assoc]
      show _ = l.text ++ 0x0A :: joinLines (l' :: ls) ++ _
      rw [List.append_assoc]
      rfl

/-- The last byte of the last line is no newline. -/
theorem joinLines_concat {ls : List EnvLine} (hls : ls ≠ []) (hline : ∀ l ∈ ls, 0x0A ∉ l.text) :
    ∃ g b, joinLines ls = g ++ [b] ∧ b ≠ 0x0A := by
  induction ls with
  | nil => exact absurd rfl hls
  | cons l ls ih =>
    cases ls with
    | nil =>
      have hne : l.text ≠ [] := by
        rw [text_eq]
        exact fun hc => nomatch congrArg List.head? hc
      refine ⟨l.text.dropLast, l.text.getLast hne, (List.dropLast_append_getLast hne).symm, ?_⟩
      intro hc
      exact hline l List.mem_cons_self (hc ▸ List.getLast_mem hne)
    | cons l' ls =>
      obtain ⟨g, b, hg, hb⟩ := ih (List.cons_ne_nil _ _) fun x hx => hline x (List.mem_cons_of_mem _ hx)
      refine ⟨l.text ++ 0x0A :: g, b, ?_, hb⟩
      show l.text ++ 0x0A :: joinLines (l' :: ls) = _
      rw [hg, List.append_assoc, List.cons_append]

/-- `$(..)` drops the last newline only. -/
theorem evalExports_renderLines {ls : List EnvLine} (hls : ls ≠ []) (hline : ∀ l ∈ ls, 0x0A ∉ l.text) :
    evalExports (renderLines ls) = (lex ⟨.plain, none⟩ (joinLines ls)).bind exports := by
  obtain ⟨g, b, hg, hb⟩ := joinLines_concat hls hline
  have hstrip : ((renderLines ls).reverse.dropWhile (· = 0x0A)).reverse = joinLines ls := by
    rw [renderLines_eq hls, hg, List.reverse_append, List.reverse_append]
    show ((0x0A :: b :: g.reverse).dropWhile (· = 0x0A)).reverse = _
    rw [List.dropWhile_cons_of_pos (by decide),
      List.dropWhile_cons_of_neg (by rw [decide_eq_true_iff]; exact hb), List.reverse_cons,
      List.reverse_reverse]
  rw [evalExports, hstrip]

/-- **Lines export their values as they are written** exactly when each value is safe. -/
theorem exports_joinLines (ls : List EnvLine)
    (hls : ∀ l ∈ ls, isName (bare l.name) = true ∧ 0x0A ∉ l.value) :
    (lex ⟨.plain, none⟩ (joinLines ls)).bind exports = some (ls.map fun l => (l.name, l.value)) ↔
      ∀ l ∈ ls, valueSafe l.quoted l.value = true := by
  induction ls with
  | nil => exact iff_of_true rfl fun l hl => nomatch hl
  | cons l ls ih =>
    obtain ⟨hname, hvalue⟩ := hls l List.mem_cons_self
    have hrest : (lex ⟨.plain, none⟩ (joinRest ls)).bind exports =
        (lex ⟨.plain, none⟩ (joinLines ls)).bind exports := by
      cases ls with
      | nil => rfl
      | cons l' ls =>
        show ((lex ⟨.plain, none⟩ (joinLines (l' :: ls))).map ([.newline] ++ ·)).bind exports = _
        cases lex ⟨.plain, none⟩ (joinLines (l' :: ls)) with
        | none => rfl
        | some ts => rfl
    rw [joinLines_cons, List.map_cons, List.forall_mem_cons,
      exports_line hname (by decide) (valueEnd_joinRest ls) hvalue, hrest,
      ih fun x hx => hls x (List.mem_cons_of_mem _ hx)]

/-! ### Profiles -/

section Profiles

variable {R : Type*}

/-- The variables of an environment, each with the text it is to have. -/
def envPairs (p : Profile R) : List (List Byte × List Byte) :=
  (envLines p).map fun l => (l.name, l.value)

/-- Fields that a shell reads as they are. -/
def ShellSafe (p : Profile R) : Prop :=
  (bareSafe p.turnipBuild.bytes = true ∧ bareSafe p.resolution.bytes = true ∧
      bareSafe p.fsrMode.bytes = true) ∧
    doubleSafe p.dxvkOpts.bytes = true ∧ doubleSafe p.vkd3dOpts.bytes = true ∧
      doubleSafe p.deviceSpoof.bytes = true

theorem safe_fixedLines (p : Profile R) : ∀ l ∈ fixedLines p,
    isName (bare l.name) = true ∧ 0x0A ∉ l.value ∧ valueSafe l.quoted l.value = true := by
  unfold fixedLines backendLine orderingLines
  cases p.memmodel with
  | hwTso =>
    cases p.backend with
    | fex => decide
    | box64 => decide
  | swFences =>
    cases p.backend with
    | fex => decide
    | box64 => decide

/-- A field is safe if its line is; an empty one has none. -/
theorem safe_fieldLine (name : String) (q : Bool) (field : Str) :
    (∀ l ∈ fieldLine name q field, valueSafe l.quoted l.value = true) ↔
      valueSafe q field.bytes = true := by
  unfold fieldLine
  split
  · next hempty =>
    refine iff_of_true (fun l hl => nomatch hl) ?_
    rw [List.isEmpty_iff.mp hempty]
    cases q with
    | false => decide
    | true => decide
  · exact List.forall_mem_singleton

theorem safe_fieldLines (p : Profile R) :
    (∀ l ∈ fieldLines p, valueSafe l.quoted l.value = true) ↔ ShellSafe p := by
  unfold fieldLines
  simp only [List.forall_mem_append, safe_fieldLine]
  constructor
  · rintro ⟨⟨⟨⟨⟨ht, hd⟩, hv⟩, hr⟩, hf⟩, hs⟩
    exact ⟨⟨ht, hr, hf⟩, hd, hv, hs⟩
  · rintro ⟨⟨ht, hr, hf⟩, hd, hv, hs⟩
    exact ⟨⟨⟨⟨⟨ht, hd⟩, hv⟩, hr⟩, hf⟩, hs⟩

end Profiles

section Eval

variable {R : Type*} [OfScientific R] (atof : List Byte → R)

/-- **Applying a profile only sets variables** exactly when its fields are safe. -/
theorem evalExports_iff {text : List Byte} {p : Profile R}
    (hparse : oryxProfileParse atof text = .ok p) {bufsz : Nat} {out : List Byte}
    (happly : oryxProfileApplyEnv p bufsz = .ok out) :
    evalExports out = some (envPairs p) ↔ ShellSafe p := by
  have hp := oneLine_of_parse atof hparse
  have hlines : envLines p = fixedLines p ++ fieldLines p := rfl
  have htext : ∀ l ∈ envLines p, 0x0A ∉ l.text := fun l hl => newline_notMem_envLine hp hl
  have hnames : ∀ n ∈ fieldNames, isName (bare (ascii n)) = true := by decide
  have hgood : ∀ l ∈ envLines p, isName (bare l.name) = true ∧ 0x0A ∉ l.value := by
    intro l hl
    rw [hlines, List.mem_append] at hl
    rcases hl with hl | hl
    · exact ⟨(safe_fixedLines p l hl).1, (safe_fixedLines p l hl).2.1⟩
    · obtain ⟨⟨name, hmem, hname⟩, s, hs, hvalue⟩ := mem_fieldLines hl
      exact ⟨hname ▸ hnames name hmem, hvalue ▸ hp s hs⟩
  have hne : envLines p ≠ [] := List.cons_ne_nil _ _
  rw [oryxProfileApplyEnv_ok happly, evalExports_renderLines hne htext, envPairs,
    exports_joinLines _ hgood, hlines, List.forall_mem_append, safe_fieldLines]
  exact and_iff_right fun l hl => (safe_fixedLines p l hl).2.2

end Eval

/-- A profile that asks for a resolution and for a command. -/
def commandText : List Byte :=
  ascii "game_build_hash = g\ndevice_class = SM8850\nresolution = 1280x720;reboot\n"

/-- The profile that asks for a command does not only set variables. -/
theorem not_evalExports_commandText : ∃ (p : Profile ℚ) (out : List Byte),
    oryxProfileParse (fun _ => 0) commandText = .ok p ∧ oryxProfileApplyEnv p 2048 = .ok out ∧
      evalExports out ≠ some (envPairs p) := by
  refine ⟨_, _, rfl, rfl, ?_⟩
  decide +kernel

/-- A profile with several options in a quoted field. -/
def optionsText : List Byte :=
  ascii "game_build_hash = g\ndevice_class = SM8850\ndxvk_opts = async; hud #1\n"

/-- It sets its variables. -/
theorem evalExports_optionsText : ∃ (p : Profile ℚ) (out : List Byte),
    oryxProfileParse (fun _ => 0) optionsText = .ok p ∧ oryxProfileApplyEnv p 2048 = .ok out ∧
      evalExports out = some (envPairs p) := by
  refine ⟨_, _, rfl, rfl, ?_⟩
  refine (@evalExports_iff ℚ _ (fun _ => 0) optionsText _ rfl 2048 _ rfl).mpr ?_
  unfold ShellSafe
  decide +kernel

end Oryx
