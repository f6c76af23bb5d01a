/-
Oryx/Lib/Shell.lean

How a POSIX shell reads a text: the tokens it finds in it, byte by byte, with
the quoting of every byte, and whether the tokens are a sequence of
`export NAME=VALUE` and nothing else.

The reading stops (`none`) where the text alone no longer says what happens:
at an expansion (`$` or a backquote, outside single quotes), and at the end of
a text inside a quotation.  A value is also left open when the shell may
expand it without a `$`: by its tildes, where `export` takes its words as
assignments, and by its unquoted `*`, `?` and `[`, where it does not.

`lexWord` follows one word from where it stands.  Whatever the bytes are, a
word gives out no more bytes than it reads, short of what follows the text it
is read from (`lexWord_length`), and it gives out fewer once a byte was read
that quotes others; this is what makes a value of a text with such a byte
differ from the text.
-/
import Oryx.Lib.CText

namespace Oryx

/-! ### Tokens -/

/-- A byte of a word, and whether it was quoted. -/
structure Piece where
  byte : Byte
  quoted : Bool
  deriving DecidableEq, Repr

inductive Token
  | word (w : List Piece)
  | operator (b : Byte)
  | newline
  deriving DecidableEq, Repr

/-- What the next byte is read as: outside quotes, in a comment, after a backslash, between
quotes of one kind or the other, after a backslash between double quotes. -/
inductive LexMode
  | plain
  | comment
  | escape
  | single
  | double
  | doubleEscape
  deriving DecidableEq, Repr

/-- The mode and the word under way, if there is one. -/
structure LexState where
  mode : LexMode
  word : Option (List Piece)
  deriving DecidableEq, Repr

def isBlank (b : Byte) : Bool := b = 0x20 ∨ b = 0x09

/-- `|`, `&`, `;`, `<`, `>`, `(` and `)`. -/
def isOperator (b : Byte) : Bool := b ∈ ascii "|&;<>()"

/-- `$` and the backquote. -/
def isExpansion (b : Byte) : Bool := b = 0x24 ∨ b = 0x60

/-- What a backslash quotes between double quotes. -/
def isDoubleEscaped (b : Byte) : Bool := isExpansion b ∨ b = 0x22 ∨ b = 0x5C

/-- The word under way is complete. -/
def flush : Option (List Piece) → List Token
  | none => []
  | some w => [.word w]

/-- The word under way goes on. -/
def LexState.push (s : LexState) (mode : LexMode) (ps : List Piece) : LexState :=
  ⟨mode, some (s.word.getD [] ++ ps)⟩

/-- The shell reads one byte. -/
def lexStep (s : LexState) (b : Byte) : Option (LexState × List Token) :=
  match s.mode with
  | .plain =>
      if b = 0x0A then some (⟨.plain, none⟩, flush s.word ++ [.newline])
      else if isBlank b then some (⟨.plain, none⟩, flush s.word)
      else if isOperator b then some (⟨.plain, none⟩, flush s.word ++ [.operator b])
      else if b = 0x5C then some (⟨.escape, s.word⟩, [])
      else if b = 0x27 then some (s.push .single [], [])
      else if b = 0x22 then some (s.push .double [], [])
      else if isExpansion b then none
      else if b = 0x23 ∧ s.word = none then some (⟨.comment, none⟩, [])
      else some (s.push .plain [⟨b, false⟩], [])
  | .comment =>
      if b = 0x0A then some (⟨.plain, none⟩, [.newline]) else some (s, [])
  | .escape =>
      -- a backslash and a newline are nothing
      if b = 0x0A then some (⟨.plain, s.word⟩, []) else some (s.push .plain [⟨b, true⟩], [])
  | .single =>
      if b = 0x27 then some (s.push .plain [], []) else some (s.push .single [⟨b, true⟩], [])
  | .double =>
      if b = 0x22 then some (s.push .plain [], [])
      else if isExpansion b then none
      else if b = 0x5C then some (s.push .doubleEscape [], [])
      else some (s.push .double [⟨b, true⟩], [])
  | .doubleEscape =>
      if b = 0x0A then some (s.push .double [], [])
      else if isDoubleEscaped b then some (s.push .double [⟨b, true⟩], [])
      else some (s.push .double [⟨0x5C, true⟩, ⟨b, true⟩], [])

/-- The end of the text. -/
def lexEnd (s : LexState) : Option (List Token) :=
  match s.mode with
  | .plain | .comment => some (flush s.word)
  | _ => none

/-- The tokens of a text. -/
def lex (s : LexState) : List Byte → Option (List Token)
  | [] => lexEnd s
  | b :: text => (lexStep s b).bind fun next => (lex next.1 text).map (next.2 ++ ·)

/-! ### Commands -/

/-- A word without quotes. -/
def bare (bytes : List Byte) : List Piece := bytes.map fun b => ⟨b, false⟩

/-- A word between quotes. -/
def quoted (bytes : List Byte) : List Piece := bytes.map fun b => ⟨b, true⟩

/-- A letter or `_`, or a digit. -/
def isNameByte (b : Byte) : Bool :=
  (0x41 ≤ b ∧ b ≤ 0x5A) ∨ (0x61 ≤ b ∧ b ≤ 0x7A) ∨ b = 0x5F ∨ isdigit b

/-- A variable name without quotes. -/
def isName (name : List Piece) : Bool :=
  (name.map Piece.byte).all isNameByte ∧ (name.map Piece.quoted).all (· = false) ∧
    name.head?.any fun p => !isdigit p.byte

/-- A tilde that the shell expands in the value of an assignment: at the start, or after a
colon. -/
def hasTilde : Bool → List Piece → Bool
  | _, [] => false
  | start, p :: ps =>
      (start ∧ p = ⟨0x7E, false⟩) ∨ hasTilde (p = ⟨0x3A, false⟩) ps

/-- A `]` behind the first byte closes a bracket expression, unless a `/` stands before it. -/
def closesBracket : List Piece → Bool
  | p :: q :: ps => p.byte ≠ 0x2F ∧ (q = ⟨0x5D, false⟩ ∨ closesBracket (q :: ps))
  | _ => false

/-- What stands behind a `[` makes it a bracket expression; a `!` at its start negates it. -/
def opensBracket : List Piece → Bool
  | ⟨0x21, false⟩ :: ps => closesBracket ps
  | ps => closesBracket ps

/-- `*`, `?` or a bracket expression, which may match file names. -/
def hasPattern : List Piece → Bool
  | [] => false
  | p :: ps =>
      (p.quoted = false ∧ (p.byte ∈ ascii "*?" ∨ (p.byte = 0x5B ∧ opensBracket ps))) ∨
        hasPattern ps

/-- `NAME=VALUE`, where the shell leaves the value as it is. -/
def assigned (w : List Piece) : Option (List Byte × List Byte) :=
  let name := w.takeWhile (· ≠ ⟨0x3D, false⟩)
  match w.dropWhile (· ≠ ⟨0x3D, false⟩) with
  | [] => none
  | _ :: value =>
      if isName name ∧ hasTilde true value = false ∧ hasPattern value = false then
        some (name.map Piece.byte, value.map Piece.byte)
      else none

/-- The variables that these tokens export, when they are `export NAME=VALUE` commands on
lines of their own and nothing else. -/
def exports : List Token → Option (List (List Byte × List Byte))
  | [] => some []
  | .newline :: ts => exports ts
  | .word e :: .word a :: ts =>
      if e = bare (ascii "export") ∧ ts.head?.all (· = .newline) then
        (assigned a).bind fun v => (exports ts).map (v :: ·)
      else none
  | _ => none

/-- `eval "$(..)"` of a program with this output: trailing newlines are dropped. -/
def evalExports (output : List Byte) : Option (List (List Byte × List Byte)) :=
  (lex ⟨.plain, none⟩ (output.reverse.dropWhile (· = 0x0A)).reverse).bind exports

/-! ### One word -/

/-- The rest of a word read from here, if it ends. -/
def lexWord : LexMode → List Byte → Option (List Piece)
  | .plain, [] => some []
  | .plain, b :: text =>
      if b = 0x0A ∨ isBlank b ∨ isOperator b then some []
      else if b = 0x5C then lexWord .escape text
      else if b = 0x27 then lexWord .single text
      else if b = 0x22 then lexWord .double text
      else if isExpansion b then none
      else (lexWord .plain text).map (⟨b, false⟩ :: ·)
  | .escape, b :: text =>
      if b = 0x0A then lexWord .plain text else (lexWord .plain text).map (⟨b, true⟩ :: ·)
  | .single, b :: text =>
      if b = 0x27 then lexWord .plain text else (lexWord .single text).map (⟨b, true⟩ :: ·)
  | .double, b :: text =>
      if b = 0x22 then lexWord .plain text
      else if isExpansion b then none
      else if b = 0x5C then lexWord .doubleEscape text
      else (lexWord .double text).map (⟨b, true⟩ :: ·)
  | .doubleEscape, b :: text =>
      if b = 0x0A then lexWord .double text
      else if isDoubleEscaped b then (lexWord .double text).map (⟨b, true⟩ :: ·)
      else (lexWord .double text).map ([⟨0x5C, true⟩, ⟨b, true⟩] ++ ·)
  | _, _ => none

/-- **The word under way** is the first token of what is read from here. -/
theorem lex_word {m : LexMode} (hm : m ≠ .comment) {w : List Piece} {text : List Byte}
    {ts : List Token} (h : lex ⟨m, some w⟩ text = some ts) :
    ∃ y rest, lexWord m text = some y ∧ ts = .word (w ++ y) :: rest := by
  induction text generalizing m w ts with
  | nil =>
    cases m with
    | plain =>
      cases h
      exact ⟨[], [], rfl, by rw [List.append_nil]; rfl⟩
    | comment => exact absurd rfl hm
    | escape | single | double | doubleEscape => cases h
  | cons b text ih =>
    rw [lex] at h
    obtain ⟨⟨s', out⟩, hstep, hmap⟩ := Option.bind_eq_some_iff.mp h
    obtain ⟨ts', hts', rfl⟩ := Option.map_eq_some_iff.mp hmap
    -- the word goes on in another mode, with the pieces of this byte
    have hgo : ∀ (m' : LexMode) {ps : List Piece}, m' ≠ .comment →
        lex ⟨m', some (w ++ ps)⟩ text = some ts' →
        ∃ y rest, (lexWord m' text).map (ps ++ ·) = some y ∧ ts' = .word (w ++ y) :: rest := by
      intro m' ps hm' hlex
      obtain ⟨y, rest, hy, rfl⟩ := ih hm' hlex
      exact ⟨ps ++ y, rest, by rw [hy]; rfl, by rw [List.append_assoc]⟩
    have hskip : ∀ (m' : LexMode), m' ≠ .comment → lex ⟨m', some (w ++ [])⟩ text = some ts' →
        ∃ y rest, lexWord m' text = some y ∧ ts' = .word (w ++ y) :: rest := by
      intro m' hm' hlex
      rw [List.append_nil] at hlex
      exact ih hm' hlex
    have hend : w = w ++ [] := (List.append_nil w).symm
    unfold lexStep at hstep
    unfold lexWord
    cases m with
    | comment => exact absurd rfl hm
    | plain =>
      dsimp only at hstep ⊢
      split_ifs at hstep with hnl hblank hop hesc hsq hdq hexp hhash
      · cases hstep
        exact ⟨[], _, if_pos (Or.inl hnl), by rw [← hend]; rfl⟩
      · cases hstep
        exact ⟨[], _, if_pos (Or.inr (Or.inl hblank)), by rw [← hend]; rfl⟩
      · cases hstep
        exact ⟨[], _, if_pos (Or.inr (Or.inr hop)), by rw [← hend]; rfl⟩
      all_goals
        cases hstep
        rw [if_neg (not_or.mpr ⟨hnl, not_or.mpr ⟨hblank, hop⟩⟩)]
      · rw [if_pos hesc]
        exact ih (m := .escape) (fun hc => nomatch hc) hts'
      · rw [if_neg hesc, if_pos hsq]
        exact hskip .single (fun hc => nomatch hc) hts'
      · rw [if_neg hesc, if_neg hsq, if_pos hdq]
        exact hskip .double (fun hc => nomatch hc) hts'
      · exact hhash.2.elim
      · rw [if_neg hesc, if_neg hsq, if_neg hdq, if_neg hexp]
        exact hgo .plain (fun hc => nomatch hc) hts'
    | escape =>
      dsimp only at hstep ⊢
      split_ifs at hstep with hnl
      · cases hstep
        rw [if_pos hnl]
        exact ih (m := .plain) (fun hc => nomatch hc) hts'
      · cases hstep
        rw [if_neg hnl]
        exact hgo .plain (fun hc => nomatch hc) hts'
    | single =>
      dsimp only at hstep ⊢
      split_ifs at hstep with hsq
      · cases hstep
        rw [if_pos hsq]
        exact hskip .plain (fun hc => nomatch hc) hts'
      · cases hstep
        rw [if_neg hsq]
        exact hgo .single (fun hc => nomatch hc) hts'
    | double =>
      dsimp only at hstep ⊢
      split_ifs at hstep with hdq hexp hesc
      · cases hstep
        rw [if_pos hdq]
        exact hskip .plain (fun hc => nomatch hc) hts'
      · cases hstep
        rw [if_neg hdq, if_neg hexp, if_pos hesc]
        exact hskip .doubleEscape (fun hc => nomatch hc) hts'
      · cases hstep
        rw [if_neg hdq, if_neg hexp, if_neg hesc]
        exact hgo .double (fun hc => nomatch hc) hts'
    | doubleEscape =>
      dsimp only at hstep ⊢
      split_ifs at hstep with hnl hesc
      · cases hstep
        rw [if_pos hnl]
        exact hskip .double (fun hc => nomatch hc) hts'
      · cases hstep
        rw [if_neg hnl, if_pos hesc]
        exact hgo .double (fun hc => nomatch hc) hts'
      · cases hstep
        rw [if_neg hnl, if_neg hesc]
        exact hgo .double (fun hc => nomatch hc) hts'

/-! ### How much a word gives out -/

/-- How many bytes more than it reads a word may give out from here, when a backslash at the
end quotes `k` bytes of what follows. -/
def LexMode.budget (k : Nat) : LexMode → Nat
  | .escape => k
  | .doubleEscape => 1
  | _ => 0

/-- A byte that every mode gives out. -/
def isOrdinary (b : Byte) : Bool :=
  ¬(b = 0x0A ∨ isBlank b ∨ isOperator b ∨ b = 0x5C ∨ b = 0x27 ∨ b = 0x22 ∨ isExpansion b)

/-- What a word that reads `g` gives out: no more than it reads, unless it goes on behind `g`,
which a newline or one more `mark` gives away. -/
def Short (k : Nat) (mark : Byte) (m : LexMode) (g : List Byte) (y : List Piece) : Prop :=
  y.length ≤ g.length + m.budget k ∨ 0x0A ∈ y.map Piece.byte ∨
    g.count mark < (y.map Piece.byte).count mark

section Short

variable {k : Nat} {mark : Byte} {m m' : LexMode} {g : List Byte} {y : List Piece} {b : Byte}

theorem Short.nil : Short k mark m g [] := Or.inl (Nat.zero_le _)

theorem Short.emit (h : Short k mark m' g y) (hm : m'.budget k ≤ m.budget k) (q : Bool) :
    Short k mark m (b :: g) (⟨b, q⟩ :: y) := by
  rcases h with hlen | hnl | hmark
  · apply Or.inl
    rw [List.length_cons, List.length_cons]
    omega
  · exact Or.inr (Or.inl (List.mem_cons_of_mem _ hnl))
  · refine Or.inr (Or.inr ?_)
    rw [List.map_cons, List.count_cons, List.count_cons]
    exact Nat.add_lt_add_right hmark _

theorem Short.skip (h : Short k mark m' g y) (hm : m'.budget k ≤ m.budget k + 1) (hb : b ≠ mark) :
    Short k mark m (b :: g) y := by
  rcases h with hlen | hnl | hmark
  · apply Or.inl
    rw [List.length_cons]
    omega
  · exact Or.inr (Or.inl hnl)
  · refine Or.inr (Or.inr ?_)
    rw [List.count_cons_of_ne hb]
    exact hmark

/-- A backslash that quotes nothing comes out before the byte after it. -/
theorem Short.emit_two (h : Short k mark .double g y) :
    Short k mark .doubleEscape (b :: g) ([⟨0x5C, true⟩, ⟨b, true⟩] ++ y) := by
  rcases h with hlen | hnl | hmark
  · apply Or.inl
    rw [List.length_append, List.length_cons]
    simp only [LexMode.budget, List.length_cons, List.length_nil] at hlen ⊢
    omega
  · exact Or.inr (Or.inl (List.mem_cons_of_mem _ (List.mem_cons_of_mem _ hnl)))
  · refine Or.inr (Or.inr ?_)
    rw [List.map_append, List.count_append, List.count_cons]
    simp only [List.map_cons, List.map_nil, List.count_cons, List.count_nil]
    omega

end Short

/-- **A word gives out no more than it reads**, when this holds of what follows. -/
theorem lexWord_length {k : Nat} (hk : k ≤ 1) {mark : Byte} (hmark : isOrdinary mark = true) {tail : List Byte}
    (htail : ∀ m y, lexWord m tail = some y → Short k mark m [] y) {g : List Byte}
    (hg : 0x0A ∉ g) {m : LexMode} {y : List Piece} (h : lexWord m (g ++ tail) = some y) :
    Short k mark m g y := by
  induction g generalizing m y with
  | nil => exact htail m y h
  | cons b g ih =>
    have hb : b ≠ 0x0A := fun hc => hg (hc ▸ List.mem_cons_self)
    have hrest : 0x0A ∉ g := fun hc => hg (List.mem_cons_of_mem _ hc)
    have hskip : ∀ {c : Byte}, isOrdinary c = false → b = c → b ≠ mark := by
      rintro c hc rfl rfl
      rw [hc] at hmark
      cases hmark
    rw [List.cons_append] at h
    unfold lexWord at h
    cases m with
    | comment => cases h
    | plain =>
      dsimp only at h
      split_ifs at h with hdelim hesc hsq hdq hexp
      · cases h
        exact Short.nil
      · exact (ih hrest h).skip hk (hskip (by decide) hesc)
      · exact (ih hrest h).skip (Nat.zero_le _) (hskip (by decide) hsq)
      · exact (ih hrest h).skip (Nat.zero_le _) (hskip (by decide) hdq)
      · obtain ⟨y', hy', rfl⟩ := Option.map_eq_some_iff.mp h
        exact (ih hrest hy').emit (Nat.le_refl _) _
    | escape =>
      dsimp only at h
      rw [if_neg hb] at h
      obtain ⟨y', hy', rfl⟩ := Option.map_eq_some_iff.mp h
      exact (ih hrest hy').emit (Nat.zero_le _) _
    | single =>
      dsimp only at h
      split_ifs at h with hsq
      · exact (ih hrest h).skip (Nat.zero_le _) (hskip (by decide) hsq)
      · obtain ⟨y', hy', rfl⟩ := Option.map_eq_some_iff.mp h
        exact (ih hrest hy').emit (Nat.le_refl _) _
    | double =>
      dsimp only at h
      split_ifs at h with hdq hexp hesc
      · exact (ih hrest h).skip (Nat.zero_le _) (hskip (by decide) hdq)
      · exact (ih hrest h).skip (Nat.le_refl 1) (hskip (by decide) hesc)
      · obtain ⟨y', hy', rfl⟩ := Option.map_eq_some_iff.mp h
        exact (ih hrest hy').emit (Nat.le_refl _) _
    | doubleEscape =>
      dsimp only at h
      rw [if_neg hb] at h
      split_ifs at h with hesc
      · obtain ⟨y', hy', rfl⟩ := Option.map_eq_some_iff.mp h
        exact (ih hrest hy').emit (Nat.zero_le _) _
      · obtain ⟨y', hy', rfl⟩ := Option.map_eq_some_iff.mp h
        exact (ih hrest hy').emit_two

/-! ### Values -/

/-- What may stand behind a value: the end of the text, or another line. -/
def ValueEnd (mark : Byte) (tail : List Byte) : Prop := tail = [] ∨ ∃ rest, tail = 0x0A :: mark :: rest

section Values

variable {mark : Byte} {tail : List Byte} (htail : ValueEnd mark tail)

include htail

theorem lexWord_plain_end : lexWord .plain tail = some [] := by
  rcases htail with rfl | ⟨rest, rfl⟩
  · rfl
  · rfl

/-- A quotation that is open at the end of its line has the newline in it. -/
theorem newline_mem_of_open {m : LexMode} (hm : m = .single ∨ m = .double) {y : List Piece}
    (h : lexWord m tail = some y) : 0x0A ∈ y.map Piece.byte := by
  rcases htail with rfl | ⟨rest, rfl⟩
  · rcases hm with rfl | rfl
    · cases h
    · cases h
  · have hy : ∃ y', y = ⟨0x0A, true⟩ :: y' := by
      rcases hm with rfl | rfl
      · obtain ⟨y', -, rfl⟩ := Option.map_eq_some_iff.mp h
        exact ⟨y', rfl⟩
      · obtain ⟨y', -, rfl⟩ := Option.map_eq_some_iff.mp h
        exact ⟨y', rfl⟩
    obtain ⟨y', rfl⟩ := hy
    exact List.mem_cons_self

/-- Between double quotes that a text leaves open, a backslash at its end changes nothing. -/
theorem short_quoted_end (m : LexMode) (y : List Piece) (h : lexWord m (0x22 :: tail) = some y) :
    Short 1 mark m [] y := by
  have hopen : ∀ {m' : LexMode}, m' = .single ∨ m' = .double → ∀ {y' : List Piece} (ps : List Piece),
      lexWord m' tail = some y' → Short 1 mark m [] (ps ++ y') := by
    intro m' hm' y' ps h'
    rw [Short, List.map_append]
    exact Or.inr (Or.inl (List.mem_append_right _ (newline_mem_of_open htail hm' h')))
  have hplain := lexWord_plain_end htail
  unfold lexWord at h
  cases m with
  | comment => cases h
  | plain => exact hopen (Or.inr rfl) [] h
  | escape =>
    obtain ⟨y', hy', rfl⟩ := Option.map_eq_some_iff.mp h
    rw [hplain] at hy'
    cases hy'
    exact Or.inl (Nat.le_refl 1)
  | single =>
    obtain ⟨y', hy', rfl⟩ := Option.map_eq_some_iff.mp h
    exact hopen (Or.inl rfl) [_] hy'
  | double =>
    have h' : lexWord .plain tail = some y := h
    rw [hplain] at h'
    cases h'
    exact Short.nil
  | doubleEscape =>
    obtain ⟨y', hy', rfl⟩ := Option.map_eq_some_iff.mp h
    exact hopen (Or.inr rfl) [_] hy'

variable (hmark : isOrdinary mark = true)

include hmark

/-- Behind a bare value a word ends, or gives itself away. -/
theorem short_bare_end (m : LexMode) (y : List Piece) (h : lexWord m tail = some y) :
    Short 0 mark m [] y := by
  have hmarked : ∀ {q : Bool} {y' : List Piece}, Short 0 mark m [] (⟨mark, q⟩ :: y') := by
    intro q y'
    refine Or.inr (Or.inr ?_)
    rw [List.map_cons, List.count_cons_self]
    exact Nat.succ_pos _
  have hord : ¬(mark = 0x0A ∨ isBlank mark ∨ isOperator mark ∨ mark = 0x5C ∨ mark = 0x27 ∨
      mark = 0x22 ∨ isExpansion mark) := of_decide_eq_true hmark
  simp only [not_or] at hord
  obtain ⟨hnl, hblank, hop, hesc, hsq, hdq, hexp⟩ := hord
  cases m with
  | comment => rcases htail with rfl | ⟨rest, rfl⟩ <;> cases h
  | plain =>
    rw [lexWord_plain_end htail] at h
    cases h
    exact Short.nil
  | single => exact Or.inr (Or.inl (newline_mem_of_open htail (Or.inl rfl) h))
  | double => exact Or.inr (Or.inl (newline_mem_of_open htail (Or.inr rfl) h))
  | escape =>
    rcases htail with rfl | ⟨rest, rfl⟩
    · cases h
    · -- the line goes on with `mark`
      have h' : lexWord .plain (mark :: rest) = some y := h
      rw [lexWord, if_neg (not_or.mpr ⟨hnl, not_or.mpr ⟨hblank, hop⟩⟩), if_neg hesc, if_neg hsq, if_neg hdq,
        if_neg hexp] at h'
      obtain ⟨y', -, rfl⟩ := Option.map_eq_some_iff.mp h'
      exact hmarked
  | doubleEscape =>
    rcases htail with rfl | ⟨rest, rfl⟩
    · cases h
    · have h' : lexWord .double (mark :: rest) = some y := h
      rw [lexWord, if_neg hdq, if_neg hexp, if_neg hesc] at h'
      obtain ⟨y', -, rfl⟩ := Option.map_eq_some_iff.mp h'
      exact hmarked

end Values

/-! ### Values that are read as they are -/

/-- The word read cannot be the text: it is shorter, or goes on behind it. -/
def Differs (mark : Byte) (g : List Byte) (y : List Piece) : Prop :=
  y.length < g.length ∨ 0x0A ∈ y.map Piece.byte ∨ g.count mark < (y.map Piece.byte).count mark

theorem Differs.ne {mark : Byte} {g : List Byte} {y : List Piece} (h : Differs mark g y)
    (hg : 0x0A ∉ g) : y.map Piece.byte ≠ g := by
  rintro rfl
  rcases h with hlen | hnl | hmark
  · rw [List.length_map] at hlen
    exact absurd hlen (Nat.lt_irrefl _)
  · exact hg hnl
  · exact absurd hmark (Nat.lt_irrefl _)

theorem Differs.cons {mark : Byte} {g : List Byte} {y : List Piece} (h : Differs mark g y)
    (b : Byte) (q : Bool) : Differs mark (b :: g) (⟨b, q⟩ :: y) := by
  rcases h with hlen | hnl | hmark
  · exact Or.inl (Nat.succ_lt_succ hlen)
  · exact Or.inr (Or.inl (List.mem_cons_of_mem _ hnl))
  · refine Or.inr (Or.inr ?_)
    rw [List.map_cons, List.count_cons, List.count_cons]
    exact Nat.add_lt_add_right hmark _

/-- A byte that quotes others is lost. -/
theorem Short.differs {k : Nat} {mark : Byte} {m : LexMode} {g : List Byte} {y : List Piece}
    (h : Short k mark m g y) (hm : m.budget k = 0) {b : Byte} (hb : b ≠ mark) :
    Differs mark (b :: g) y := by
  rcases h with hlen | hnl | hmark
  · apply Or.inl
    rw [List.length_cons]
    omega
  · exact Or.inr (Or.inl hnl)
  · refine Or.inr (Or.inr ?_)
    rw [List.count_cons_of_ne hb]
    exact hmark

/-- A bare text that the shell reads as it is. -/
def bareSafe (f : List Byte) : Bool :=
  f.all isOrdinary ∧ hasTilde true (bare f) = false ∧ hasPattern (bare f) = false

/-- A text that the shell reads as it is between double quotes. -/
def doubleSafe : List Byte → Bool
  | [] => true
  | [b] => ¬(b = 0x22 ∨ b = 0x5C ∨ isExpansion b)
  | b :: c :: f =>
      if b = 0x5C then ¬isDoubleEscaped c ∧ doubleSafe f
      else ¬(b = 0x22 ∨ isExpansion b) ∧ doubleSafe (c :: f)

/-- A backslash apart, each byte between double quotes is judged for itself. -/
theorem doubleSafe_cons {b : Byte} (hb : b ≠ 0x5C) (f : List Byte) :
    doubleSafe (b :: f) = (decide (¬(b = 0x22 ∨ isExpansion b)) && doubleSafe f) := by
  cases f with
  | nil =>
    rw [doubleSafe, doubleSafe, Bool.and_true]
    exact decide_eq_decide.mpr ⟨fun h hc => h (hc.imp_right Or.inr),
      fun h hc => h (hc.imp_right fun h' => h'.resolve_left hb)⟩
  | cons c f =>
    rw [doubleSafe, if_neg hb, Bool.decide_and, Bool.decide_eq_true]

section Exact

variable {mark : Byte} (hmark : isOrdinary mark = true) {tail : List Byte}
  (htail : ValueEnd mark tail)

include hmark htail

/-- **A bare text is read as it is** only if each of its bytes is ordinary. -/
theorem differs_bare {f : List Byte} (hf : 0x0A ∉ f) (hbad : f.all isOrdinary = false)
    {y : List Piece} (h : lexWord .plain (f ++ tail) = some y) : Differs mark f y := by
  induction f generalizing y with
  | nil => cases hbad
  | cons b f ih =>
    have hrest : 0x0A ∉ f := fun hc => hf (List.mem_cons_of_mem _ hc)
    have hne : ∀ {c : Byte}, isOrdinary c = false → b = c → b ≠ mark := by
      rintro c hc rfl rfl
      rw [hc] at hmark
      cases hmark
    have hshort : ∀ {m : LexMode}, lexWord m (f ++ tail) = some y → Short 0 mark m f y :=
      fun hm => lexWord_length (Nat.zero_le 1) hmark (short_bare_end htail hmark) hrest hm
    rw [List.cons_append, lexWord] at h
    split_ifs at h with hdelim hesc hsq hdq hexp
    · cases h
      exact Or.inl (Nat.succ_pos _)
    · exact (hshort h).differs rfl (hne (by decide) hesc)
    · exact (hshort h).differs rfl (hne (by decide) hsq)
    · exact (hshort h).differs rfl (hne (by decide) hdq)
    · obtain ⟨y', hy', rfl⟩ := Option.map_eq_some_iff.mp h
      refine (ih hrest ?_ hy').cons b false
      -- the first byte is ordinary, so one of the others is not
      have hb : isOrdinary b = true := by
        apply decide_eq_true
        intro hc
        rcases hc with hc | hc | hc | hc | hc | hc | hc
        · exact hdelim (Or.inl hc)
        · exact hdelim (Or.inr (Or.inl hc))
        · exact hdelim (Or.inr (Or.inr hc))
        · exact hesc hc
        · exact hsq hc
        · exact hdq hc
        · exact hexp hc
      rw [List.all_cons, hb, Bool.true_and] at hbad
      exact hbad

/-- **A text between double quotes is read as it is** only if nothing in it ends the quotation,
is expanded, or quotes what follows. -/
theorem differs_double {f : List Byte} (hf : 0x0A ∉ f) (hbad : doubleSafe f = false)
    {y : List Piece} (h : lexWord .double (f ++ 0x22 :: tail) = some y) : Differs mark f y := by
  have hne : ∀ {c : Byte}, isOrdinary c = false → ∀ {b : Byte}, b = c → b ≠ mark := by
    rintro c hc b rfl rfl
    rw [hc] at hmark
    cases hmark
  have hshort : ∀ {m : LexMode} {g : List Byte} {y' : List Piece}, 0x0A ∉ g →
      lexWord m (g ++ 0x22 :: tail) = some y' → Short 1 mark m g y' :=
    fun hg hm => lexWord_length (Nat.le_refl 1) hmark (short_quoted_end htail) hg hm
  -- a byte that is no backslash
  have hstep : ∀ {b : Byte} {g : List Byte}, b ≠ 0x5C → 0x0A ∉ g →
      (doubleSafe g = false → ∀ y', lexWord .double (g ++ 0x22 :: tail) = some y' →
        Differs mark g y') →
      doubleSafe (b :: g) = false → ∀ y', lexWord .double (b :: g ++ 0x22 :: tail) = some y' →
        Differs mark (b :: g) y' := by
    intro b g hb hg ih hbad y' h
    rw [List.cons_append, lexWord] at h
    split_ifs at h with hdq hexp
    · exact (hshort hg h).differs rfl (hne (by decide) hdq)
    · obtain ⟨z, hz, rfl⟩ := Option.map_eq_some_iff.mp h
      refine (ih ?_ z hz).cons b true
      rw [doubleSafe_cons hb, decide_eq_true (not_or.mpr ⟨hdq, hexp⟩), Bool.true_and] at hbad
      exact hbad
  induction f using doubleSafe.induct generalizing y with
  | case1 => cases hbad
  | case2 b =>
    by_cases hb : b = 0x5C
    · -- the closing quote is quoted, and the quotation goes on
      subst hb
      have h' : (lexWord .double tail).map (⟨0x22, true⟩ :: ·) = some y := h
      obtain ⟨z, hz, rfl⟩ := Option.map_eq_some_iff.mp h'
      exact Or.inr (Or.inl (List.mem_cons_of_mem _ (newline_mem_of_open htail (Or.inr rfl) hz)))
    · exact hstep hb List.not_mem_nil (fun hc => nomatch hc) hbad y h
  | case3 c f ih =>
    have hc : c ≠ 0x0A := fun hc => hf (hc ▸ List.mem_cons_of_mem _ List.mem_cons_self)
    have hrest : 0x0A ∉ f := fun hc => hf (List.mem_cons_of_mem _ (List.mem_cons_of_mem _ hc))
    have h' : lexWord .doubleEscape (c :: (f ++ 0x22 :: tail)) = some y := h
    rw [lexWord, if_neg hc] at h'
    split_ifs at h' with hesc
    · obtain ⟨z, hz, rfl⟩ := Option.map_eq_some_iff.mp h'
      exact ((hshort hrest hz).emit (m := .plain) (Nat.le_refl 0) true).differs rfl
        (hne (by decide) rfl)
    · obtain ⟨z, hz, rfl⟩ := Option.map_eq_some_iff.mp h'
      refine ((ih hrest ?_ hz).cons c true).cons 0x5C true
      have hsafe : doubleSafe (0x5C :: c :: f) = doubleSafe f := by
        rw [doubleSafe, if_pos rfl, Bool.decide_and, decide_eq_true hesc, Bool.true_and,
          Bool.decide_eq_true]
      rw [hsafe] at hbad
      exact hbad
  | case4 b c f hesc ih =>
    exact hstep hesc (fun hc => hf (List.mem_cons_of_mem _ hc))
      (fun hbad' y' hy' => ih (fun hc => hf (List.mem_cons_of_mem _ hc)) hbad' hy') hbad y h

end Exact

/-! ### Lines -/

theorem lex_of_step {s s' : LexState} {b : Byte} (h : lexStep s b = some (s', [])) (text : List Byte) :
    lex s (b :: text) = lex s' text := by
  rw [lex, h, Option.bind_some]
  exact Option.map_id'

/-- What makes a byte ordinary, one thing at a time. -/
theorem isOrdinary_iff {b : Byte} : isOrdinary b = true ↔ b ≠ 0x0A ∧ ¬isBlank b ∧ ¬isOperator b ∧
    b ≠ 0x5C ∧ b ≠ 0x27 ∧ b ≠ 0x22 ∧ ¬isExpansion b := by
  rw [isOrdinary, decide_eq_true_iff]
  simp only [not_or, ne_eq]

/-- An ordinary byte goes on the word under way. -/
theorem lexStep_ordinary {b : Byte} (hb : isOrdinary b = true) (word : Option (List Piece))
    (hword : word = none → b ≠ 0x23) :
    lexStep ⟨.plain, word⟩ b = some (⟨.plain, some (word.getD [] ++ [⟨b, false⟩])⟩, []) := by
  obtain ⟨hnl, hblank, hop, hesc, hsq, hdq, hexp⟩ := isOrdinary_iff.mp hb
  unfold lexStep
  dsimp only
  rw [if_neg hnl, if_neg hblank, if_neg hop, if_neg hesc, if_neg hsq, if_neg hdq, if_neg hexp,
    if_neg fun hc => hword hc.2 hc.1]
  rfl

/-- Ordinary bytes are read as they are. -/
theorem lex_bare {f : List Byte} (hf : f.all isOrdinary = true) (w : List Piece) (text : List Byte) :
    lex ⟨.plain, some w⟩ (f ++ text) = lex ⟨.plain, some (w ++ bare f)⟩ text := by
  induction f generalizing w with
  | nil => rw [List.nil_append, bare, List.map_nil, List.append_nil]
  | cons b f ih =>
    rw [List.all_cons, Bool.and_eq_true] at hf
    rw [List.cons_append, lex_of_step (lexStep_ordinary hf.1 (some w) fun hc => nomatch hc), ih hf.2]
    show lex ⟨.plain, some (w ++ [⟨b, false⟩] ++ bare f)⟩ text = _
    rw [List.append_assoc]
    rfl

/-- A safe text between double quotes is read as it is. -/
theorem lex_double {f : List Byte} (hline : 0x0A ∉ f) (hf : doubleSafe f = true) (w : List Piece)
    (text : List Byte) :
    lex ⟨.double, some w⟩ (f ++ 0x22 :: text) = lex ⟨.plain, some (w ++ quoted f)⟩ text := by
  have hone : ∀ {b : Byte} {g : List Byte}, b ≠ 0x5C → doubleSafe (b :: g) = true →
      (doubleSafe g = true → ∀ w', lex ⟨.double, some w'⟩ (g ++ 0x22 :: text) =
        lex ⟨.plain, some (w' ++ quoted g)⟩ text) →
      ∀ w', lex ⟨.double, some w'⟩ (b :: g ++ 0x22 :: text) =
        lex ⟨.plain, some (w' ++ quoted (b :: g))⟩ text := by
    intro b g hb hsafe ih w'
    rw [doubleSafe_cons hb, Bool.and_eq_true, decide_eq_true_iff, not_or] at hsafe
    obtain ⟨⟨hdq, hexp⟩, hg⟩ := hsafe
    have hstep : lexStep ⟨.double, some w'⟩ b =
        some (⟨.double, some (w' ++ [⟨b, true⟩])⟩, []) := by
      unfold lexStep
      dsimp only
      rw [if_neg hdq, if_neg hexp, if_neg hb]
      rfl
    rw [List.cons_append, lex_of_step hstep, ih hg, List.append_assoc]
    rfl
  have hnil : ∀ w', lex ⟨.double, some w'⟩ (0x22 :: text) = lex ⟨.plain, some w'⟩ text := by
    intro w'
    have hstep : lexStep ⟨.double, some w'⟩ 0x22 = some (⟨.plain, some (w' ++ [])⟩, []) := rfl
    rw [lex_of_step hstep, List.append_nil]
  induction f using doubleSafe.induct generalizing w with
  | case1 => rw [List.nil_append, hnil, quoted, List.map_nil, List.append_nil]
  | case2 b =>
    by_cases hb : b = 0x5C
    · subst hb
      cases hf
    · refine hone hb hf (fun _ w' => ?_) w
      rw [List.nil_append, hnil, quoted, List.map_nil, List.append_nil]
  | case3 c f ih =>
    rw [doubleSafe, if_pos rfl, decide_eq_true_iff] at hf
    obtain ⟨hesc, hrest⟩ := hf
    have hnl : c ≠ 0x0A := fun hc => hline (hc ▸ List.mem_cons_of_mem _ List.mem_cons_self)
    have hmore : 0x0A ∉ f := fun hc => hline (List.mem_cons_of_mem _ (List.mem_cons_of_mem _ hc))
    -- the backslash quotes nothing
    have hback : lexStep ⟨.double, some w⟩ 0x5C = some (⟨.doubleEscape, some (w ++ [])⟩, []) := rfl
    have hpair : lexStep ⟨.doubleEscape, some (w ++ [])⟩ c =
        some (⟨.double, some (w ++ [] ++ [⟨0x5C, true⟩, ⟨c, true⟩])⟩, []) := by
      unfold lexStep
      dsimp only
      rw [if_neg hnl, if_neg hesc]
      rfl
    rw [List.cons_append, List.cons_append, lex_of_step hback, lex_of_step hpair, ih hmore hrest,
      List.append_nil, List.append_assoc]
    rfl
  | case4 b c f hb ih =>
    exact hone hb hf (fun hg w' => ih (fun hc => hline (List.mem_cons_of_mem _ hc)) hg w') w

/-- A value as it is written, between double quotes or bare. -/
def writeValue (inQuotes : Bool) (f : List Byte) : List Byte :=
  if inQuotes then 0x22 :: (f ++ [0x22]) else f

/-- A value that the shell reads as it is. -/
def valueSafe (inQuotes : Bool) (f : List Byte) : Bool :=
  if inQuotes then doubleSafe f else bareSafe f

/-- `export NAME=`. -/
def exportPrefix (name : List Byte) : List Byte := ascii "export " ++ name ++ ascii "="

theorem isOrdinary_of_isNameByte {b : Byte} (h : isNameByte b = true) :
    isOrdinary b = true ∧ b ≠ 0x23 ∧ b ≠ 0x3D := by
  have hall : ∀ x : Byte, isNameByte x = true → isOrdinary x = true ∧ x ≠ 0x23 ∧ x ≠ 0x3D := by
    decide +kernel
  exact hall b h

theorem bare_append (f g : List Byte) : bare (f ++ g) = bare f ++ bare g := List.map_append

theorem map_byte_bare (f : List Byte) : (bare f).map Piece.byte = f := by
  rw [bare, List.map_map]
  exact List.map_id f

theorem map_byte_quoted (f : List Byte) : (quoted f).map Piece.byte = f := by
  rw [quoted, List.map_map]
  exact List.map_id f

/-- A word begins. -/
theorem lex_start {b : Byte} (hb : isOrdinary b = true) (hhash : b ≠ 0x23) {f : List Byte}
    (hf : f.all isOrdinary = true) (text : List Byte) :
    lex ⟨.plain, none⟩ (b :: (f ++ text)) = lex ⟨.plain, some (bare (b :: f))⟩ text := by
  rw [lex_of_step (lexStep_ordinary hb none fun _ => hhash), lex_bare hf]
  rfl

/-- A name as a list of bytes. -/
theorem name_cons {name : List Byte} (hname : isName (bare name) = true) :
    ∃ b f, name = b :: f ∧ name.all isNameByte = true := by
  rw [isName, decide_eq_true_iff, map_byte_bare] at hname
  obtain ⟨hall, -, hhead⟩ := hname
  cases name with
  | nil => cases hhead
  | cons b f => exact ⟨b, f, rfl, hall⟩

/-- The shell reads `export NAME=` as a word and the start of another. -/
theorem lex_exportPrefix {name : List Byte} (hname : isName (bare name) = true)
    (text : List Byte) : lex ⟨.plain, none⟩ (exportPrefix name ++ text) =
      (lex ⟨.plain, some (bare (name ++ ascii "="))⟩ text).map
        (.word (bare (ascii "export")) :: ·) := by
  obtain ⟨b, f, rfl, hall⟩ := name_cons hname
  have hexport : ∀ rest, lex ⟨.plain, none⟩ (ascii "export " ++ rest) =
      (lex ⟨.plain, none⟩ rest).map (.word (bare (ascii "export")) :: ·) := by
    intro rest
    have hword := @lex_start 0x65 (by decide) (by decide) (ascii "xport") (by decide) (0x20 :: rest)
    exact hword.trans rfl
  have hname' : (f ++ ascii "=").all isOrdinary = true := by
    rw [List.all_append, Bool.and_eq_true]
    refine ⟨List.all_eq_true.mpr fun x hx => ?_, by decide⟩
    exact (isOrdinary_of_isNameByte (List.all_eq_true.mp hall x (List.mem_cons_of_mem _ hx))).1
  have hb := isOrdinary_of_isNameByte (List.all_eq_true.mp hall b List.mem_cons_self)
  have hsplit : exportPrefix (b :: f) ++ text =
      ascii "export " ++ (b :: ((f ++ ascii "=") ++ text)) := by
    rw [exportPrefix]
    simp only [List.append_assoc, List.cons_append]
  rw [hsplit, hexport, lex_start hb.1 hb.2.1 hname']
  rfl

/-- A value that is safe is read as it is, and ends its word. -/
theorem lex_value {q : Bool} {f : List Byte} (hline : 0x0A ∉ f) (hordinary : if q then
      doubleSafe f = true else f.all isOrdinary = true) {mark : Byte} {tail : List Byte}
    (htail : ValueEnd mark tail) (w : List Piece) :
    lex ⟨.plain, some w⟩ (writeValue q f ++ tail) =
      (lex ⟨.plain, none⟩ tail).map (.word (w ++ if q then quoted f else bare f) :: ·) := by
  have hend : ∀ w' : List Piece, lex ⟨.plain, some w'⟩ tail =
      (lex ⟨.plain, none⟩ tail).map (.word w' :: ·) := by
    intro w'
    rcases htail with rfl | ⟨rest, rfl⟩
    · rfl
    · show (lex ⟨.plain, none⟩ (mark :: rest)).map ([.word w', .newline] ++ ·) =
        ((lex ⟨.plain, none⟩ (mark :: rest)).map ([.newline] ++ ·)).map _
      rw [Option.map_map]
      rfl
  cases q with
  | false =>
    show lex ⟨.plain, some w⟩ (f ++ tail) = _
    rw [lex_bare hordinary, hend]
    rfl
  | true =>
    have hopen : lexStep ⟨.plain, some w⟩ 0x22 = some (⟨.double, some (w ++ [])⟩, []) := rfl
    show lex ⟨.plain, some w⟩ (0x22 :: (f ++ [0x22]) ++ tail) = _
    rw [List.cons_append, lex_of_step hopen, List.append_nil, List.append_assoc]
    show lex _ (f ++ 0x22 :: tail) = _
    rw [lex_double hline hordinary, hend]
    rfl

/-- What an `export` of a value that the shell may expand means is open. -/
theorem assigned_word {name : List Byte} (hname : isName (bare name) = true) (value : List Piece) :
    assigned (bare (name ++ ascii "=") ++ value) =
      if hasTilde true value = false ∧ hasPattern value = false then
        some (name, value.map Piece.byte)
      else none := by
  have hall : ∀ p ∈ bare name, decide (p ≠ (⟨0x3D, false⟩ : Piece)) = true := by
    obtain ⟨-, -, -, hbytes⟩ := name_cons hname
    intro p hp
    obtain ⟨b, hb, rfl⟩ := List.mem_map.mp hp
    have hne := (isOrdinary_of_isNameByte (List.all_eq_true.mp hbytes b hb)).2.2
    exact decide_eq_true fun hc => hne (congrArg Piece.byte hc)
  have hword : bare (name ++ ascii "=") ++ value = bare name ++ (⟨0x3D, false⟩ :: value) := by
    rw [bare_append, List.append_assoc]
    rfl
  have htake : (bare name ++ (⟨0x3D, false⟩ :: value)).takeWhile (· ≠ ⟨0x3D, false⟩) = bare name := by
    rw [List.takeWhile_append_of_pos hall, List.takeWhile_cons_of_neg (by decide), List.append_nil]
  have hdrop : (bare name ++ (⟨0x3D, false⟩ :: value)).dropWhile (· ≠ ⟨0x3D, false⟩) =
      ⟨0x3D, false⟩ :: value := by
    rw [List.dropWhile_append_of_pos hall, List.dropWhile_cons_of_neg (by decide)]
  rw [hword, assigned, htake, hdrop, map_byte_bare]
  simp only [hname, true_and]

theorem hasTilde_quoted (f : List Byte) (start : Bool) :
    hasTilde start (quoted f) = false := by
  induction f generalizing start with
  | nil => rfl
  | cons b f ih =>
    have hq : ∀ c : Byte, (⟨b, true⟩ : Piece) ≠ ⟨c, false⟩ := fun c hc => nomatch congrArg Piece.quoted hc
    show decide (_ ∨ _) = false
    rw [decide_eq_false_iff_not]
    rintro (⟨-, hc⟩ | hc)
    · exact hq _ hc
    · exact Bool.false_ne_true ((ih _).symm.trans hc)

theorem hasPattern_quoted (f : List Byte) : hasPattern (quoted f) = false := by
  induction f with
  | nil => rfl
  | cons b f ih => simpa [quoted, hasPattern] using ih

section Line

variable {name : List Byte} (hname : isName (bare name) = true) {mark : Byte}
  (hmark : isOrdinary mark = true) {tail : List Byte} (htail : ValueEnd mark tail)

/-- Behind a value there is nothing or a newline. -/
theorem head_lex_end (htail : ValueEnd mark tail) {ts : List Token}
    (h : lex ⟨.plain, none⟩ tail = some ts) : ts.head?.all (· = .newline) = true := by
  rcases htail with rfl | ⟨rest, rfl⟩
  · cases h
    rfl
  · obtain ⟨ts', -, rfl⟩ := Option.map_eq_some_iff.mp h
    rfl

include hname htail

/-- A line whose value is read as it is exports it, when nothing in it may be expanded. -/
theorem exports_read {q : Bool} {f : List Byte} (hline : 0x0A ∉ f)
    (hread : if q then doubleSafe f = true else f.all isOrdinary = true)
    {vars : List (List Byte × List Byte)} :
    (lex ⟨.plain, none⟩ (exportPrefix name ++ (writeValue q f ++ tail))).bind exports =
        some ((name, f) :: vars) ↔
      valueSafe q f = true ∧ (lex ⟨.plain, none⟩ tail).bind exports = some vars := by
  have hsafe : valueSafe q f = true ↔ hasTilde true (if q then quoted f else bare f) = false ∧
      hasPattern (if q then quoted f else bare f) = false := by
    cases q with
    | false =>
      show bareSafe f = true ↔ _
      rw [bareSafe, decide_eq_true_iff]
      exact and_iff_right hread
    | true => exact iff_of_true hread ⟨hasTilde_quoted f true, hasPattern_quoted f⟩
  have hbytes : (if q then quoted f else bare f).map Piece.byte = f := by
    cases q with
    | false => exact map_byte_bare f
    | true => exact map_byte_quoted f
  rw [lex_exportPrefix hname, lex_value hline hread htail, Option.map_map]
  generalize (if q then quoted f else bare f) = value at hsafe hbytes ⊢
  cases htokens : lex ⟨.plain, none⟩ tail with
  | none => exact iff_of_false (fun h => nomatch h) fun h => nomatch h.2
  | some ts =>
    show (if _ ∧ ts.head?.all (· = .newline) = true then _ else none) = _ ↔ _ ∧ exports ts = some vars
    rw [if_pos ⟨rfl, head_lex_end htail htokens⟩, assigned_word hname, hbytes, hsafe]
    split
    · next hopen =>
      rw [and_iff_right hopen, Option.bind_some]
      cases exports ts with
      | none => exact iff_of_false (fun h => nomatch h) fun h => nomatch h
      | some vs =>
        constructor
        · intro h
          cases h
          rfl
        · intro h
          cases h
          rfl
    · next hopen => exact iff_of_false (fun h => nomatch h) fun h => hopen h.1

include hmark

/-- **A line exports its value as it is written** exactly when the value is safe. -/
theorem exports_line {q : Bool} {f : List Byte} (hline : 0x0A ∉ f)
    {vars : List (List Byte × List Byte)} :
    (lex ⟨.plain, none⟩ (exportPrefix name ++ (writeValue q f ++ tail))).bind exports =
        some ((name, f) :: vars) ↔
      valueSafe q f = true ∧ (lex ⟨.plain, none⟩ tail).bind exports = some vars := by
  by_cases hread : if q then doubleSafe f = true else f.all isOrdinary = true
  · exact exports_read hname htail hline hread
  · have hopen : valueSafe q f = false := by
      cases q with
      | false => exact decide_eq_false fun hc => hread hc.1
      | true => exact Bool.eq_false_iff.mpr hread
    refine iff_of_false (fun h => ?_) fun h => Bool.false_ne_true (hopen.symm.trans h.1)
    obtain ⟨ts, hts, hexports⟩ := Option.bind_eq_some_iff.mp h
    rw [lex_exportPrefix hname] at hts
    obtain ⟨ts', hts', rfl⟩ := Option.map_eq_some_iff.mp hts
    obtain ⟨y, rest, hy, rfl⟩ := lex_word (m := .plain) (fun hc => nomatch hc) hts'
    -- the word that is exported shows `f`
    have hvalue : y.map Piece.byte = f := by
      unfold exports at hexports
      split at hexports
      · obtain ⟨v, hv, hvs⟩ := Option.bind_eq_some_iff.mp hexports
        obtain ⟨vs, -, hcons⟩ := Option.map_eq_some_iff.mp hvs
        cases hcons
        rw [assigned_word hname] at hv
        split at hv
        · exact congrArg Prod.snd (Option.some.inj hv)
        · cases hv
      · cases hexports
    have hdiffers : Differs mark f y := by
      cases q with
      | false => exact differs_bare hmark htail hline (Bool.eq_false_iff.mpr hread) hy
      | true =>
        have hopen : lexWord .double (f ++ 0x22 :: tail) = some y := by
          have hy' : lexWord .double (f ++ [0x22] ++ tail) = some y := hy
          rwa [List.append_assoc] at hy'
        exact differs_double hmark htail hline (Bool.eq_false_iff.mpr hread) hopen
    exact hdiffers.ne hline hvalue

end Line

end Oryx
