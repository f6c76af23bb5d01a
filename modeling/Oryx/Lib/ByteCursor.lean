/-
Oryx/Lib/ByteCursor.lean

Decoders that walk a byte buffer.

A decoder reads at a cursor, an offset in the buffer with the address of the
byte there, and moves the cursor on.  A read outside the buffer is a `fault`,
which in C has no meaning; a decoder avoids it by asking for room first, as
`fetch` does.  `Consumes e p c a bs` says what `p` makes of the bytes `bs` at
`c`: all of them give `a`, and a proper part of them the error `e`.
-/
import Oryx.Lib.CheckedBuffer

namespace Oryx

/-! ### Cursors -/

/-- An offset in a buffer, and the address of the byte there. -/
structure Cursor where
  off : Nat
  pc : BitVec 64
  deriving DecidableEq, Repr

/-- The cursor `n` bytes on. -/
def Cursor.advance (c : Cursor) (n : Nat) : Cursor := ⟨c.off + n, c.pc + BitVec.ofNat 64 n⟩

@[simp] theorem Cursor.advance_off (c : Cursor) (n : Nat) : (c.advance n).off = c.off + n := rfl

@[simp] theorem Cursor.advance_zero (c : Cursor) : c.advance 0 = c := by
  rw [advance, Nat.add_zero, BitVec.add_zero]

@[simp] theorem Cursor.advance_advance (c : Cursor) (m n : Nat) :
    (c.advance m).advance n = c.advance (m + n) := by
  simp only [advance, Nat.add_assoc, BitVec.ofNat_add, BitVec.add_assoc]

/-! ### Decoders -/

/-- Why a decoder stops. -/
inductive Stop (ε : Type)
  /-- A read outside the buffer. -/
  | fault
  | err (e : ε)
  deriving DecidableEq, Repr

/-- A reader of a buffer that moves a cursor. -/
def Decoder (ε α : Type) : Type := List Byte → Cursor → Except (Stop ε) (α × Cursor)

namespace Decoder

variable {ε α β : Type}

instance : Monad (Decoder ε) where
  pure a := fun _ c => .ok (a, c)
  bind p f := fun buf c =>
    match p buf c with
    | .ok (a, c') => f a buf c'
    | .error e => .error e

def fail (e : ε) : Decoder ε α := fun _ _ => .error (.err e)

/-- Stop with `e` unless `n` bytes are left. -/
def room (e : ε) (n : Nat) : Decoder ε Unit := fun buf c =>
  if c.off + n > buf.length then .error (.err e) else .ok ((), c)

/-- Are `n` bytes left? -/
def hasRoom (n : Nat) : Decoder ε Bool := fun buf c => .ok (decide (c.off + n ≤ buf.length), c)

/-- The integer of `n` bytes that stands `k` bytes on. -/
def peek (k n : Nat) : Decoder ε (BitVec (8 * n)) := fun buf c =>
  match readLe n buf (c.off + k) with
  | some v => .ok (v, c)
  | none => .error .fault

def skip (n : Nat) : Decoder ε Unit := fun _ c => .ok ((), c.advance n)

/-- The address of the cursor. -/
def here : Decoder ε (BitVec 64) := fun _ c => .ok (c.pc, c)

/-- Check for room, read and move on. -/
def fetch (e : ε) (n : Nat) : Decoder ε (BitVec (8 * n)) := do
  room e n
  let v ← peek 0 n
  skip n
  pure v

/-! ### Results -/

theorem bind_ok_iff {p : Decoder ε α} {f : α → Decoder ε β} {buf : List Byte}
    {c c'' : Cursor} {b : β} :
    (p >>= f) buf c = .ok (b, c'') ↔
      ∃ a c', p buf c = .ok (a, c') ∧ f a buf c' = .ok (b, c'') := by
  show (match p buf c with
    | .ok (a, c') => f a buf c'
    | .error e => .error e) = .ok (b, c'') ↔ _
  cases p buf c with
  | error e => exact iff_of_false (fun h => nomatch h) fun ⟨_, _, h, _⟩ => nomatch h
  | ok r => exact ⟨fun h => ⟨r.1, r.2, rfl, h⟩, fun ⟨_, _, h, hb⟩ => by cases h; exact hb⟩

theorem bind_of_ok {p : Decoder ε α} (f : α → Decoder ε β) {buf : List Byte} {c c' : Cursor}
    {a : α} (h : p buf c = .ok (a, c')) : (p >>= f) buf c = f a buf c' := by
  show (match p buf c with
    | .ok (a, c') => f a buf c'
    | .error e => .error e) = _
  rw [h]

theorem bind_of_error {p : Decoder ε α} (f : α → Decoder ε β) {buf : List Byte} {c : Cursor}
    {e : Stop ε} (h : p buf c = .error e) : (p >>= f) buf c = .error e := by
  show (match p buf c with
    | .ok (a, c') => f a buf c'
    | .error e => .error e) = _
  rw [h]

theorem pure_eq_ok_iff {a b : α} {buf : List Byte} {c c' : Cursor} :
    (pure a : Decoder ε α) buf c = .ok (b, c') ↔ a = b ∧ c = c' := by
  constructor
  · intro h
    cases h
    exact ⟨rfl, rfl⟩
  · rintro ⟨rfl, rfl⟩
    rfl

theorem ite_ok_iff {q : Prop} [Decidable q] {p p' : Decoder ε α} {buf : List Byte} {c : Cursor}
    {r : α × Cursor} :
    (if q then p else p') buf c = .ok r ↔
      q ∧ p buf c = .ok r ∨ ¬ q ∧ p' buf c = .ok r := by
  by_cases hq : q
  · simp [hq]
  · simp [hq]

theorem fail_ne_ok {e : ε} {buf : List Byte} {c : Cursor} {r : α × Cursor} :
    (fail e : Decoder ε α) buf c ≠ .ok r := fun h => nomatch h

/-! ### Fetching -/

variable {e : ε} {n : Nat} {buf rest : List Byte} {c c' : Cursor}

theorem room_of_le (h : c.off + n ≤ buf.length) : room e n buf c = .ok ((), c) :=
  if_neg (Nat.not_lt.mpr h)

theorem room_of_lt (h : buf.length < c.off + n) : room e n buf c = .error (.err e) := if_pos h

theorem peek_of_le {k : Nat} (h : c.off + k + n ≤ buf.length) :
    (peek k n : Decoder ε _) buf c = .ok (getLe n (buf.drop (c.off + k)), c) := by
  rw [peek, readLe_eq h]

theorem fetch_of_le (h : c.off + n ≤ buf.length) :
    fetch e n buf c = .ok (getLe n (buf.drop c.off), c.advance n) := by
  rw [fetch, bind_of_ok _ (room_of_le h), bind_of_ok _ (@peek_of_le ε n buf c 0 h)]
  rfl

theorem fetch_of_lt (h : buf.length < c.off + n) : fetch e n buf c = .error (.err e) := by
  rw [fetch, bind_of_error _ (room_of_lt h)]

/-- The bytes from `c` to `c'` are `bs`. -/
structure Span (buf : List Byte) (c c' : Cursor) (bs : List Byte) : Prop where
  end_eq : c' = c.advance bs.length
  le : c'.off ≤ buf.length
  bytes : buf.drop c.off = bs ++ buf.drop c'.off

theorem Span.refl (hc : c.off ≤ buf.length) : Span buf c c [] :=
  ⟨(Cursor.advance_zero c).symm, hc, rfl⟩

theorem Span.trans {c'' : Cursor} {bs bs' : List Byte} (h : Span buf c c' bs)
    (h' : Span buf c' c'' bs') : Span buf c c'' (bs ++ bs') where
  end_eq := by rw [h'.end_eq, h.end_eq, Cursor.advance_advance, List.length_append]
  le := h'.le
  bytes := by rw [h.bytes, h'.bytes, List.append_assoc]

/-- What is fetched stands at the cursor. -/
theorem span_of_fetch {v : BitVec (8 * n)} (h : fetch e n buf c = .ok (v, c')) :
    Span buf c c' (putLe n v) := by
  by_cases hn : c.off + n ≤ buf.length
  · rw [fetch_of_le hn] at h
    cases h
    have hlen : n ≤ (buf.drop c.off).length := by
      rw [List.length_drop]
      omega
    refine ⟨by rw [length_putLe], hn, ?_⟩
    rw [putLe_getLe hlen, Cursor.advance_off, ← List.drop_drop, List.take_append_drop]
  · rw [fetch_of_lt (Nat.lt_of_not_le hn)] at h
    cases h

/-! ### Faults -/

/-- The decoder reads inside the buffer, wherever it starts. -/
def NoFault (p : Decoder ε α) : Prop := ∀ buf c, p buf c ≠ .error .fault

theorem NoFault.pure (a : α) : NoFault (Pure.pure a : Decoder ε α) := fun _ _ h => nomatch h

theorem NoFault.fail (e : ε) : NoFault (Decoder.fail e : Decoder ε α) := fun _ _ h => nomatch h

theorem NoFault.here : NoFault (Decoder.here : Decoder ε _) := fun _ _ h => nomatch h

theorem NoFault.fetch (e : ε) (n : Nat) : NoFault (Decoder.fetch e n) := by
  intro buf c h
  by_cases hn : c.off + n ≤ buf.length
  · rw [fetch_of_le hn] at h
    cases h
  · rw [fetch_of_lt (Nat.lt_of_not_le hn)] at h
    cases h

theorem NoFault.bind {p : Decoder ε α} {f : α → Decoder ε β} (hp : NoFault p)
    (hf : ∀ a, NoFault (f a)) : NoFault (p >>= f) := by
  intro buf c h
  cases hr : p buf c with
  | error e =>
    rw [bind_of_error f hr] at h
    cases h
    exact hp buf c hr
  | ok r =>
    rw [bind_of_ok f hr] at h
    exact hf r.1 buf r.2 h

theorem NoFault.ite {q : Prop} [Decidable q] {p p' : Decoder ε α} (hp : NoFault p)
    (hp' : NoFault p') : NoFault (if q then p else p') := by
  split
  · exact hp
  · exact hp'

/-! ### Consuming -/

/-- At `c`, the bytes `bs` give `a`, and when the buffer ends inside them, the error `e`. -/
structure Consumes (e : ε) (p : Decoder ε α) (c : Cursor) (a : α) (bs : List Byte) : Prop where
  whole : ∀ {buf rest}, c.off ≤ buf.length → buf.drop c.off = bs ++ rest →
    p buf c = .ok (a, c.advance bs.length)
  cut : ∀ {buf u}, c.off ≤ buf.length → u ≠ [] → bs = buf.drop c.off ++ u →
    p buf c = .error (.err e)

/-- A decoder that reads nothing. -/
theorem Consumes.of_ok {p : Decoder ε α} {a : α} (h : ∀ buf, p buf c = .ok (a, c)) :
    Consumes e p c a [] where
  whole {buf _} _ _ := by
    rw [List.length_nil, Cursor.advance_zero]
    exact h buf
  cut _ hu hbs := absurd (List.append_eq_nil_iff.mp hbs.symm).2 hu

theorem Consumes.pure (e : ε) (c : Cursor) (a : α) :
    Consumes e (Pure.pure a : Decoder ε α) c a [] :=
  .of_ok fun _ => rfl

theorem Consumes.fetch (e : ε) (c : Cursor) (v : BitVec (8 * n)) :
    Consumes e (Decoder.fetch e n) c v (putLe n v) where
  whole hc hdrop := by
    have hlen := congrArg List.length hdrop
    rw [List.length_drop, List.length_append, length_putLe] at hlen
    rw [fetch_of_le (by omega), hdrop, getLe_putLe_append, length_putLe]
  cut hc hu hbs := by
    have hlen := congrArg List.length hbs
    rw [length_putLe, List.length_append, List.length_drop] at hlen
    have hpos := List.length_pos_iff.mpr hu
    exact fetch_of_lt (by omega)

theorem Consumes.bind {p : Decoder ε α} {f : α → Decoder ε β} {a : α} {b : β}
    {bs bs' : List Byte} (hp : Consumes e p c a bs)
    (hf : Consumes e (f a) (c.advance bs.length) b bs') :
    Consumes e (p >>= f) c b (bs ++ bs') where
  whole {buf rest} hc hdrop := by
    rw [List.append_assoc] at hdrop
    have hlen := congrArg List.length hdrop
    rw [List.length_drop, List.length_append] at hlen
    have hrest : buf.drop (c.advance bs.length).off = bs' ++ rest := by
      rw [Cursor.advance_off, ← List.drop_drop, hdrop, List.drop_left]
    rw [bind_of_ok f (hp.whole hc hdrop), hf.whole (by rw [Cursor.advance_off]; omega) hrest,
      Cursor.advance_advance, List.length_append]
  cut {buf u} hc hu hbs := by
    -- the buffer ends in the bytes of the one or of the other
    rcases List.append_eq_append_iff.mp hbs with ⟨t, hdrop, hbs'⟩ | ⟨t, hbs₁, hu'⟩
    · have hlen := congrArg List.length hdrop
      rw [List.length_drop, List.length_append] at hlen
      have hrest : buf.drop (c.advance bs.length).off = t := by
        rw [Cursor.advance_off, ← List.drop_drop, hdrop, List.drop_left]
      rw [bind_of_ok f (hp.whole hc hdrop)]
      exact hf.cut (by rw [Cursor.advance_off]; omega) hu (by rw [hrest, hbs'])
    · rcases List.eq_nil_or_concat t with ht | ⟨_, _, ht⟩
      · subst ht
        rw [List.append_nil] at hbs₁
        rw [List.nil_append] at hu'
        have hdrop : buf.drop c.off = bs ++ [] := by rw [List.append_nil, hbs₁]
        have hlen := congrArg List.length hdrop
        rw [List.length_drop, List.length_append] at hlen
        have hrest : buf.drop (c.advance bs.length).off = [] := by
          rw [Cursor.advance_off, ← List.drop_drop, hdrop, List.drop_left]
        rw [bind_of_ok f (hp.whole hc hdrop)]
        exact hf.cut (by rw [Cursor.advance_off]; omega) hu (by rw [hrest, hu', List.nil_append])
      · exact bind_of_error f (hp.cut hc (by rw [ht]; simp) hbs₁)

/-- A last step that reads nothing. -/
theorem Consumes.map {p : Decoder ε α} {a : α} {bs : List Byte} (hp : Consumes e p c a bs)
    (f : α → β) : Consumes e (p >>= fun a => Pure.pure (f a)) c (f a) bs := by
  have h : Consumes e (p >>= fun a => Pure.pure (f a)) c (f a) (bs ++ []) :=
    hp.bind (.pure e _ _)
  rwa [List.append_nil] at h

end Decoder

end Oryx
