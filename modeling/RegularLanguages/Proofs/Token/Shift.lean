import RegularLanguages.Token.Lexer

/-!
# Reading from a later place

What a read gives is decided by the characters that are left to read. How many were read before them
shows in positions only: a read that starts `n` characters later gives the same with every position
moved by `n`, tokens and errors alike.
-/

namespace RegularLanguages

/-- The span `n` characters later. -/
def Span.shift (s : Span) (n : Nat) : Span := ⟨s.start + n, s.stop + n⟩

/-- The same error, found `n` characters later. -/
def SyntaxError.shift (e : SyntaxError) (n : Nat) : SyntaxError := ⟨e.cause, e.span.shift n⟩

/-- The same token, read `n` characters later. -/
def Lexeme.shift (l : Lexeme) (n : Nat) : Lexeme := ⟨l.token, l.span.shift n⟩

/-- The same cursor after `n` more characters. -/
def Cursor.shift (c : Cursor) (n : Nat) : Cursor := ⟨c.position + n, c.rest⟩

/-- The same item, begun `n` characters later. -/
def Expecting.shift : Expecting → Nat → Expecting
  | .item, _ => .item
  | .escaped start, n => .escaped (start + n)
  | .dash start a, n => .dash (start + n) a
  | .last start a, n => .last (start + n) a
  | .escapedLast start a backslash, n => .escapedLast (start + n) a (backslash + n)

theorem Expecting.shift_after (p : Nat) (c : Char) (n : Nat) :
    (after p c).shift n = after (p + n) c := by
  unfold after
  split <;> rfl

namespace Cursor

variable (opened p n : Nat) (rest : List Char)

/-- What reading ranges gives, `n` characters later. -/
def shiftRanges (n : Nat) (r : Except SyntaxError (List CharRange) × Cursor) :
    Except SyntaxError (List CharRange) × Cursor :=
  (r.1.mapError (·.shift n), r.2.shift n)

/-- What a read gives, `n` characters later. -/
def shiftRead (n : Nat) (r : Except SyntaxError Lexeme × Cursor) :
    Except SyntaxError Lexeme × Cursor :=
  ((r.1.map (·.shift n)).mapError (·.shift n), r.2.shift n)

theorem shiftRanges_ok (ranges : List CharRange) (p : Nat) :
    shiftRanges n (.ok ranges, ⟨p, rest⟩) = (.ok ranges, ⟨p + n, rest⟩) := rfl

theorem shiftRanges_error (cause : SyntaxError.Cause) (start p : Nat) :
    shiftRanges n (.error ⟨cause, ⟨start, p⟩⟩, ⟨p, rest⟩) =
      (.error ⟨cause, ⟨start + n, p + n⟩⟩, ⟨p + n, rest⟩) := rfl

theorem readRanges_shift (ranges : List CharRange) (e : Expecting) :
    readRanges (opened + n) ranges (e.shift n) (p + n) rest =
      shiftRanges n (readRanges opened ranges e p rest) := by
  -- a step moves the position by one on both sides
  have hstep (p : Nat) : p + n + 1 = p + 1 + n := Nat.add_right_comm p n 1
  fun_induction readRanges opened ranges e p rest with
  | case1 ranges start p => rfl
  | case2 ranges start a backslash p => rfl
  | case3 ranges e p hescaped hescapedLast =>
    cases e with
    | item | dash | last => rfl
    | escaped start => exact absurd rfl (hescaped start)
    | escapedLast start a backslash => exact absurd rfl (hescapedLast start a backslash)
  | case4 ranges p rest => rw [Expecting.shift, readRanges, if_pos rfl, hstep, shiftRanges_ok]
  | case5 ranges p c rest hc ih =>
    rw [Expecting.shift, readRanges, if_neg hc, hstep, ← ih, Expecting.shift_after]
  | case6 ranges start p c rest ih => rw [Expecting.shift, readRanges, hstep, ← ih, Expecting.shift]
  | case7 ranges start a p rest ih =>
    rw [Expecting.shift, readRanges, if_pos rfl, hstep, ← ih, Expecting.shift]
  | case8 ranges start a p rest hdash =>
    rw [Expecting.shift, readRanges, if_neg hdash, if_pos rfl, hstep, shiftRanges_ok]
  | case9 ranges start a p c rest hdash hc ih =>
    rw [Expecting.shift, readRanges, if_neg hdash, if_neg hc, hstep, ← ih, Expecting.shift_after]
  | case10 ranges start a p rest => rw [Expecting.shift, readRanges, if_pos rfl, hstep, shiftRanges_ok]
  | case11 ranges start a p rest hclose ih =>
    rw [Expecting.shift, readRanges, if_neg hclose, if_pos rfl, hstep, ← ih, Expecting.shift]
  | case12 ranges start a p c rest hclose hescape hac ih =>
    rw [Expecting.shift, readRanges, if_neg hclose, if_neg hescape, if_pos hac, hstep, ← ih,
      Expecting.shift]
  | case13 ranges start a p c rest hclose hescape hac =>
    rw [Expecting.shift, readRanges, if_neg hclose, if_neg hescape, if_neg hac, hstep,
      shiftRanges_error]
  | case14 ranges start a backslash p c rest hac ih =>
    rw [Expecting.shift, readRanges, if_pos hac, hstep, ← ih, Expecting.shift]
  | case15 ranges start a backslash p c rest hac =>
    rw [Expecting.shift, readRanges, if_neg hac, hstep, shiftRanges_error]

theorem readBracket_shift (inverted : Bool) :
    readBracket (opened + n) inverted (p + n) rest =
      shiftRead n (readBracket opened inverted p rest) := by
  have hread := readRanges_shift opened p n rest [] .item
  rw [Expecting.shift] at hread
  rw [readBracket, readBracket, hread]
  obtain ⟨e | ranges, after⟩ := readRanges opened [] .item p rest
  · rfl
  · rfl

theorem next_shift (c : Cursor) : (c.shift n).next = shiftRead n c.next := by
  have hstep (p i : Nat) : p + n + i = p + i + n := Nat.add_right_comm p n i
  fun_cases next c with
  | case1 p => rfl
  | case2 p rest => rw [shift, next, hstep, readBracket_shift]
  | case3 p rest hcaret =>
    rw [shift, next, hstep, readBracket_shift]
    exact hcaret
  | case4 p =>
    rw [shift, next, hstep]
    rfl
  | case5 p c rest =>
    rw [shift, next, hstep]
    rfl
  | case6 p c rest hcaret hopen hend hescape =>
    rw [shift, next, hstep]
    · rfl
    · exact hcaret
    · exact hopen
    · exact hend
    · exact hescape

end Cursor

namespace TokenStream

/-- The same tokens and the same ending, `n` characters later. -/
def shift (s : TokenStream) (n : Nat) : TokenStream :=
  ⟨s.tokens.map fun t => (t.1, t.2.shift n), (s.ending.map (·.shift n)).mapError (·.shift n)⟩

/-- A token and its span, as a lexeme. -/
def lexeme (t : Token × Span) : Lexeme := ⟨some t.1, t.2⟩

theorem lexemes_shift (s : TokenStream) (n : Nat) :
    (s.shift n).lexemes = (s.lexemes.map (·.map (·.shift n))).mapError (·.shift n) := by
  obtain ⟨tokens, e | span⟩ := s
  · rfl
  · calc (shift ⟨tokens, .ok span⟩ n).lexemes
        = .ok ((tokens.map fun t => (t.1, t.2.shift n)).map lexeme ++
            [⟨none, span.shift n⟩]) := rfl
      _ = .ok ((tokens.map lexeme ++ [Lexeme.mk none span]).map (Lexeme.shift · n)) := by
        rw [List.map_append, List.map_map, List.map_map]
        rfl

end TokenStream

theorem Cursor.scan_shift (n : Nat) (c : Cursor) : (c.shift n).scan = c.scan.shift n := by
  fun_induction scan c with
  | case1 p => rw [shift, scan]; rfl
  | case2 p c rest e after h =>
    have hnext := next_shift n ⟨p, c :: rest⟩
    rw [h] at hnext
    exact scan_of_next_error hnext
  | case3 p c rest span after h =>
    have hnext := next_shift n ⟨p, c :: rest⟩
    rw [h] at hnext
    exact scan_of_next_end hnext
  | case4 p c rest t span after h later ih =>
    have hnext := next_shift n ⟨p, c :: rest⟩
    rw [h] at hnext
    rw [scan_of_next hnext, ih]
    rfl

end RegularLanguages
