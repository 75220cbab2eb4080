import RegularLanguages.SyntaxError

/-!
# Reading tokens

A `Cursor` is a place in the source. `Cursor.next` reads one token and says where reading stopped,
also when it fails, so that one may go on after an error. A bracket expression is read one
character at a time by `Cursor.readRanges`, whose `Expecting` argument holds what has been read of
the item under way. A dash makes a range only if a character other than the closing bracket follows
it.

`Cursor.scan` reads all tokens up to the end of the source or the first error.
-/

namespace RegularLanguages

/-- What a read yields: a token, or `none` at the end of the source, and the span that it covers. -/
structure Lexeme where
  token : Option Token
  span : Span
  deriving Inhabited

/-- What is left to read, and how many characters were read before it. -/
structure Cursor where
  position : Nat
  rest : List Char
  deriving Inhabited

/-- What has been read of an item in brackets. -/
inductive Expecting where
  /-- Nothing: a new item or the closing bracket comes next. -/
  | item
  /-- The backslash at `start`. -/
  | escaped (start : Nat)
  /-- The character `a`, with which the item at `start` begins. -/
  | dash (start : Nat) (a : Char)
  /-- The character `a` and a dash. -/
  | last (start : Nat) (a : Char)
  /-- The character `a`, a dash and the backslash at `backslash`. -/
  | escapedLast (start : Nat) (a : Char) (backslash : Nat)

/-- What follows the first character of an item, `c` at `position`. -/
def Expecting.after (position : Nat) (c : Char) : Expecting :=
  if c = '\\' then .escaped position else .dash position c

namespace Cursor

/-- The cursor before the first character of `source`. -/
def start (source : List Char) : Cursor := ⟨0, source⟩

/-- Reads the ranges of the bracket expression opened at `opened` up to its closing bracket, after
`ranges`. -/
def readRanges (opened : Nat) (ranges : List CharRange) :
    Expecting → Nat → List Char → Except SyntaxError (List CharRange) × Cursor
  | .escaped start, p, [] => (.error ⟨.trailingBackslash, ⟨start, p⟩⟩, ⟨p, []⟩)
  | .escapedLast _ _ start, p, [] => (.error ⟨.trailingBackslash, ⟨start, p⟩⟩, ⟨p, []⟩)
  | _, p, [] => (.error ⟨.unclosedClass, ⟨opened, p⟩⟩, ⟨p, []⟩)
  | .item, p, c :: rest =>
    if c = ']' then (.ok ranges, ⟨p + 1, rest⟩)
    else readRanges opened ranges (.after p c) (p + 1) rest
  | .escaped start, p, c :: rest => readRanges opened ranges (.dash start c) (p + 1) rest
  | .dash start a, p, c :: rest =>
    if c = '-' then readRanges opened ranges (.last start a) (p + 1) rest
    else if c = ']' then (.ok (ranges ++ [.single a]), ⟨p + 1, rest⟩)
    else readRanges opened (ranges ++ [.single a]) (.after p c) (p + 1) rest
  | .last start a, p, c :: rest =>
    if c = ']' then (.ok (ranges ++ [.single a, .single '-']), ⟨p + 1, rest⟩)
    else if c = '\\' then readRanges opened ranges (.escapedLast start a p) (p + 1) rest
    else if a ≤ c then readRanges opened (ranges ++ [⟨a, c⟩]) .item (p + 1) rest
    else (.error ⟨.reversedRange a c, ⟨start, p + 1⟩⟩, ⟨p + 1, rest⟩)
  | .escapedLast start a _, p, c :: rest =>
    if a ≤ c then readRanges opened (ranges ++ [⟨a, c⟩]) .item (p + 1) rest
    else (.error ⟨.reversedRange a c, ⟨start, p + 1⟩⟩, ⟨p + 1, rest⟩)

/-- Reads a bracket expression whose opening bracket is at `opened`, from `p` on. -/
def readBracket (opened : Nat) (inverted : Bool) (p : Nat) (rest : List Char) :
    Except SyntaxError Lexeme × Cursor :=
  match readRanges opened [] .item p rest with
  | (.error e, after) => (.error e, after)
  | (.ok ranges, after) =>
    (.ok ⟨some (.bracket (.ofRanges ranges inverted)), ⟨opened, after.position⟩⟩, after)

/-- Reads one token. -/
def next : Cursor → Except SyntaxError Lexeme × Cursor
  | ⟨p, []⟩ => (.ok ⟨none, ⟨p, p⟩⟩, ⟨p, []⟩)
  | ⟨p, '[' :: '^' :: rest⟩ => readBracket p true (p + 2) rest
  | ⟨p, '[' :: rest⟩ => readBracket p false (p + 1) rest
  | ⟨p, ['\\']⟩ => (.error ⟨.trailingBackslash, ⟨p, p + 1⟩⟩, ⟨p + 1, []⟩)
  | ⟨p, '\\' :: c :: rest⟩ => (.ok ⟨some (.literal c), ⟨p, p + 2⟩⟩, ⟨p + 2, rest⟩)
  | ⟨p, c :: rest⟩ => (.ok ⟨some (.ofChar c), ⟨p, p + 1⟩⟩, ⟨p + 1, rest⟩)

/-- A character that begins no longer token is read alone. -/
theorem next_ofChar {c : Char} (hopen : c ≠ '[') (hescape : c ≠ '\\') (p : Nat) (rest : List Char) :
    next ⟨p, c :: rest⟩ = (.ok ⟨some (.ofChar c), ⟨p, p + 1⟩⟩, ⟨p + 1, rest⟩) := by
  rw [next]
  · exact fun _ h => absurd h hopen
  · exact hopen
  · exact fun h => absurd h hescape
  · exact fun _ _ h => absurd h hescape

theorem readRanges_rest_le (opened : Nat) (ranges : List CharRange) (e : Expecting) (p : Nat)
    (rest : List Char) : (readRanges opened ranges e p rest).2.rest.length ≤ rest.length := by
  fun_induction readRanges opened ranges e p rest <;> simp <;> omega

theorem readBracket_rest_le (opened : Nat) (inverted : Bool) (p : Nat) (rest : List Char) :
    (readBracket opened inverted p rest).2.rest.length ≤ rest.length := by
  have := readRanges_rest_le opened [] .item p rest
  unfold readBracket
  split <;> simp_all

/-- A read that is not at the end of the source moves on. -/
theorem next_rest_lt (p : Nat) (c : Char) (rest : List Char) :
    (next ⟨p, c :: rest⟩).2.rest.length < rest.length + 1 := by
  unfold next
  split <;> rename_i heq <;> simp only [mk.injEq, List.cons.injEq, reduceCtorEq, and_false] at heq
  · obtain ⟨-, -, rfl⟩ := heq
    exact Nat.lt_succ_of_le (Nat.le_succ_of_le (readBracket_rest_le ..))
  · obtain ⟨-, -, rfl⟩ := heq
    exact Nat.lt_succ_of_le (readBracket_rest_le ..)
  · exact Nat.succ_pos _
  · obtain ⟨-, -, rfl⟩ := heq
    exact Nat.lt_succ_of_le (Nat.le_succ _)
  · obtain ⟨-, -, rfl⟩ := heq
    exact Nat.lt_succ_self _

end Cursor

/-- The tokens before the end of the source, and the span of that end; or the tokens before the
first error, and that error. -/
structure TokenStream where
  tokens : List (Token × Span)
  ending : Except SyntaxError Span

/-- Reads all tokens from the cursor on. -/
def Cursor.scan : Cursor → TokenStream
  | ⟨p, []⟩ => ⟨[], .ok ⟨p, p⟩⟩
  | ⟨p, c :: rest⟩ =>
    match _h : next ⟨p, c :: rest⟩ with
    | (.error e, _) => ⟨[], .error e⟩
    | (.ok ⟨none, span⟩, _) => ⟨[], .ok span⟩
    | (.ok ⟨some token, span⟩, after) =>
      let later := scan after
      ⟨(token, span) :: later.tokens, later.ending⟩
termination_by cur => cur.rest.length
decreasing_by
  have := next_rest_lt p c rest
  simp_all

namespace Cursor

/-- A read that gives a token moves on. -/
theorem rest_lt_of_next {c after : Cursor} {t : Token} {span : Span}
    (h : c.next = (.ok ⟨some t, span⟩, after)) : after.rest.length < c.rest.length := by
  obtain ⟨p, _ | ⟨a, rest⟩⟩ := c
  · cases h
  · have hlt := next_rest_lt p a rest
    rwa [h] at hlt

/-- Reading all tokens, one read at a time. -/
theorem scan_eq (c : Cursor) : c.scan =
    match c.next with
    | (.error e, _) => ⟨[], .error e⟩
    | (.ok ⟨none, span⟩, _) => ⟨[], .ok span⟩
    | (.ok ⟨some t, span⟩, after) => ⟨(t, span) :: after.scan.tokens, after.scan.ending⟩ := by
  obtain ⟨p, _ | ⟨a, rest⟩⟩ := c
  · rw [scan, next]
  · rw [scan]
    split <;> rename_i heq <;> rw [heq]

variable {c c' : Cursor} {span : Span}

theorem scan_of_next {t : Token} (h : c.next = (.ok ⟨some t, span⟩, c')) :
    c.scan = ⟨(t, span) :: c'.scan.tokens, c'.scan.ending⟩ := by
  rw [scan_eq, h]

theorem scan_of_next_end (h : c.next = (.ok ⟨none, span⟩, c')) : c.scan = ⟨[], .ok span⟩ := by
  rw [scan_eq, h]

theorem scan_of_next_error {e : SyntaxError} (h : c.next = (.error e, c')) :
    c.scan = ⟨[], .error e⟩ := by
  rw [scan_eq, h]

end Cursor

namespace TokenStream

/-- The tokens of `source`. -/
def ofSource (source : List Char) : TokenStream := (Cursor.start source).scan

/-- The lexemes of a stream, the end included, unless it ends in an error. -/
def lexemes (s : TokenStream) : Except SyntaxError (List Lexeme) :=
  s.ending.map fun span => s.tokens.map (fun t => ⟨some t.1, t.2⟩) ++ [⟨none, span⟩]

/-- The lexemes of a stream that ends without an error are its tokens and the end. -/
theorem lexemes_eq_ok_iff {s : TokenStream} {ls : List Lexeme} : s.lexemes = .ok ls ↔
    ∃ span, s.ending = .ok span ∧
      s.tokens.map (fun t => ⟨some t.1, t.2⟩) ++ [⟨none, span⟩] = ls := by
  unfold lexemes
  cases s.ending with
  | error e => simp [Except.map]
  | ok span => simp [Except.map]

end TokenStream

end RegularLanguages
