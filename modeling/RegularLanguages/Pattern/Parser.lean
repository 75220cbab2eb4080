import RegularLanguages.Pattern.Basic
import RegularLanguages.Token.Lexer

/-!
# Parsing patterns

Patterns are read by recursive descent, with one token of lookahead:

    alternation   := concatenation ('|' concatenation)*
    concatenation := postfixed*
    postfixed     := atom ('*' | '?' | '+')*
    atom          := literal | '.' | class | '(' alternation ')'

A `Lookahead` is a place in the source with the token that comes next, and there is a function for
each phrase, which gives the pattern and the place behind it. An error while a token is read shows as
soon as the token before it is passed. The tree is built as written, nothing is reduced.

The functions end because a place is never left for one with more to read (`Lookahead.NoMore`), and
what is read as an atom, or after a bar, leaves less (`Lookahead.Less`).
-/

namespace RegularLanguages

/-- `p` under a postfix operator. -/
def Repetition.apply : Repetition → Pattern → Pattern
  | zeroOrMore, p => .star p
  | zeroOrOne, p => .alternation p .empty
  | oneOrMore, p => .concat [p, .star p]

/-- A place in the source: what comes next, and the cursor behind it. -/
structure Lookahead where
  current : Lexeme
  after : Cursor

namespace Lookahead

/-- How much is left to read: nothing at the end of the source. -/
def size (s : Lookahead) : Nat :=
  match s.current.token with
  | none => 0
  | some _ => s.after.rest.length + 1

theorem size_of_some {s : Lookahead} {t : Token} (h : s.current.token = some t) :
    s.size = s.after.rest.length + 1 := by
  rw [size, h]

theorem size_le_of_next {c after : Cursor} {lexeme : Lexeme} (h : c.next = (.ok lexeme, after)) :
    size ⟨lexeme, after⟩ ≤ c.rest.length := by
  obtain ⟨_ | t, span⟩ := lexeme
  · exact Nat.zero_le _
  · exact Cursor.rest_lt_of_next h

/-- A place from which no more is left to read than from `s`. -/
abbrev NoMore (s : Lookahead) := {s' : Lookahead // s'.size ≤ s.size}

/-- A place from which less is left to read than from `s`. -/
abbrev Less (s : Lookahead) := {s' : Lookahead // s'.size < s.size}

/-- Reads the token at `c`, to look at. -/
def ofCursor (c : Cursor) : Except SyntaxError {s : Lookahead // s.size ≤ c.rest.length} :=
  match h : c.next with
  | (.error e, _) => .error e
  | (.ok lexeme, after) => .ok ⟨⟨lexeme, after⟩, size_le_of_next h⟩

/-- Passes the token that comes next. -/
def advance (s : Lookahead) {t : Token} (h : s.current.token = some t) :
    Except SyntaxError s.Less := do
  let ⟨s', hs'⟩ ← ofCursor s.after
  return ⟨s', by rw [size_of_some h]; exact Nat.lt_succ_of_le hs'⟩

/-- Passes the closing parenthesis that has to come next. -/
def close (s : Lookahead) : Except SyntaxError s.Less :=
  match h : s.current.token with
  | some .rightParen => s.advance h
  | none => .error ⟨.unexpectedEnd, s.current.span⟩
  | some t => .error ⟨.unexpectedToken ⟨some .rightParen, some t⟩, s.current.span⟩

/-- Applies the postfix operators that come next to `p`. -/
def repetitions (p : Pattern) (s : Lookahead) : Except SyntaxError (Pattern × s.NoMore) :=
  match h : s.current.token with
  | some (.repetition op) => do
    let ⟨s₁, h₁⟩ ← s.advance h
    let (q, ⟨s₂, h₂⟩) ← repetitions (op.apply p) s₁
    return (q, ⟨s₂, Nat.le_of_lt (Nat.lt_of_le_of_lt h₂ h₁)⟩)
  | _ => return (p, ⟨s, Nat.le_refl _⟩)
termination_by s.size

mutual

def alternation (s : Lookahead) : Except SyntaxError (Pattern × s.NoMore) := do
  let (p, ⟨s₁, h₁⟩) ← concatenation s
  let (q, ⟨s₂, h₂⟩) ← branches p s₁
  return (q, ⟨s₂, Nat.le_trans h₂ h₁⟩)
termination_by (s.size, 5)
decreasing_by
  · exact Prod.Lex.right _ (by decide)
  · exact Prod.Lex.right' _ h₁ (by decide)

/-- The branches that come next, each behind a bar, as alternatives to `p`. -/
def branches (p : Pattern) (s : Lookahead) : Except SyntaxError (Pattern × s.NoMore) :=
  match h : s.current.token with
  | some .bar => do
    let ⟨s₁, h₁⟩ ← s.advance h
    let (q, ⟨s₂, h₂⟩) ← concatenation s₁
    let (r, ⟨s₃, h₃⟩) ← branches (.alternation p q) s₂
    return (r, ⟨s₃, Nat.le_of_lt (Nat.lt_of_le_of_lt (Nat.le_trans h₃ h₂) h₁)⟩)
  | _ => return (p, ⟨s, Nat.le_refl _⟩)
termination_by (s.size, 0)

def concatenation (s : Lookahead) : Except SyntaxError (Pattern × s.NoMore) := do
  let (ps, s') ← parts s
  return (.ofParts ps, s')
termination_by (s.size, 4)

/-- The parts of a concatenation. -/
def parts (s : Lookahead) : Except SyntaxError (List Pattern × s.NoMore) := do
  match ← postfixed s with
  | none => return ([], ⟨s, Nat.le_refl _⟩)
  | some (p, ⟨s₁, h₁⟩) =>
    let (ps, ⟨s₂, h₂⟩) ← parts s₁
    return (p :: ps, ⟨s₂, Nat.le_of_lt (Nat.lt_of_le_of_lt h₂ h₁)⟩)
termination_by (s.size, 3)

/-- An atom with its postfix operators, or `none` where no atom starts. -/
def postfixed (s : Lookahead) : Except SyntaxError (Option (Pattern × s.Less)) := do
  match ← atom s with
  | none =>
    match s.current.token with
    | some (.repetition op) => .error ⟨.nothingToRepeat op, s.current.span⟩
    | _ => return none
  | some (p, ⟨s₁, h₁⟩) =>
    let (q, ⟨s₂, h₂⟩) ← repetitions p s₁
    return some (q, ⟨s₂, Nat.lt_of_le_of_lt h₂ h₁⟩)
termination_by (s.size, 2)

/-- An atom, or `none` where none starts. -/
def atom (s : Lookahead) : Except SyntaxError (Option (Pattern × s.Less)) :=
  match h : s.current.token with
  | some .leftParen => return some (← group s h)
  | some (.literal c) => return some (.literal (.single c), ← s.advance h)
  | some .dot => return some (.literal .universal, ← s.advance h)
  | some (.bracket k) => return some (.literal k, ← s.advance h)
  | _ => return none
termination_by (s.size, 1)

/-- A pattern in parentheses. -/
def group (s : Lookahead) (h : s.current.token = some .leftParen) :
    Except SyntaxError (Pattern × s.Less) := do
  let ⟨s₁, h₁⟩ ← s.advance h
  let (p, ⟨s₂, h₂⟩) ← alternation s₁
  let ⟨s₃, h₃⟩ ← s₂.close
  return (p, ⟨s₃, Nat.lt_trans (Nat.lt_of_lt_of_le h₃ h₂) h₁⟩)
termination_by (s.size, 0)

end

/-- The pattern from here to the end of the source. -/
def parse (s : Lookahead) : Except SyntaxError Pattern := do
  let (p, ⟨s', _⟩) ← s.alternation
  match s'.current.token with
  | none => return p
  | some t => .error ⟨.unexpectedToken ⟨none, some t⟩, s'.current.span⟩

end Lookahead

/-- The pattern that `source` spells. -/
def Pattern.parse (source : List Char) : Except SyntaxError Pattern := do
  let ⟨s, _⟩ ← Lookahead.ofCursor (.start source)
  s.parse

end RegularLanguages
