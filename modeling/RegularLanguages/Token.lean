import RegularLanguages.CharClass.Printer

/-!
# Tokens of a pattern

A bracket expression is one token, so what reads tokens never sees class syntax. A `Span` says which
characters of the source a token was read from, counted from zero.
-/

namespace RegularLanguages

/-- The characters from `start` up to, but without, `stop`. -/
structure Span where
  start : Nat
  stop : Nat
  deriving DecidableEq, Inhabited

namespace Span

/-- The span of the one character at `position`. -/
def single (position : Nat) : Span := ⟨position, position + 1⟩

/-- How many characters the span holds; none if it is reversed. -/
def length (s : Span) : Nat := s.stop - s.start

/-- Whether the span starts where it stops. -/
def isEmpty (s : Span) : Bool := s.start = s.stop

end Span

/-- How often the operand of a postfix operator may occur. -/
inductive Repetition where
  | zeroOrMore
  | zeroOrOne
  | oneOrMore
  deriving DecidableEq

/-- The operator as it is written. -/
def Repetition.symbol : Repetition → Char
  | zeroOrMore => '*'
  | zeroOrOne => '?'
  | oneOrMore => '+'

inductive Token where
  | leftParen
  | rightParen
  | bar
  | repetition (op : Repetition)
  | dot
  /-- A character that stands for itself, escaped or not. -/
  | literal (c : Char)
  /-- A bracket expression. -/
  | bracket (k : CharClass)
  deriving Inhabited

namespace Token

/-- The token as it is named in messages. -/
def describe : Token → String
  | leftParen => "`(`"
  | rightParen => "`)`"
  | bar => "`|`"
  | repetition op => String.ofList ['`', op.symbol, '`']
  | dot => "`.`"
  | literal c => String.ofList ("literal `".toList ++ [c, '`'])
  | bracket k => String.ofList ("class `".toList ++ k.text ++ ['`'])

/-- The token that `c` is when it does not begin a longer one. -/
def ofChar : Char → Token
  | '(' => leftParen
  | ')' => rightParen
  | '|' => bar
  | '*' => repetition .zeroOrMore
  | '?' => repetition .zeroOrOne
  | '+' => repetition .oneOrMore
  | '.' => dot
  | c => literal c

end Token

/-- The name, in messages, of the place where no token is left. -/
def endOfInputName : String := "EOF"

/-- What comes next, a token or the end of the source, as it is named in messages. -/
def Token.describeNext : Option Token → String
  | none => endOfInputName
  | some t => t.describe

end RegularLanguages
