import RegularLanguages.Token

/-!
# Errors in a pattern

A `SyntaxError` has a cause and the span of the characters at fault. The first three causes are
found while a token is read, and their message tells the position; the others concern the order of
whole tokens.
-/

namespace RegularLanguages

/-- What had to come next and what comes instead; `none` is the end of the source. -/
structure SyntaxError.Mismatch where
  expected : Option Token
  found : Option Token

inductive SyntaxError.Cause where
  /-- A bracket expression without its closing bracket. -/
  | unclosedClass
  /-- A backslash with nothing after it. -/
  | trailingBackslash
  /-- A range in brackets that ends before it starts. -/
  | reversedRange (first last : Char)
  /-- A token other than the one that has to come next. -/
  | unexpectedToken (mismatch : SyntaxError.Mismatch)
  /-- A postfix operator without an operand. -/
  | nothingToRepeat (op : Repetition)
  /-- The end of the input inside a group. -/
  | unexpectedEnd

structure SyntaxError where
  cause : SyntaxError.Cause
  span : Span

namespace SyntaxError

/-- The message of an error found inside a token. -/
def lexicalMessage (span : Span) (what : String) : String :=
  s!"lexer error at position {span.start}: " ++ what

/-- The message of an error in the order of tokens. -/
def grammarMessage (what : String) : String := "parse error: " ++ what

/-- What went wrong. -/
def message : SyntaxError → String
  | ⟨.unclosedClass, span⟩ => lexicalMessage span "unclosed character class"
  | ⟨.trailingBackslash, span⟩ => lexicalMessage span "trailing backslash"
  | ⟨.reversedRange a b, span⟩ =>
    lexicalMessage span (String.ofList ("invalid range '".toList ++ [a, '-', b, '\'']))
  | ⟨.unexpectedToken m, _⟩ =>
    grammarMessage ("expected " ++ Token.describeNext m.expected ++ ", found " ++
      Token.describeNext m.found)
  | ⟨.nothingToRepeat op, _⟩ =>
    grammarMessage (String.ofList ("nothing to repeat before '".toList ++ [op.symbol, '\'']))
  | ⟨.unexpectedEnd, _⟩ => grammarMessage "unexpected end of input"

/-- What went wrong and where. -/
def locatedMessage (e : SyntaxError) : String :=
  e.message ++ s!" at position Span \x7b start: {e.span.start}, end: {e.span.stop} \x7d"

end SyntaxError

end RegularLanguages
