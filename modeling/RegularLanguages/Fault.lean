import RegularLanguages.Quoted

/-!
# Misuse of a value

A `Fault` is what goes wrong when an operation is given something its caller must not give it: a
reversed range, a state that does not exist, an index past the end of a list. Reading a pattern
never faults; its errors are a `SyntaxError`.
-/

namespace RegularLanguages

inductive Fault where
  /-- The bounds of a range in the wrong order. -/
  | reversedRange (first last : Char)
  /-- A state that a nondeterministic machine never had or has deleted. -/
  | noNfaState (id : Nat)
  /-- A state that a deterministic machine does not have. -/
  | noDfaState (id : Nat)
  /-- A position past the end of a list of blocks or states. -/
  | indexOutOfBounds
  /-- A character outside every block of an alphabet. -/
  | uncoveredCharacter
  /-- A language that holds no representation. -/
  | noRepresentation
  deriving DecidableEq

def Fault.message : Fault → String
  | reversedRange a b => "invalid char range " ++ Quoted.char a ++ "-" ++ Quoted.char b
  | noNfaState id => s!"NFA state {id} does not exist"
  | noDfaState id => s!"DFA state {id} does not exist"
  | indexOutOfBounds => "index out of bounds"
  | uncoveredCharacter => "alphabet blocks cover every character"
  | noRepresentation => "a language always holds at least one representation"

end RegularLanguages
