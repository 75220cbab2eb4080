import RegularLanguages.CharClass.Printer

/-!
# Lines of a machine's dump

A dump has a paragraph for each state: a header with the state's number and roles, then one line for
each edge, then a blank line.
-/

namespace RegularLanguages.Dump

def number (n : Nat) : List Char := Nat.toDigits 10 n

def header (id : Nat) (isStart isAccept : Bool) : List Char :=
  "State ".toList ++ number id ++ [':'] ++ (if isStart then " (start)".toList else []) ++
    (if isAccept then " (accept)".toList else []) ++ ['\n']

/-- An edge to `target`, and what it reads. -/
def edge (target : Nat) (label : List Char) : List Char :=
  "  --> ".toList ++ number target ++ " on ".toList ++ label ++ ['\n']

/-- The label of an edge that reads nothing. -/
def epsilonLabel : List Char := ['ε']

end RegularLanguages.Dump
