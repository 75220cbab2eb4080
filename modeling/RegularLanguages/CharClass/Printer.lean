import RegularLanguages.CharClass.Basic

/-!
# Written forms of a character class

`CharClass.text` writes a class in pattern syntax: a dot for every character, a lone character as
itself, and brackets around anything else. A backslash stands before each character that would
otherwise be read as syntax; which ones those are differs inside and outside of brackets.
`CharClass.label` is the same text, save that the empty class is `∅`.
-/

namespace RegularLanguages

/-- Whether `c` has a meaning of its own outside of brackets. -/
def isOperatorChar (c : Char) : Bool :=
  c ∈ ['(', ')', '|', '*', '?', '+', '.', '[', ']', '\\']

/-- Whether `c` has a meaning of its own inside brackets. -/
def isBracketChar (c : Char) : Bool :=
  c ∈ [']', '[', '\\', '^', '-']

/-- A class member inside brackets. -/
def memberText (c : Char) : List Char :=
  if isBracketChar c then ['\\', c] else [c]

/-- A literal character outside of brackets. -/
def literalText (c : Char) : List Char :=
  if isOperatorChar c then ['\\', c] else [c]

/-- A range inside brackets. -/
def CharRange.text (r : CharRange) : List Char :=
  memberText r.first ++ if r.isSingle then [] else '-' :: memberText r.last

namespace CharClass

/-- The class in brackets, whatever its parts. -/
def bracketText (k : CharClass) : List Char :=
  '[' :: ((if k.inverted then ['^'] else []) ++ k.parts.flatMap CharRange.text ++ [']'])

/-- The class in pattern syntax. -/
def text (k : CharClass) : List Char :=
  match k with
  | ⟨[], true⟩ => ['.']
  | ⟨[r], false⟩ => if r.isSingle then literalText r.first else k.bracketText
  | _ => k.bracketText

/-- The class as it is shown to a reader. -/
def label (k : CharClass) : List Char := if k.isEmpty then ['∅'] else k.text

end CharClass

end RegularLanguages
