import RegularLanguages.CharRange

/-!
# Character classes

A `CharClass` is a set of characters: those of its parts, or all the others when it is inverted.
`ofRanges` brings any ranges into the canonical form, in which the parts are in increasing order
with a character between any two of them, and no class has the whole domain as its one part.

`combine` applies a Boolean operation to two classes. Membership in a class changes only at a
*cut*, the start of a part or the character after its end, so between two cuts one character
decides for all. Below the first cut only the `inverted` flags count; therefore the result takes
its flag from them, and its parts are the stretches that disagree with that flag.
-/

namespace RegularLanguages

structure CharClass where
  parts : List CharRange
  inverted : Bool
  deriving Inhabited

namespace CharClass

def empty : CharClass := ⟨[], false⟩

def universal : CharClass := ⟨[], true⟩

def single (c : Char) : CharClass := ⟨[.single c], false⟩

/-- The class of one range, stored as it is. -/
def ofRange (r : CharRange) : CharClass := ⟨[r], false⟩

/-- Whether `c` belongs to the class. -/
def contains (k : CharClass) (c : Char) : Bool := k.parts.any (·.contains c) != k.inverted

instance : Membership Char CharClass := ⟨fun k c => k.contains c = true⟩

instance (k : CharClass) (c : Char) : Decidable (c ∈ k) :=
  inferInstanceAs (Decidable (k.contains c = true))

/-- Whether the class is stored as the empty one. -/
def isEmpty (k : CharClass) : Bool := k.parts.isEmpty && !k.inverted

/-- Whether the class is stored as the class of all characters. -/
def isUniversal (k : CharClass) : Bool := k.parts.isEmpty && k.inverted

/-! ## The canonical form -/

/-- Puts `r` before the first range that starts later than it. -/
def insertRange (r : CharRange) : List CharRange → List CharRange
  | [] => [r]
  | s :: rest => if r.first ≤ s.first then r :: s :: rest else s :: insertRange r rest

def sortRanges : List CharRange → List CharRange
  | [] => []
  | r :: rest => insertRange r (sortRanges rest)

/-- Joins `r` with the ranges after it that touch it, and so on from the first that does not. -/
def coalesceFrom (r : CharRange) : List CharRange → List CharRange
  | [] => [r]
  | s :: rest => if r.touches s then coalesceFrom (r.join s) rest else r :: coalesceFrom s rest

/-- Joins ranges that touch, in a list sorted by start. -/
def coalesce : List CharRange → List CharRange
  | [] => []
  | r :: rest => coalesceFrom r rest

/-- The class of all characters of `ranges`, or of all others. The whole domain is written as the
inverse of nothing. -/
def ofRanges (ranges : List CharRange) (inverted : Bool) : CharClass :=
  match coalesce (sortRanges ranges) with
  | [r] => if r = .full then ⟨[], !inverted⟩ else ⟨[r], inverted⟩
  | parts => ⟨parts, inverted⟩

/-! ## Boolean operations -/

/-- Adds a cut to cuts in increasing order. -/
def insertCut (c : Char) : List Char → List Char
  | [] => [c]
  | d :: rest =>
    if c < d then c :: d :: rest else if c = d then d :: rest else d :: insertCut c rest

/-- Where membership in a class with these parts can change, in increasing order. -/
def cuts : List CharRange → List Char
  | [] => []
  | r :: rest =>
    insertCut r.first <|
      match Scalar.next? r.last with
      | some c => insertCut c (cuts rest)
      | none => cuts rest

/-- The stretches that start at the cuts; the last one goes to the end of the domain. -/
def stretches : List Char → List CharRange
  | [] => []
  | [c] => [⟨c, Scalar.last⟩]
  | c :: d :: rest => ⟨c, (Scalar.prev? d).getD c⟩ :: stretches (d :: rest)

/-- The class of the characters `c` for which `op (a.contains c) (b.contains c)` holds. -/
def combine (op : Bool → Bool → Bool) (a b : CharClass) : CharClass :=
  let inverted := op a.inverted b.inverted
  let parts := (stretches (cuts (a.parts ++ b.parts))).filter fun s =>
    op (a.contains s.first) (b.contains s.first) != inverted
  ofRanges parts inverted

def union : CharClass → CharClass → CharClass := combine (· || ·)

def inter : CharClass → CharClass → CharClass := combine (· && ·)

def complement (k : CharClass) : CharClass := ⟨k.parts, !k.inverted⟩

/-- The characters of `a` that are not in `b`. -/
def diff (a b : CharClass) : CharClass := a.inter b.complement

def unionAll (ks : List CharClass) : CharClass := ks.foldl union empty

/-! ## Decision procedures -/

/-- Whether some character is in both. -/
def overlaps (a b : CharClass) : Bool := !(a.inter b).isEmpty

/-- Whether every character of `a` is in `b`. -/
def isSubset (a b : CharClass) : Bool := (a.diff b).isEmpty

/-- Whether `a` and `b` have the same characters, however they are stored. -/
def sameAs (a b : CharClass) : Bool := a.isSubset b && b.isSubset a

end CharClass

end RegularLanguages
