import RegularLanguages.CharClass.Printer

/-!
# Patterns

A `Pattern` is a regular expression over character classes, as a tree. A tree may be redundant in
any way. The reducing constructors `ofClass`, `seq`, `alt`, `many`, `optional` and `plus` apply the
laws of `null` (matches nothing) and `empty` (matches the empty text) while they build, and
`simplify` rebuilds a tree through them.
-/

namespace RegularLanguages

inductive Pattern where
  /-- One character of the class. -/
  | literal (k : CharClass)
  /-- The parts one after another. -/
  | concat (parts : List Pattern)
  /-- Either side. -/
  | alternation (left right : Pattern)
  /-- Zero or more times. -/
  | star (base : Pattern)
  /-- The empty text. -/
  | empty
  /-- Nothing at all. -/
  | null
  deriving Inhabited

namespace Pattern

/-! ## Reducing constructors -/

/-- A literal; the empty class matches nothing. -/
def ofClass (k : CharClass) : Pattern := if k.isEmpty then null else literal k

/-- The parts without `empty`, those of a concatenation in its place; `none` if one part is
`null`. -/
def flatten : List Pattern → Option (List Pattern)
  | [] => some []
  | null :: _ => none
  | empty :: rest => flatten rest
  | concat inner :: rest => (flatten rest).map (inner ++ ·)
  | p :: rest => (flatten rest).map (p :: ·)

/-- The parts one after another, with no node for fewer than two. -/
def ofParts : List Pattern → Pattern
  | [] => empty
  | [p] => p
  | parts => concat parts

/-- A concatenation; a `null` part makes it `null`. -/
def seq (parts : List Pattern) : Pattern :=
  match flatten parts with
  | none => null
  | some flat => ofParts flat

/-- An alternation; a `null` side gives the other side. -/
def alt : Pattern → Pattern → Pattern
  | null, q => q
  | p, null => p
  | p, q => alternation p q

/-- A repetition; `empty` and `null` give `empty`. -/
def many : Pattern → Pattern
  | empty => empty
  | null => empty
  | p => star p

/-- At most once. -/
def optional (p : Pattern) : Pattern := alt p empty

/-- At least once. -/
def plus (p : Pattern) : Pattern := seq [p, many p]

/-! ## Whole trees -/

mutual

/-- Rebuilds the tree bottom-up through the reducing constructors. -/
def simplify : Pattern → Pattern
  | literal k => ofClass k
  | concat parts => seq (simplifyAll parts)
  | alternation p q => alt p.simplify q.simplify
  | star p => many p.simplify
  | empty => empty
  | null => null

def simplifyAll : List Pattern → List Pattern
  | [] => []
  | p :: rest => p.simplify :: simplifyAll rest

end

mutual

/-- Whether two trees are equal up to the way their classes are stored. -/
def sameAs : Pattern → Pattern → Bool
  | literal k, literal l => k.sameAs l
  | concat ps, concat qs => sameAsAll ps qs
  | alternation p q, alternation p' q' => p.sameAs p' && q.sameAs q'
  | star p, star q => p.sameAs q
  | empty, empty => true
  | null, null => true
  | _, _ => false

def sameAsAll : List Pattern → List Pattern → Bool
  | [], [] => true
  | p :: ps, q :: qs => p.sameAs q && sameAsAll ps qs
  | _, _ => false

end

end Pattern

end RegularLanguages
