import RegularLanguages.Logged

/-!
# Alphabets

An `Alphabet` divides all characters into blocks, and machines label their edges with the numbers
of blocks, called *symbols*. It starts as one block. `refine` divides each block that a class cuts
in two, so that the class becomes a union of blocks; blocks are renumbered on the way, and the
*origins* it returns give the old number of every new block.
-/

namespace RegularLanguages

structure Alphabet where
  blocks : List CharClass
  deriving Inhabited

namespace Alphabet

/-- All characters in one block. -/
def trivial : Alphabet := ⟨[.universal]⟩

def size (a : Alphabet) : Nat := a.blocks.length

/-- The block with the number `symbol`. -/
def block (a : Alphabet) (symbol : Nat) : Except Fault CharClass :=
  match a.blocks[symbol]? with
  | some k => .ok k
  | none => .error .indexOutOfBounds

/-- The block that `c` is in. -/
def symbolOf (a : Alphabet) (c : Char) : Except Fault Nat :=
  match a.blocks.findIdx? (·.contains c) with
  | some symbol => .ok symbol
  | none => .error .uncoveredCharacter

/-- The first block that overlaps `k`. -/
def firstSymbol? (a : Alphabet) (k : CharClass) : Option Nat := a.blocks.findIdx? (·.overlaps k)

/-- The blocks that overlap `k`. -/
def symbolsOf (a : Alphabet) (k : CharClass) : List Nat :=
  a.blocks.zipIdx.filterMap fun (b, symbol) => if b.overlaps k then some symbol else none

/-- Whether `k` is the union of the blocks that overlap it. -/
def expresses (a : Alphabet) (k : CharClass) : Bool :=
  (CharClass.unionAll (a.blocks.filter (·.overlaps k))).sameAs k

/-- A block as `k` divides it: what is inside `k` and what is outside, if there is both. -/
def divide (k b : CharClass) : List CharClass :=
  let inside := b.inter k
  if inside.isEmpty || inside.sameAs b then [b] else [inside, b.diff inside]

/-- The new blocks, each with the number of the block that it came from. -/
def pieces (a : Alphabet) (k : CharClass) : List (CharClass × Nat) :=
  a.blocks.zipIdx.flatMap fun (b, symbol) => (divide k b).map fun piece => (piece, symbol)

/-- The alphabet with every block divided by `k`, and the origins of its blocks. -/
def refine (a : Alphabet) (k : CharClass) : Alphabet × List Nat :=
  (⟨(a.pieces k).map Prod.fst⟩, (a.pieces k).map Prod.snd)

/-- Refines and logs it. -/
def expand (a : Alphabet) (k : CharClass) : Logged (Alphabet × List Nat) := do
  let refined := a.refine k
  Logged.log (.refined k a.size refined.1.size)
  return refined

end Alphabet

end RegularLanguages
