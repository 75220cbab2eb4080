import RegularLanguages.Nfa.Basic

/-!
# The machine of a pattern

Each node of a pattern becomes a `Fragment`, new states of which one is the entry and one the exit.
A text that the node matches labels a way from the entry to the exit. A fragment may have edges into
its entry and out of its exit, and the two may be one state; a repetition therefore runs through a
hub of its own, so that no way leads into the middle of what is repeated.
-/

namespace RegularLanguages

structure Fragment where
  entry : Nat
  exit : Nat
  deriving DecidableEq

namespace Fragment

/-- One state that is entry and exit. -/
def point (m : Nfa) : Fragment × Nfa :=
  let (id, m) := m.addState
  (⟨id, id⟩, m)

/-- Two states without a way between them. -/
def gap (m : Nfa) : Fragment × Nfa :=
  let (entry, m) := m.addState
  let (exit, m) := m.addState
  (⟨entry, exit⟩, m)

mutual

/-- The fragment of a pattern, and the machine with it. -/
def build : Pattern → Nfa → Logged (Fragment × Nfa)
  | .literal k, m => do
    let (f, m) := gap m
    return (f, ← m.add f.entry (.chars k) f.exit)
  | .concat [], m => return point m
  | .concat (p :: rest), m => do
    let (f, m) ← build p m
    buildAfter rest f m
  | .alternation p q, m => do
    let (entry, m) := m.addState
    let (f, m) ← build p m
    let (g, m) ← build q m
    let (exit, m) := m.addState
    let m ← m.add entry .epsilon f.entry
    let m ← m.add entry .epsilon g.entry
    let m ← m.add f.exit .epsilon exit
    let m ← m.add g.exit .epsilon exit
    return (⟨entry, exit⟩, m)
  | .star p, m => do
    let (hub, m) := m.addState
    let (f, m) ← build p m
    let m ← m.add hub .epsilon f.entry
    let m ← m.add f.exit .epsilon hub
    return (⟨hub, hub⟩, m)
  | .empty, m => return point m
  | .null, m => return gap m

/-- Puts the fragments of more parts after the fragment `f`. -/
def buildAfter : List Pattern → Fragment → Nfa → Logged (Fragment × Nfa)
  | [], f, m => return (f, m)
  | p :: rest, f, m => do
    let (g, m) ← build p m
    let m ← m.add f.exit .epsilon g.entry
    buildAfter rest ⟨f.entry, g.exit⟩ m

end

end Fragment

/-- A machine that accepts what `p` matches, with one start and one accepting state. -/
def Nfa.ofPattern (p : Pattern) : Logged Nfa := do
  let (f, m) ← Fragment.build p .empty
  let m ← m.setStart f.entry true
  let m ← m.setAccept f.exit true
  Logged.log (.assembled m.size m.alphabet.size)
  return m

end RegularLanguages
