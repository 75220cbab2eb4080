import RegularLanguages.Dfa.Basic
import RegularLanguages.Nfa.Run

/-!
# Determinisation

A state of the deterministic machine stands for a set of states of the nondeterministic one, namely
the set that a run holds. Starting from the set at the beginning of a run, each set is visited once:
every block of the alphabet gives a next set, which gets a state of its own if it is new. The empty
set gets none, for a missing edge rejects already.
-/

namespace RegularLanguages

/-- A determinisation under way. -/
structure Determinization where
  dfa : Dfa
  /-- The set that each state stands for. -/
  subsets : Array (List Nat)
  /-- The states not yet visited, and their sets. -/
  pending : List (Nat × List Nat)

namespace Determinization

def start (subset : List Nat) : Determinization := ⟨.initial, #[subset], [(Dfa.start, subset)]⟩

/-- The state that stands for `subset`, a new one if there is none. -/
def stateFor (d : Determinization) (subset : List Nat) : Nat × Determinization :=
  match d.subsets.findIdx? (· = subset) with
  | some id => (id, d)
  | none =>
    let (id, dfa) := d.dfa.addState
    (id, ⟨dfa, d.subsets.push subset, (id, subset) :: d.pending⟩)

/-- Follows the edges of a set on one block. -/
def follow (m : Nfa) (id : Nat) (subset : List Nat) (d : Determinization) :
    CharClass × Nat → Logged Determinization
  | (k, symbol) => do
    let next ← m.step subset symbol
    if next.isEmpty then return d
    let (target, d) := d.stateFor next
    return { d with dfa := ← d.dfa.add id target k }

/-- Follows the edges of the set that the state `id` stands for. -/
def visit (m : Nfa) (id : Nat) (subset : List Nat) (d : Determinization) :
    Logged Determinization := do
  Logged.log (.visiting subset id)
  let d := { d with dfa := ← d.dfa.setAccept id (← m.anyAccepts subset) }
  m.alphabet.blocks.zipIdx.foldlM (follow m id subset) d

/-- Visits states until none is pending, at most `fuel` of them. -/
def visitAll (m : Nfa) : Nat → Determinization → Logged Determinization
  | 0, d => return d
  | fuel + 1, d =>
    match d.pending with
    | [] => return d
    | (id, subset) :: rest => do visitAll m fuel (← visit m id subset { d with pending := rest })

end Determinization

/-- A deterministic machine that accepts the same texts. Each visit is to another set of states, so
the number of these sets bounds the visits. -/
def Nfa.toDfa (m : Nfa) : Logged Dfa := do
  let d ← Determinization.visitAll m (Nat.pow 2 m.slots.size) (.start (← m.startSet))
  Logged.log (.determinized m.size d.dfa.size d.dfa.alphabet.size)
  return d.dfa

end RegularLanguages
