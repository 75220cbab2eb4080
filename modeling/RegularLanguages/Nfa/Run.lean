import RegularLanguages.Nfa.Basic

/-!
# Runs of a nondeterministic machine

A run holds the set of states that the machine may be in. `closure` adds the states that epsilon
edges lead to, `step` follows the edges on one symbol, and a text is accepted if a state is left at
its end that accepts. All of these fault at an edge to a state that is not there.
-/

namespace RegularLanguages.Nfa

/-- Adds a state to those seen and puts it on the stack, unless it has been seen before. -/
def visit : List Nat × List Nat → Nat → List Nat × List Nat
  | (seen, stack), id =>
    if id ∈ seen then (seen, stack) else (StateSet.insert id seen, id :: stack)

/-- Takes states from the stack and visits their epsilon targets, until the stack is empty. No state
is put on the stack twice, so the number of slots bounds how many states are taken. -/
def exploreEpsilon (m : Nfa) : Nat → List Nat × List Nat → Except Fault (List Nat)
  | _, (seen, []) => .ok seen
  | 0, (seen, _) => .ok seen
  | fuel + 1, (seen, id :: stack) => do
    let s ← m.state id
    m.exploreEpsilon fuel (s.epsilon.foldl visit (seen, stack))

/-- The states that epsilon edges lead to from `ids`, with `ids` themselves. -/
def closure (m : Nfa) (ids : List Nat) : Except Fault (List Nat) :=
  m.exploreEpsilon (m.slots.size + 1) (ids.foldl visit ([], []))

/-- The targets of one state on `symbol`. -/
def targetsOn (m : Nfa) (id symbol : Nat) : Except Fault (List Nat) :=
  return (← m.state id).targetsOn symbol

/-- The states that are reached from a set by one character of the block `symbol`. -/
def step (m : Nfa) (ids : List Nat) (symbol : Nat) : Except Fault (List Nat) := do
  m.closure (← ids.mapM (m.targetsOn · symbol)).flatten

/-- The states that are reached from a set by a text. -/
def run (m : Nfa) : List Nat → List Char → Except Fault (List Nat)
  | ids, [] => .ok ids
  | [], _ => .ok []
  | ids, c :: rest => do m.run (← m.step ids (← m.alphabet.symbolOf c)) rest

/-- The states that the machine may be in before it reads anything. -/
def startSet (m : Nfa) : Except Fault (List Nat) := m.closure m.startStates

/-- Whether a state of the set accepts. -/
def anyAccepts (m : Nfa) (ids : List Nat) : Except Fault Bool := ids.anyM m.isAccept

/-- Whether the machine accepts the whole text. -/
def accepts? (m : Nfa) (w : List Char) : Except Fault Bool := do
  m.anyAccepts (← m.run (← m.startSet) w)

end RegularLanguages.Nfa
