import RegularLanguages.Alphabet
import RegularLanguages.Row
import RegularLanguages.StateSet

/-!
# Nondeterministic machines

The states of an `Nfa` are numbered in the order in which they were added, and a number is never
used again: deleting a state leaves its slot empty. Edges are labelled with symbols of the
machine's own alphabet, or with nothing (epsilon edges). `add` takes a class of characters. It
refines the alphabet first if the class is not a union of blocks, and the edge then stands on every
block of the class.

Each state also knows the states with an edge into it, so that `delete` finds the edges to remove.
-/

namespace RegularLanguages

structure Nfa.State where
  isStart : Bool
  isAccept : Bool
  /-- The targets on each symbol. -/
  edges : Row (List Nat)
  /-- The targets of epsilon edges. -/
  epsilon : List Nat
  /-- The states with an edge into this one. -/
  incoming : List Nat
  deriving Inhabited

namespace Nfa.State

/-- A state without edges. -/
def blank : State := ⟨false, false, .empty, [], []⟩

/-- The targets on `symbol`. -/
def targetsOn (s : State) (symbol : Nat) : List Nat := (s.edges.get? symbol).getD []

/-- The targets of all edges. -/
def targets (s : State) : List Nat := s.edges.entries.flatMap Prod.snd ++ s.epsilon

def addEdge (target : Nat) (s : State) (symbol : Nat) : State :=
  { s with edges := s.edges.set symbol (StateSet.insert target (s.targetsOn symbol)) }

def addEpsilon (target : Nat) (s : State) : State :=
  { s with epsilon := StateSet.insert target s.epsilon }

def addIncoming (source : Nat) (s : State) : State :=
  { s with incoming := StateSet.insert source s.incoming }

def dropIncoming (source : Nat) (s : State) : State :=
  { s with incoming := s.incoming.erase source }

/-- Removes the edges to `target`; a symbol without targets has no entry. -/
def dropTarget (target : Nat) (s : State) : State :=
  let entries := s.edges.entries.map fun (symbol, ids) => (symbol, ids.erase target)
  { s with
    edges := ⟨entries.filter fun (_, ids) => !ids.isEmpty⟩
    epsilon := s.epsilon.erase target }

end Nfa.State

/-- What an edge reads. -/
inductive Label where
  | epsilon
  | chars (k : CharClass)

structure Nfa where
  alphabet : Alphabet
  slots : Array (Option Nfa.State)
  deriving Inhabited

namespace Nfa

/-- The machine without states. -/
def empty : Nfa := ⟨.trivial, #[]⟩

/-- The state with the number `id`, unless it is deleted. -/
def state? (m : Nfa) (id : Nat) : Option State := (m.slots[id]?).join

def state (m : Nfa) (id : Nat) : Except Fault State :=
  match m.state? id with
  | some s => .ok s
  | none => .error (.noNfaState id)

/-- The states that are not deleted, with their numbers. -/
def states (m : Nfa) : List (Nat × State) :=
  (List.range m.slots.size).filterMap fun id => (m.state? id).map fun s => (id, s)

/-- How many states there are. -/
def size (m : Nfa) : Nat := m.states.length

def isEmpty (m : Nfa) : Bool := m.size = 0

def startStates (m : Nfa) : List Nat := (m.states.filter (·.2.isStart)).map Prod.fst

def acceptStates (m : Nfa) : List Nat := (m.states.filter (·.2.isAccept)).map Prod.fst

def isStart (m : Nfa) (id : Nat) : Except Fault Bool := return (← m.state id).isStart

def isAccept (m : Nfa) (id : Nat) : Except Fault Bool := return (← m.state id).isAccept

/-! ## Changes -/

/-- The number of the next state, and the machine with that state. -/
def addState (m : Nfa) : Nat × Nfa :=
  (m.slots.size, { m with slots := m.slots.push (some .blank) })

/-- Changes one state, if it is there. -/
def modify (m : Nfa) (id : Nat) (f : State → State) : Nfa :=
  { m with slots := m.slots.modify id (·.map f) }

def setStart (m : Nfa) (id : Nat) (value : Bool) : Except Fault Nfa := do
  let _ ← m.state id
  return m.modify id fun s => { s with isStart := value }

def setAccept (m : Nfa) (id : Nat) (value : Bool) : Except Fault Nfa := do
  let _ ← m.state id
  return m.modify id fun s => { s with isAccept := value }

/-- Removes a state and every edge into or out of it; a state that is not there stays away. -/
def delete (m : Nfa) (id : Nat) : Nfa :=
  match m.state? id with
  | none => m
  | some s =>
    let m := { m with slots := m.slots.setIfInBounds id none }
    let m := s.incoming.foldl (fun m source => m.modify source (.dropTarget id)) m
    s.targets.foldl (fun m target => m.modify target (.dropIncoming id)) m

/-- Refines the alphabet if it does not express `k`, and carries every edge over. -/
def express (m : Nfa) (k : CharClass) : Logged Nfa := do
  if m.alphabet.expresses k then return m
  let (alphabet, origins) ← m.alphabet.expand k
  return ⟨alphabet, m.slots.map (·.map fun s => { s with edges := s.edges.renumber origins })⟩

/-- Adds an edge. The target must be there, and then the source. An edge on the empty class is no
edge at all. -/
def add (m : Nfa) (source : Nat) (label : Label) (target : Nat) : Logged Nfa := do
  let _ ← m.state target
  let _ ← m.state source
  match label with
  | .epsilon => return (m.modify source (.addEpsilon target)).modify target (.addIncoming source)
  | .chars k =>
    if k.isEmpty then return m
    let m ← m.express k
    let symbols := m.alphabet.symbolsOf k
    let m := m.modify source fun s => symbols.foldl (.addEdge target) s
    return m.modify target (.addIncoming source)

end Nfa

end RegularLanguages
