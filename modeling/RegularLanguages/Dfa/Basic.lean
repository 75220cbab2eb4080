import RegularLanguages.Alphabet
import RegularLanguages.Row

/-!
# Deterministic machines

A state of a `Dfa` has at most one target on each symbol; a text that finds no target is rejected.
State 0 is the start. As with nondeterministic machines, `add` takes a class of characters and
refines the alphabet if it must; the new edge takes the place of older ones on the same characters.

`copy` adds all edges again to a machine with the trivial alphabet, so the copy numbers its symbols
in the order in which its edges use them.
-/

namespace RegularLanguages

structure Dfa.State where
  isStart : Bool
  isAccept : Bool
  /-- The target on each symbol. -/
  edges : Row Nat
  deriving Inhabited

structure Dfa where
  alphabet : Alphabet
  states : Array Dfa.State
  deriving Inhabited

namespace Dfa

/-- The machine with nothing but a start. -/
def initial : Dfa := ⟨.trivial, #[⟨true, false, .empty⟩]⟩

/-- The number of the start state. -/
def start : Nat := 0

def size (d : Dfa) : Nat := d.states.size

def isEmpty (d : Dfa) : Bool := d.states.isEmpty

def state (d : Dfa) (id : Nat) : Except Fault State :=
  match d.states[id]? with
  | some s => .ok s
  | none => .error .indexOutOfBounds

def isAccept (d : Dfa) (id : Nat) : Except Fault Bool := return (← d.state id).isAccept

/-- All states with their numbers. -/
def numbered (d : Dfa) : List (Nat × State) := d.states.toList.zipIdx.map fun (s, id) => (id, s)

/-! ## Changes -/

/-- The number of the next state, and the machine with that state. -/
def addState (d : Dfa) : Nat × Dfa :=
  (d.states.size, { d with states := d.states.push ⟨false, false, .empty⟩ })

def setAccept (d : Dfa) (id : Nat) (value : Bool) : Except Fault Dfa := do
  let _ ← d.state id
  return { d with states := d.states.modify id fun s => { s with isAccept := value } }

/-- Refines the alphabet if it does not express `k`, and carries every edge over. -/
def express (d : Dfa) (k : CharClass) : Logged Dfa := do
  if d.alphabet.expresses k then return d
  let (alphabet, origins) ← d.alphabet.expand k
  return ⟨alphabet, d.states.map fun s => { s with edges := s.edges.renumber origins }⟩

/-- Adds an edge on the characters of `k`. The target must be there first of all, the source only
if there are any characters. -/
def add (d : Dfa) (source target : Nat) (k : CharClass) : Logged Dfa := do
  if d.size ≤ target then Logged.ofExcept (.error (.noDfaState target))
  if k.isEmpty then return d
  let d ← d.express k
  let _ ← d.state source
  let symbols := d.alphabet.symbolsOf k
  let addEdges (s : State) : State :=
    { s with edges := symbols.foldl (fun edges symbol => edges.set symbol target) s.edges }
  return { d with states := d.states.modify source addEdges }

/-- Adds the edges of one state of `d` to a machine with the same states. -/
def replayState (d : Dfa) (c : Dfa) : Nat × State → Logged Dfa
  | (id, s) => s.edges.entries.foldlM (fun c (symbol, target) => do
    c.add id target (← d.alphabet.block symbol)) c

/-- The same machine over an alphabet of its own. -/
def copy (d : Dfa) : Logged Dfa :=
  d.numbered.foldlM d.replayState
    ⟨.trivial, d.states.map fun s => { s with edges := .empty }⟩

/-! ## Runs -/

/-- The target of a state on `symbol`. -/
def targetOn? (d : Dfa) (id symbol : Nat) : Except Fault (Option Nat) :=
  return (← d.state id).edges.get? symbol

/-- The state that is reached from `id` by a text. -/
def run (d : Dfa) : Nat → List Char → Except Fault (Option Nat)
  | id, [] => .ok (some id)
  | id, c :: rest => do
    match ← d.targetOn? id (← d.alphabet.symbolOf c) with
    | none => return none
    | some target => d.run target rest

/-- Whether the machine accepts the whole text. -/
def accepts? (d : Dfa) (w : List Char) : Except Fault Bool := do
  match ← d.run start w with
  | none => return false
  | some id => d.isAccept id

end Dfa

end RegularLanguages
