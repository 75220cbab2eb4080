import RegularLanguages.Dfa.Basic

/-!
# Complete machines and complements

A machine is complete if every state has a target on every symbol. `complete` sends all missing
edges to one more state, which rejects and which nothing leaves. The complement of a machine accepts
in exactly the states of its completed copy that do not accept.
-/

namespace RegularLanguages.Dfa

def isComplete (d : Dfa) : Bool := d.states.all fun s => s.edges.size = d.alphabet.size

def complete (d : Dfa) : Dfa :=
  if d.isComplete then d
  else
    let (sink, d) := d.addState
    { d with states := d.states.map fun s => { s with edges := s.edges.fill d.alphabet.size sink } }

/-- Exchanges accepting and rejecting states. -/
def flip (d : Dfa) : Dfa :=
  { d with states := d.states.map fun s => { s with isAccept := !s.isAccept } }

def complement (d : Dfa) : Logged Dfa := return (← d.copy).complete.flip

end RegularLanguages.Dfa
