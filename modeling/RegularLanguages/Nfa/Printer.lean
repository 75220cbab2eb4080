import RegularLanguages.Dump
import RegularLanguages.Nfa.Basic

/-!
# Dumps of nondeterministic machines
-/

namespace RegularLanguages.Nfa

/-- The lines of the edges on one symbol. -/
def symbolLines (m : Nfa) : Nat × List Nat → Except Fault (List Char)
  | (symbol, targets) => do
    let k ← m.alphabet.block symbol
    return targets.flatMap (Dump.edge · k.label)

def stateLines (m : Nfa) : Nat × State → Except Fault (List Char)
  | (id, s) => do
    let lines ← s.edges.entries.mapM m.symbolLines
    return Dump.header id s.isStart s.isAccept ++ lines.flatten ++
      s.epsilon.flatMap (Dump.edge · Dump.epsilonLabel) ++ ['\n']

/-- All states in the order of their numbers. -/
def dump (m : Nfa) : Except Fault (List Char) :=
  return (← m.states.mapM m.stateLines).flatten

end RegularLanguages.Nfa
