import RegularLanguages.Dfa.Basic
import RegularLanguages.Dump

/-!
# Dumps of deterministic machines
-/

namespace RegularLanguages.Dfa

def edgeLine (d : Dfa) : Nat × Nat → Except Fault (List Char)
  | (symbol, target) => return Dump.edge target (← d.alphabet.block symbol).label

def stateLines (d : Dfa) : Nat × State → Except Fault (List Char)
  | (id, s) => do
    let lines ← s.edges.entries.mapM d.edgeLine
    return Dump.header id s.isStart s.isAccept ++ lines.flatten ++ ['\n']

/-- All states in the order of their numbers. -/
def dump (d : Dfa) : Except Fault (List Char) :=
  return (← d.numbered.mapM d.stateLines).flatten

end RegularLanguages.Dfa
