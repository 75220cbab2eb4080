import RegularLanguages.Dfa.Basic
import RegularLanguages.Nfa.Basic

/-!
# A deterministic machine as a nondeterministic one

The states keep their numbers and roles, and every edge is added with the characters of its block.
-/

namespace RegularLanguages.Dfa

/-- Adds the roles and the edges of one state of `d` to a machine with the same states. -/
def embedState (d : Dfa) (m : Nfa) : Nat × State → Logged Nfa
  | (id, s) => do
    let m ← m.setStart id s.isStart
    let m ← m.setAccept id s.isAccept
    s.edges.entries.foldlM (fun (m : Nfa) (symbol, target) => do
      m.add id (.chars (← d.alphabet.block symbol)) target) m

/-- A nondeterministic machine that accepts the same texts. -/
def toNfa (d : Dfa) : Logged Nfa := do
  let m ← d.numbered.foldlM d.embedState ⟨.trivial, Array.replicate d.size (some .blank)⟩
  Logged.log (.embedded m.size m.alphabet.size)
  return m

end RegularLanguages.Dfa
