import RegularLanguages.Nfa.Basic

/-!
# The pattern of a machine

The states of a machine are the unknowns of a system of equations: what is accepted from a state is
the text that ends there, or a move to a state followed by what is accepted from that one. The
equations are solved by elimination. A `round` solves the first open equation for its own unknown
and puts the solution into the others; the start states come last, so that at the end only they can
occur in a solution, and each solved equation mentions only those solved after it. Putting the
solutions of the start states into one another gives their patterns.
-/

namespace RegularLanguages

/-- One equation: how the texts accepted from a state end there, and how they move on to each state
whose equation is open, in the order of these equations. -/
structure Equation where
  finish : Pattern
  moves : List Pattern
  deriving Inhabited

namespace Equation

/-- Solves an equation for the first unknown, its own: going round any number of times comes before
everything else. -/
def solve : Equation → Equation
  | ⟨finish, []⟩ => ⟨finish, []⟩
  | ⟨finish, own :: moves⟩ =>
    ⟨.seq [.many own, finish], moves.map fun p => .seq [.many own, p]⟩

/-- Puts the solution for the first unknown into an equation. -/
def substitute (solved : Equation) : Equation → Equation
  | ⟨finish, []⟩ => ⟨finish, []⟩
  | ⟨finish, .null :: moves⟩ => ⟨finish, moves⟩
  | ⟨finish, via :: moves⟩ =>
    ⟨.alt finish (.seq [via, solved.finish]),
      moves.zipWith (fun p q => .alt p (.seq [via, q])) solved.moves⟩

end Equation

/-- A system of equations. -/
structure Elimination where
  /-- The open equations, each with a move for every open equation. -/
  pending : List Equation
  /-- The solved equations, last solved first; the moves of each lead to the unknowns solved after
  it. -/
  solved : List Equation

namespace Elimination

/-- Solves the first open equation and eliminates its unknown from the others. -/
def round (s : Elimination) : Elimination :=
  match s.pending with
  | [] => s
  | e :: rest => ⟨rest.map e.solve.substitute, e.solve :: s.solved⟩

def rounds : Nat → Elimination → Elimination
  | 0, s => s
  | n + 1, s => rounds n s.round

/-- Puts finished patterns, in the order of `moves`, behind the moves to them. -/
def conclude (e : Equation) (finished : List Pattern) : Pattern :=
  (e.moves.reverse.zip finished).foldl (fun p (move, rest) => .alt p (.seq [move, rest])) e.finish

/-- The finished patterns of solved equations, the last solved first. -/
def finishAll (solved : List Equation) : List Pattern :=
  solved.foldl (fun finished e => finished ++ [conclude e finished]) []

end Elimination

namespace Nfa

/-- The order in which the equations of the states are solved: start states last, and otherwise
from the greatest number down. -/
def eliminationOrder (m : Nfa) : List Nat :=
  (m.startStates ++ (m.states.filter (!·.2.isStart)).map Prod.fst).reverse

/-- Every single move from a state to `target`. -/
def move (m : Nfa) (s : State) (target : Nat) : Except Fault Pattern := do
  let reading := s.edges.entries.filter fun (_, targets) => targets.contains target
  let blocks ← reading.mapM fun (symbol, _) => m.alphabet.block symbol
  let p := Pattern.ofClass (.unionAll blocks)
  return if s.epsilon.contains target then .alt p .empty else p

/-- The equation of a state. All targets of its edges must be there. -/
def equation (m : Nfa) (order : List Nat) (id : Nat) : Except Fault Equation := do
  let s ← m.state id
  let _ ← s.targets.mapM m.state
  return ⟨if s.isAccept then .empty else .null, ← order.mapM (m.move s)⟩

/-- A pattern that matches what the machine accepts. -/
def toPattern (m : Nfa) : Logged Pattern := do
  let order := m.eliminationOrder
  let equations ← Logged.ofExcept (order.mapM (m.equation order))
  let solved := (Elimination.rounds order.length ⟨equations, []⟩).solved
  let finished := Elimination.finishAll (solved.take m.startStates.length)
  let p := (finished.foldl Pattern.alt .null).simplify
  Logged.log (.eliminated order.length p)
  return p

end Nfa

end RegularLanguages
