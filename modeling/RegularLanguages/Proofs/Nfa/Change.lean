import RegularLanguages.Proofs.Nfa.Addition
import RegularLanguages.Proofs.Nfa.Deletion
import RegularLanguages.Proofs.Outcome

/-!
# Machines under change

A `Change` is one call of an operation that builds or alters a machine. A change that goes through
keeps a machine valid and does to its graph what it says; so every machine that changes lead to from
the empty one is valid, and its graph is the graph of the changes.
-/

namespace RegularLanguages

namespace Nfa

inductive Change where
  | addState
  | add (source : Nat) (label : Label) (target : Nat)
  | setStart (id : Nat) (value : Bool)
  | setAccept (id : Nat) (value : Bool)
  | delete (id : Nat)

def Change.apply (m : Nfa) : Change → Logged Nfa
  | .addState => return m.addState.2
  | .add source label target => m.add source label target
  | .setStart id value => m.setStart id value
  | .setAccept id value => m.setAccept id value
  | .delete id => return m.delete id

/-- The machine after the changes. -/
def applyAll (m : Nfa) (cs : List Change) : Logged Nfa := cs.foldlM Change.apply m

/-- The machine is what some changes make of the empty one. -/
def Reachable (m : Nfa) : Prop := ∃ cs, (empty.applyAll cs).outcome = .ok m

end Nfa

namespace Graph

/-- What a change of a machine does to its graph. -/
def apply (g : Graph) : Nfa.Change → Graph
  | .addState => g.addVertex
  | .add source label target => g.addEdges source label target
  | .setStart id value => g.setStart id value
  | .setAccept id value => g.setAccept id value
  | .delete id => g.delete id

def applyAll (g : Graph) (cs : List Nfa.Change) : Graph := cs.foldl apply g

end Graph

namespace Nfa

variable {m m' : Nfa}

theorem vertex_of_state_eq_ok {u : Nat} {s : State} (h : m.state u = .ok s) : m.graph.vertex u :=
  ⟨s, state_eq_ok_iff.1 h, trivial⟩

theorem apply_spec (h : m.Valid) {c : Change} (hc : (c.apply m).outcome = .ok m') :
    m'.Valid ∧ m'.graph = m.graph.apply c := by
  cases c with
  | addState =>
    cases hc
    exact ⟨h.addState, graph_addState m⟩
  | add source label target =>
    obtain ⟨t, ht, hc'⟩ := Logged.bind_eq_ok_iff.1 ((Logged.outcome_bind _ _).symm.trans hc)
    obtain ⟨s, hs, -⟩ := Logged.bind_eq_ok_iff.1 ((Logged.outcome_bind _ _).symm.trans hc')
    obtain ⟨m₁, hm₁, hspec⟩ :=
      add_spec h (vertex_of_state_eq_ok hs) (vertex_of_state_eq_ok ht) label
    cases hm₁.symm.trans hc
    exact hspec
  | setStart id value =>
    obtain ⟨s, hs, -⟩ := Logged.bind_eq_ok_iff.1 hc
    obtain ⟨m₁, hm₁, hspec⟩ := setStart_spec h (vertex_of_state_eq_ok hs) value
    cases hm₁.symm.trans hc
    exact hspec
  | setAccept id value =>
    obtain ⟨s, hs, -⟩ := Logged.bind_eq_ok_iff.1 hc
    obtain ⟨m₁, hm₁, hspec⟩ := setAccept_spec h (vertex_of_state_eq_ok hs) value
    cases hm₁.symm.trans hc
    exact hspec
  | delete id =>
    cases hc
    exact delete_spec h id

theorem outcome_applyAll_cons (m : Nfa) (c : Change) (cs : List Change) :
    (m.applyAll (c :: cs)).outcome = (c.apply m).outcome >>= fun m => (m.applyAll cs).outcome := by
  rw [applyAll, List.foldlM_cons, Logged.outcome_bind]
  rfl

theorem applyAll_spec (h : m.Valid) {cs : List Change} (hcs : (m.applyAll cs).outcome = .ok m') :
    m'.Valid ∧ m'.graph = m.graph.applyAll cs := by
  induction cs generalizing m with
  | nil =>
    cases hcs
    exact ⟨h, rfl⟩
  | cons c rest ih =>
    rw [outcome_applyAll_cons] at hcs
    obtain ⟨m₁, hm₁, hrest⟩ := Logged.bind_eq_ok_iff.1 hcs
    obtain ⟨h₁, hg₁⟩ := apply_spec h hm₁
    obtain ⟨h', hg'⟩ := ih h₁ hrest
    exact ⟨h', by rw [hg', hg₁]; rfl⟩

/-- Changes that go through go through from the first to any of them. -/
theorem exists_applyAll_take {cs : List Change} (hcs : (m.applyAll cs).outcome = .ok m') (n : Nat) :
    ∃ m₁, (m.applyAll (cs.take n)).outcome = .ok m₁ := by
  induction cs generalizing m n with
  | nil => exact ⟨m', by rw [List.take_nil]; exact hcs⟩
  | cons c rest ih =>
    cases n with
    | zero => exact ⟨m, rfl⟩
    | succ n =>
      rw [outcome_applyAll_cons] at hcs
      obtain ⟨m₁, hm₁, hrest⟩ := Logged.bind_eq_ok_iff.1 hcs
      obtain ⟨m₂, hm₂⟩ := ih hrest n
      exact ⟨m₂, by rw [List.take_succ_cons, outcome_applyAll_cons, hm₁]; exact hm₂⟩

theorem Reachable.valid (h : m.Reachable) : m.Valid := by
  obtain ⟨cs, hcs⟩ := h
  exact (applyAll_spec valid_empty hcs).1

/-- Two starts that reach each other over classes that overlap, epsilon edges in a circle, an edge
from a state to itself, and a state that is deleted twice. -/
def tangled : List Change :=
  [.addState, .addState, .addState, .addState, .setStart 0 true, .setStart 1 true,
    .setAccept 2 true, .add 0 (.chars (.ofRanges [⟨'a', 'm'⟩] false)) 1,
    .add 1 (.chars (.ofRanges [⟨'g', 'z'⟩] false)) 0, .add 1 .epsilon 2, .add 2 .epsilon 1,
    .add 2 (.chars (.single 'q')) 2, .add 0 (.chars (.single 'x')) 3, .add 3 .epsilon 2, .delete 3,
    .delete 3]

theorem exists_tangled : ∃ m, (empty.applyAll tangled).outcome = .ok m :=
  Outcome.exists_ok_of_isOk (by decide +kernel)

end Nfa

end RegularLanguages
