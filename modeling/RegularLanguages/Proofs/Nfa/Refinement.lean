import RegularLanguages.Proofs.Nfa.Change
import RegularLanguages.Proofs.Nfa.Run

/-!
# A machine is its graph

`Represents` compares a machine with a graph in all that can be asked of the machine: its states and
their roles, the targets on the symbol of each character, the epsilon targets, and the texts it
accepts. The machine that changes make of the empty one represents the graph of the same changes
after each of them, however its alphabet was refined and its symbols renumbered on the way.
-/

namespace RegularLanguages

namespace Nfa

open StateSet (Enumerates)

/-- The machine answers every question as the graph does. -/
structure Represents (m : Nfa) (g : Graph) : Prop where
  next : m.slots.size = g.next
  vertex : ∀ u, (∃ s, m.state? u = some s) ↔ g.vertex u
  start : Enumerates m.startStates g.start
  accept : Enumerates m.acceptStates g.accept
  onChar : ∀ u c, g.vertex u → ∃ x ts, m.alphabet.symbolOf c = .ok x ∧ m.targetsOn u x = .ok ts ∧
    Enumerates ts (g.edge u (some c))
  onEpsilon : ∀ u s, m.state? u = some s → Enumerates s.epsilon (g.edge u none)
  accepts : ∀ w, ∃ b, m.accepts? w = .ok b ∧ (b = true ↔ w ∈ g.language)

variable {m : Nfa}

theorem pairwise_states (m : Nfa) : m.states.Pairwise fun e e' => e.1 < e'.1 := by
  refine List.pairwise_filterMap.2 (List.pairwise_lt_range.imp fun {i j} hij => ?_)
  intro e he e' he'
  obtain ⟨_, -, rfl⟩ := Option.map_eq_some_iff.1 he
  obtain ⟨_, -, rfl⟩ := Option.map_eq_some_iff.1 he'
  exact hij

theorem enumerates_startStates (m : Nfa) : Enumerates m.startStates m.graph.start :=
  ⟨List.pairwise_map.2 (m.pairwise_states.filter _), fun _ => mem_startStates⟩

theorem enumerates_acceptStates (m : Nfa) : Enumerates m.acceptStates m.graph.accept :=
  ⟨List.pairwise_map.2 (m.pairwise_states.filter _), fun _ => mem_acceptStates⟩

theorem Valid.represents (h : m.Valid) : m.Represents m.graph where
  next := rfl
  vertex _ := exists_congr fun _ => (and_iff_left trivial).symm
  start := m.enumerates_startStates
  accept := m.enumerates_acceptStates
  onChar u c := by
    rintro ⟨s, hs, -⟩
    refine ⟨m.alphabet.index c, s.targetsOn (m.alphabet.index c), h.partition.symbolOf_eq c, ?_,
      (h.states u s hs).pairwise_targetsOn _, fun t => (edge_some_iff hs).symm⟩
    rw [targetsOn, state_eq_ok_iff.2 hs]
    rfl
  onEpsilon u s hs := ⟨(h.states u s hs).epsilon, fun _ => (edge_none_iff hs).symm⟩
  accepts := accepts?_spec h

/-- After each of the changes that go through, the machine is the graph of the changes so far. -/
theorem applyAll_represents {cs : List Change} (h : (empty.applyAll cs).outcome = .ok m) (n : Nat) :
    ∃ m', (empty.applyAll (cs.take n)).outcome = .ok m' ∧
      m'.Represents (Graph.empty.applyAll (cs.take n)) ∧
      ∀ id, ¬(Graph.empty.applyAll (cs.take n)).vertex id → m'.delete id = m' ∧
        (Graph.empty.applyAll (cs.take n)).delete id = Graph.empty.applyAll (cs.take n) := by
  obtain ⟨m', hm'⟩ := exists_applyAll_take h n
  obtain ⟨hvalid, hgraph⟩ := applyAll_spec valid_empty hm'
  rw [graph_empty] at hgraph
  rw [← hgraph]
  exact ⟨m', hm', hvalid.represents, fun id => hvalid.delete_of_not_vertex⟩

theorem tangled_represents : (∃ m, (empty.applyAll tangled).outcome = .ok m) ∧
    ∃ m, (empty.applyAll (tangled.take 16)).outcome = .ok m ∧
      m.Represents (Graph.empty.applyAll (tangled.take 16)) ∧
      ∀ id, ¬(Graph.empty.applyAll (tangled.take 16)).vertex id → m.delete id = m ∧
        (Graph.empty.applyAll (tangled.take 16)).delete id =
          Graph.empty.applyAll (tangled.take 16) := by
  obtain ⟨m, hm⟩ := exists_tangled
  exact ⟨⟨m, hm⟩, applyAll_represents hm 16⟩

end Nfa

end RegularLanguages
