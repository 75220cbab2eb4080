import RegularLanguages.Proofs.Nfa.Change
import RegularLanguages.Proofs.Nfa.Run
import RegularLanguages.Proofs.Pattern.Elimination

/-!
# The pattern of a machine matches what the machine accepts

The equations of a valid machine stand for its graph with nothing eliminated: every state has one,
and a move is the union of the blocks on the edges, with the empty text for an epsilon edge. What
elimination makes of them matches the language of the graph.
-/

open Computability

namespace RegularLanguages.Nfa

variable {m : Nfa}

theorem mem_eliminationOrder {u : Nat} : u ∈ m.eliminationOrder ↔ m.graph.vertex u := by
  simp only [eliminationOrder, startStates, List.mem_reverse, List.mem_append, List.mem_map,
    List.mem_filter, Prod.exists, exists_and_right, exists_eq_right, mem_states]
  constructor
  · rintro (⟨s, hs, -⟩ | ⟨s, hs, -⟩) <;> exact ⟨s, hs, trivial⟩
  · rintro ⟨s, hs, -⟩
    cases hstart : s.isStart
    · exact .inr ⟨s, hs, by simp [hstart]⟩
    · exact .inl ⟨s, hs, hstart⟩

theorem take_reverse_eliminationOrder (m : Nfa) :
    m.eliminationOrder.reverse.take m.startStates.length = m.startStates := by
  rw [eliminationOrder, List.reverse_reverse, List.take_left]

/-- The blocks on the edges to a state hold the characters that these edges read. -/
theorem blocks_spec (hm : m.Valid) {u : Nat} {s : State} (hs : m.state? u = some s) (t : Nat) :
    ∃ blocks, (s.edges.entries.filter fun e => e.2.contains t).mapM
        (fun e => m.alphabet.block e.1) = .ok blocks ∧
      ∀ c, (∃ b ∈ blocks, c ∈ b) ↔ m.graph.edge u (some c) t := by
  have hstate := hm.states u s hs
  obtain ⟨blocks, hblocks, hmem⟩ := Outcome.mapM_spec
    (l := s.edges.entries.filter fun e => e.2.contains t) fun e he =>
      hm.partition.block_eq (hstate.symbol_lt e (List.mem_of_mem_filter he))
  refine ⟨blocks, hblocks, fun c => ?_⟩
  rw [Outcome.exists_mem_iff_of_forall₂ (hmem.imp fun e b hb => hb c), edge_some_iff hs,
    hstate.mem_targetsOn]
  simp only [List.mem_filter, List.contains_iff_mem, and_assoc, Prod.exists]
  constructor
  · rintro ⟨x, ids, hids, ht, rfl⟩
    exact ⟨ids, hids, ht⟩
  · rintro ⟨ids, hids, ht⟩
    exact ⟨_, ids, hids, ht, rfl⟩

/-- A move from a state matches what its edges to the target read. -/
theorem move_spec (hm : m.Valid) {u : Nat} {s : State} (hs : m.state? u = some s) (t : Nat) :
    ∃ p, m.move s t = .ok p ∧ p.language = m.graph.reads u t := by
  obtain ⟨blocks, hblocks, hmem⟩ := blocks_spec hm hs t
  refine ⟨_, by rw [move, hblocks]; rfl, ?_⟩
  ext w
  have hclass : w ∈ (Pattern.ofClass (.unionAll blocks)).language ↔
      ∃ c, m.graph.edge u (some c) t ∧ w = [c] := by
    simp [hmem]
  show _ ↔ ∃ a, m.graph.edge u a t ∧ w = a.toList
  rw [Option.exists, edge_none_iff hs]
  simp only [Option.toList_some, Option.toList_none, ← hclass]
  split
  · rename_i hepsilon
    rw [Pattern.language_alt, Pattern.language_empty, Language.mem_add, Language.mem_one, or_comm]
    simp [List.contains_iff_mem.1 hepsilon]
  · rename_i hepsilon
    simp [mt List.contains_iff_mem.2 hepsilon]

theorem equation_spec (hm : m.Valid) (order : List Nat) {u : Nat} (hu : m.graph.vertex u) :
    ∃ e, m.equation order u = .ok e ∧ e.Denotes m.graph (· ∈ []) order u := by
  obtain ⟨s, hs, -⟩ := hu
  have hnone {last : Nat → Language Char} {v : Nat} : m.graph.routes (· ∈ []) last v = last v :=
    Graph.routes_of_not fun _ => List.not_mem_nil
  obtain ⟨_, htargets, -⟩ := Outcome.mapM_spec (f := m.state) (l := s.targets)
    (Q := fun _ _ => True) fun t ht => by
      obtain ⟨l, he⟩ := hm.exists_edge_of_mem_targets hs ht
      obtain ⟨st, hst, -⟩ := (hm.vertex_of_edge he).2
      exact ⟨st, state_eq_ok_iff.2 hst, trivial⟩
  obtain ⟨moves, hmoves, hreads⟩ := Outcome.mapM_spec (l := order) fun t _ => move_spec hm hs t
  refine ⟨⟨if s.isAccept then .empty else .null, moves⟩, ?_, ?_, hreads.imp fun v p hp => ?_⟩
  · simp [equation, state_eq_ok_iff.2 hs, htargets, hmoves]
  · ext w
    rw [hnone, Graph.ends]
    show w ∈ Pattern.language (if s.isAccept then .empty else .null) ↔ m.graph.accept u ∧ w = []
    rw [accept_iff hs]
    split
    · simp [*]
    · simp [*]
  · rw [hp, Graph.through, hnone]

/-- The equations of all states, before any of them is eliminated. -/
theorem equations_spec (hm : m.Valid) :
    ∃ equations, m.eliminationOrder.mapM (m.equation m.eliminationOrder) = .ok equations ∧
      List.Forall₂ (fun u e => e.Denotes m.graph (· ∈ []) m.eliminationOrder u)
        m.eliminationOrder equations :=
  Outcome.mapM_spec fun _ hu => equation_spec hm m.eliminationOrder (mem_eliminationOrder.1 hu)

/-- Elimination succeeds and keeps the language. -/
theorem toPattern_spec (hm : m.Valid) :
    ∃ p, m.toPattern.outcome = .ok p ∧ p.language = m.graph.language := by
  obtain ⟨equations, hequations, hdenotes⟩ := equations_spec hm
  have hinit : Elimination.Holds m.graph [] (m.eliminationOrder ++ []) ⟨equations, []⟩ := by
    rw [List.append_nil]
    exact ⟨hdenotes, .nil⟩
  have hsolved := hinit.rounds.solved
  rw [List.append_nil] at hsolved
  have hfinished := hsolved.finishAll (fun u a v he => List.mem_reverse.2
    (mem_eliminationOrder.2 (hm.vertex_of_edge he).2)) m.startStates.length
  rw [take_reverse_eliminationOrder] at hfinished
  refine ⟨_, by rw [toPattern, Logged.outcome_bind, Logged.outcome_ofExcept, hequations]; rfl, ?_⟩
  rw [Pattern.language_simplify]
  ext w
  rw [Pattern.mem_language_foldl_alt, Graph.mem_language,
    Outcome.exists_mem_iff_of_forall₂ (hfinished.imp fun u p hp => by
      rw [hp, Graph.mem_routes_ends_iff])]
  simp [mem_startStates]

/-- The pattern that elimination makes of a machine matches exactly the texts that it accepts. -/
theorem Reachable.mem_language_toPattern (h : m.Reachable) :
    ∃ p, m.toPattern.outcome = .ok p ∧
      ∀ w, ∃ b, m.accepts? w = .ok b ∧ (w ∈ p.language ↔ b = true) := by
  obtain ⟨p, hp, hlanguage⟩ := toPattern_spec h.valid
  refine ⟨p, hp, fun w => ?_⟩
  obtain ⟨b, hb, hiff⟩ := accepts?_spec h.valid w
  exact ⟨b, hb, by rw [hlanguage, hiff]⟩

theorem exists_toPattern_tangled : ∃ m, (empty.applyAll tangled).outcome = .ok m ∧ m.Reachable ∧
    ∃ p, m.toPattern.outcome = .ok p ∧
      ∀ w, ∃ b, m.accepts? w = .ok b ∧ (w ∈ p.language ↔ b = true) := by
  obtain ⟨m, hm⟩ := exists_tangled
  exact ⟨m, hm, ⟨tangled, hm⟩, Reachable.mem_language_toPattern ⟨tangled, hm⟩⟩

end RegularLanguages.Nfa
