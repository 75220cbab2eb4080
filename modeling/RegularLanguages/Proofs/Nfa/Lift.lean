import RegularLanguages.Proofs.Dfa.Complement

/-!
# The lift of a deterministic machine

`Lifts d m` compares a deterministic machine with a nondeterministic one: the same states in the
same roles, no edge that reads nothing, and from each state on each character one target where `d`
has one and none where `d` has none. The machine that `toNfa` gives is such a lift, although its
alphabet has other blocks in another order, so it loses nothing of `d` and adds nothing.
-/

namespace RegularLanguages

/-- `m` is `d` with sets of targets. -/
structure Dfa.Lifts (d : Dfa) (m : Nfa) : Prop where
  size : m.size = d.size
  state : ∀ q s, d.state q = .ok s →
    ∃ t, m.state q = .ok t ∧ t.isStart = s.isStart ∧ t.isAccept = s.isAccept
  targets : ∀ q c, q < d.size → ∃ x y o, d.alphabet.symbolOf c = .ok x ∧
    m.alphabet.symbolOf c = .ok y ∧ d.targetOn? q x = .ok o ∧ m.targetsOn q y = .ok o.toList
  epsilon : ∀ q t, m.state q = .ok t → t.epsilon = []
  deterministic : ∀ q t, m.state q = .ok t → ∀ e ∈ t.edges.entries, e.2.length ≤ 1
  accepts : ∀ w, ∃ b, d.accepts? w = .ok b ∧ m.accepts? w = .ok b

namespace Nfa

variable {m : Nfa}

theorem start_iff {u : Nat} {s : State} (hs : m.state? u = some s) :
    m.graph.start u ↔ s.isStart = true :=
  has_of_state? hs

/-- There are as many states as slots if none is deleted. -/
theorem size_eq_of_forall_vertex (h : ∀ u, u < m.slots.size → m.graph.vertex u) :
    m.size = m.slots.size := by
  have hsome : ∀ u ∈ List.range m.slots.size,
      ((m.state? u).map fun s => (u, s)).isSome = true := fun u hu => by
    obtain ⟨s, hs, -⟩ := h u (List.mem_range.1 hu)
    rw [hs]
    rfl
  rw [size, states, List.length_filterMap_eq_countP, List.countP_eq_length.2 hsome,
    List.length_range]

end Nfa

namespace Dfa

variable {d : Dfa} {m : Nfa} {q : Nat} {t : Nfa.State}

section Embedded

variable (h : Embedded d d.chart.size m)
include h

theorem Embedded.vertex_iff : m.graph.vertex q ↔ q < d.size := by
  rw [h.graph]
  exact .rfl

theorem Embedded.size_eq : m.size = d.size := by
  have hslots : m.slots.size = d.size := congrArg Graph.next h.graph
  rw [← hslots]
  exact Nfa.size_eq_of_forall_vertex fun u hu => h.vertex_iff.2 (hslots ▸ hu)

/-- The state with the same number has the same roles. -/
theorem Embedded.exists_state {s : State} (hs : d.states[q]? = some s) :
    ∃ t, m.state? q = some t ∧ t.isStart = s.isStart ∧ t.isAccept = s.isAccept := by
  have hq : q < d.chart.size := (Array.getElem?_eq_some_iff.1 hs).1
  obtain ⟨t, ht, -⟩ := h.vertex_iff.2 hq
  refine ⟨t, ht, ?_, ?_⟩
  · rw [Bool.eq_iff_iff, ← Nfa.start_iff ht, ← start_iff hs, h.graph]
    exact and_iff_right hq
  · rw [Bool.eq_iff_iff, ← Nfa.accept_iff ht, ← accept_iff hs, h.graph]
    exact and_iff_right hq

theorem Embedded.epsilon_eq_nil (ht : m.state? q = some t) : t.epsilon = [] := by
  refine List.eq_nil_iff_forall_not_mem.2 fun v hv => ?_
  have hedge := (Nfa.edge_none_iff ht).2 hv
  rw [h.graph] at hedge
  obtain ⟨-, c, hc, -⟩ := hedge
  cases hc

/-- The targets on a character are where the chart leads. -/
theorem Embedded.targetsOn_eq (hd : d.Valid) (ht : m.state? q = some t) (c : Char) :
    t.targetsOn (m.alphabet.index c) = (d.chart.move q c).toList := by
  refine StateSet.Enumerates.unique ⟨(h.valid.states q t ht).pairwise_targetsOn _, fun v => ?_⟩
    (StateSet.enumerates_toList _)
  rw [← Nfa.edge_some_iff ht, h.graph, Chart.edge_embed_iff hd.closed]

theorem Embedded.length_le_one (hd : d.Valid) (ht : m.state? q = some t) {e : Nat × List Nat}
    (he : e ∈ t.edges.entries) : e.2.length ≤ 1 := by
  have hstate := h.valid.states q t ht
  obtain ⟨c, hc⟩ := h.valid.partition.exists_index_eq (hstate.symbol_lt e he)
  have htargets : t.targetsOn (m.alphabet.index c) = e.2 := by
    rw [hc, Nfa.State.targetsOn, hstate.sorted.get?_eq_some_iff.2 he, Option.getD_some]
  rw [← htargets, h.targetsOn_eq hd ht]
  exact Option.length_toList_le

theorem Embedded.lifts (hd : d.Proper) : d.Lifts m where
  size := h.size_eq
  state q s hs := by
    obtain ⟨t, ht, hroles⟩ := h.exists_state (state_eq_ok_iff.1 hs)
    exact ⟨t, Nfa.state_eq_ok_iff.2 ht, hroles⟩
  targets q c hq := by
    obtain ⟨t, ht, -⟩ := h.vertex_iff.2 hq
    refine ⟨_, _, _, hd.partition.symbolOf_eq c, h.valid.partition.symbolOf_eq c,
      targetOn?_spec hq c, ?_⟩
    rw [Nfa.targetsOn, Nfa.state_eq_ok_iff.2 ht, ← h.targetsOn_eq hd.toValid ht c]
    rfl
  epsilon q t ht := h.epsilon_eq_nil (Nfa.state_eq_ok_iff.1 ht)
  deterministic q t ht e he := h.length_le_one hd.toValid (Nfa.state_eq_ok_iff.1 ht) he
  accepts w := by
    refine Outcome.same_answer (hd.accepts?_spec w) (Nfa.accepts?_spec h.valid w) ?_
    rw [h.graph, Chart.language_embed hd.closed hd.size_pos hd.start_iff]

end Embedded

end Dfa

/-- The nondeterministic machine of a deterministic one is its lift. -/
theorem Automaton.Built.toNfa_lifts {d : Dfa} (h : Automaton.Built (.dfa d)) :
    ∃ m, d.toNfa.outcome = .ok m ∧ d.Lifts m := by
  have hd : d.Proper := h.sound
  obtain ⟨m, hm, hembedded⟩ := hd.toValid.toNfa_embedded
  exact ⟨m, hm, hembedded.lifts hd⟩

theorem Dfa.exists_toNfa_lifts_detached : ∃ d, (initial.applyAll detached).outcome = .ok d ∧
    Automaton.Built (.dfa d) ∧ ∃ m, d.toNfa.outcome = .ok m ∧ d.Lifts m := by
  obtain ⟨d, hd⟩ : ∃ d, (initial.applyAll detached).outcome = .ok d :=
    Outcome.exists_ok_of_isOk (by decide +kernel)
  have hbuilt : Automaton.Built (.dfa d) := built_of_applyAll .initial hd
  exact ⟨d, hd, hbuilt, hbuilt.toNfa_lifts⟩

end RegularLanguages
