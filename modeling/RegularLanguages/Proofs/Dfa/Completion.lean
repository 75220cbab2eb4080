import RegularLanguages.Dfa.Completion
import RegularLanguages.Proofs.Dfa.Run

/-!
# Completion on the chart

A machine counts as complete if and only if its chart has no missing edge. Completing it and
exchanging its roles do to the chart what the chart operations of these names do.
-/

namespace RegularLanguages.Dfa

variable {d : Dfa}

/-! ## Completion -/

theorem isComplete_iff (h : d.Valid) : d.isComplete = true ↔ d.chart.Complete := by
  have hrow : ∀ (q : Nat) (s : State), d.states[q]? = some s →
      (s.edges.size = d.alphabet.size ↔ ∀ c, ∃ t, d.chart.move q c = some t) := by
    intro q s hs
    have hvalid := h.states q s hs
    rw [hvalid.sorted.size_eq_iff fun e he => (hvalid.entry_lt e he).1]
    simp only [move_eq hs]
    constructor
    · intro hall c
      exact hall _ (h.partition.index_lt c)
    · intro hall x hx
      obtain ⟨c, rfl⟩ := h.partition.exists_index_eq hx
      exact hall c
  simp only [isComplete, Array.all_eq_true_iff_forall_mem, decide_eq_true_eq]
  constructor
  · intro hall q c hq
    obtain ⟨s, hs⟩ := exists_state hq
    exact (hrow q s hs).1 (hall s (Array.mem_of_getElem? hs)) c
  · intro hall s hs
    obtain ⟨q, hq⟩ := Array.mem_iff_getElem?.1 hs
    exact (hrow q s hq).2 fun c => hall q c (Array.getElem?_eq_some_iff.1 hq).1

/-- Every state changed alike. -/
def mapStates (d : Dfa) (f : State → State) : Dfa := { d with states := d.states.map f }

theorem getElem?_mapStates (d : Dfa) (f : State → State) (q : Nat) :
    (d.mapStates f).states[q]? = d.states[q]?.map f :=
  Array.getElem?_map

theorem has_mapStates {f : State → State} {q : Nat} {P : State → Prop} :
    (d.mapStates f).Has q P ↔ d.Has q fun s => P (f s) := by
  simp [Has, getElem?_mapStates]

theorem Valid.mapStates (h : d.Valid) {f : State → State}
    (hf : ∀ s : State, s.Valid d.alphabet.size d.states.size →
      (f s).Valid d.alphabet.size d.states.size) : (d.mapStates f).Valid where
  partition := h.partition
  states q s hs := by
    rw [getElem?_mapStates] at hs
    obtain ⟨s₀, hs₀, rfl⟩ := Option.map_eq_some_iff.1 hs
    have hsize : (d.mapStates f).states.size = d.states.size := Array.size_map
    rw [hsize]
    exact hf s₀ (h.states q s₀ hs₀)

/-- The machine after a completion that finds a missing edge. -/
def withSink (d : Dfa) : Dfa :=
  d.addState.2.mapStates fun s => { s with edges := s.edges.fill d.alphabet.size d.states.size }

theorem complete_eq (d : Dfa) : d.complete = if d.isComplete then d else d.withSink := rfl

theorem Valid.withSink (h : d.Valid) : d.withSink.Valid := by
  refine h.addState.mapStates fun s hs => ⟨Row.sorted_fill .., fun e he => ?_⟩
  obtain ⟨hlt, hget⟩ := Row.mem_fill.1 he
  refine ⟨hlt, ?_⟩
  rw [← hget]
  cases hold : s.edges.get? e.1 with
  | none => exact Nat.lt_of_lt_of_eq (Nat.lt_succ_self _) (Array.size_push ..).symm
  | some t => exact (hs.entry_lt _ (Row.mem_entries_of_get? hold)).2

theorem Valid.chart_withSink (h : d.Valid) : d.withSink.chart = d.chart.addSink := by
  have hadd := chart_addState d
  refine Chart.eq_of_iff ?_ (fun q => ?_) (fun q => ?_) fun q c => ?_
  · exact Array.size_map.trans (Array.size_push ..)
  · exact has_mapStates.trans (iff_of_eq (congrFun (congrArg Chart.start hadd) q))
  · exact has_mapStates.trans (iff_of_eq (congrFun (congrArg Chart.accept hadd) q))
  · have hlt : d.alphabet.index c < d.alphabet.size := h.partition.index_lt c
    have hmove : d.withSink.chart.move q c = d.addState.2.states[q]?.map fun s =>
        (s.edges.get? (d.alphabet.index c)).getD d.states.size := by
      simp only [chart, Dfa.withSink, getElem?_mapStates]
      cases d.addState.2.states[q]? with
      | none => rfl
      | some s => exact (Row.get?_fill ..).trans (if_pos hlt)
    rw [hmove, getElem?_addState]
    show _ = (d.chart.move q c).or (if q ≤ d.states.size then some d.states.size else none)
    rcases Nat.lt_trichotomy q d.states.size with hq | rfl | hq
    · obtain ⟨s, hs⟩ := exists_state hq
      rw [if_neg (Nat.ne_of_lt hq), if_pos (Nat.le_of_lt hq), hs, move_eq hs,
        Option.map_some]
      cases s.edges.get? (d.alphabet.index c) <;> rfl
    · have hnone : d.chart.move d.states.size c = none := by simp [chart]
      rw [if_pos rfl, if_pos (Nat.le_refl _), hnone]
      rfl
    · have hnone : d.states[q]? = none := Array.getElem?_eq_none (Nat.le_of_lt hq)
      rw [if_neg (Nat.ne_of_gt hq), if_neg (Nat.not_le_of_lt hq), hnone]
      simp [chart, hnone]

theorem Valid.complete (h : d.Valid) : d.complete.Valid := by
  rw [complete_eq]
  split
  · exact h
  · exact h.withSink

theorem Valid.chart_complete (h : d.Valid) : d.complete.chart = d.chart.complete := by
  by_cases hd : d.isComplete = true
  · rw [complete_eq, if_pos hd, Chart.complete, if_pos ((isComplete_iff h).1 hd)]
  · rw [complete_eq, if_neg hd, Chart.complete, if_neg (mt (isComplete_iff h).2 hd),
      h.chart_withSink]

/-! ## Exchanging roles -/

theorem flip_eq (d : Dfa) : d.flip = d.mapStates fun s => { s with isAccept := !s.isAccept } := rfl

theorem Valid.flip (h : d.Valid) : d.flip.Valid :=
  h.mapStates fun _ hs => ⟨hs.sorted, hs.entry_lt⟩

theorem chart_flip (d : Dfa) : d.flip.chart = d.chart.flip := by
  refine Chart.eq_of_iff Array.size_map (fun q => has_mapStates) (fun q => ?_) fun q c => ?_
  · refine has_mapStates.trans ?_
    show _ ↔ q < d.chart.size ∧ ¬d.chart.accept q
    by_cases hq : q < d.chart.size
    · obtain ⟨s, hs⟩ := exists_state hq
      rw [has_iff hs, accept_iff hs]
      simp [hq]
    · exact iff_of_false (fun h => hq h.lt) fun h => hq h.1
  · show (d.flip.states[q]?.bind _) = d.states[q]?.bind _
    rw [flip_eq, getElem?_mapStates, Option.bind_map]
    rfl

end RegularLanguages.Dfa
