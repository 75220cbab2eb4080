import RegularLanguages.Proofs.Determinization.Embedded
import RegularLanguages.Proofs.Dfa.Complement

/-!
# What completion changes

`Completes d c` compares a machine with its completion. Whether a machine is complete is decided by
counting the entries of each row; that the count is right rests on the symbols of a valid machine,
each of which is the symbol of some character. Completion adds at most the sink, and only edges to
the sink: all that was there stays, number by number and symbol by symbol.
-/

namespace RegularLanguages

namespace Dfa

/-- Every state leads somewhere on every character. -/
def Total (d : Dfa) : Prop := ∀ q x, q < d.size → ∃ t, d.Goes q x t

/-- `c` is `d` with the edges that it lacks. -/
structure Completes (d c : Dfa) : Prop where
  isComplete_iff : d.isComplete = true ↔ d.Total
  isComplete : c.isComplete = true
  total : c.Total
  alphabet : c.alphabet = d.alphabet
  state : ∀ q s, d.state q = .ok s →
    ∃ s', c.state q = .ok s' ∧ s'.isStart = s.isStart ∧ s'.isAccept = s.isAccept
  target : ∀ q symbol t, d.targetOn? q symbol = .ok (some t) →
    c.targetOn? q symbol = .ok (some t)
  missing : ∀ q symbol, symbol < d.alphabet.size → d.targetOn? q symbol = .ok none →
    c.targetOn? q symbol = .ok (some d.size)
  accepts : ∀ w, ∃ b, d.accepts? w = .ok b ∧ c.accepts? w = .ok b
  size : c.size = if d.isComplete then d.size else d.size + 1
  /-- The state that is new rejects, and nothing leaves it. -/
  sink : d.isComplete = false → c.isAccept d.size = .ok false ∧
    ∀ symbol, symbol < c.alphabet.size → c.targetOn? d.size symbol = .ok (some d.size)
  unchanged : d.isComplete = true → c = d
  again : c.complete = c

variable {d : Dfa} {q symbol : Nat} {s : State}

theorem total_iff (h : d.Valid) : d.Total ↔ d.chart.Complete :=
  forall₃_congr fun _ x hq => exists_congr fun t => goes_iff_move (t := t) (c := x) h hq

theorem targetOn?_eq (hs : d.states[q]? = some s) :
    d.targetOn? q symbol = .ok (s.edges.get? symbol) := by
  rw [targetOn?, state_eq_ok_iff.2 hs]
  rfl

theorem exists_state_of_targetOn? {o : Option Nat} (h : d.targetOn? q symbol = .ok o) :
    ∃ s, d.states[q]? = some s ∧ s.edges.get? symbol = o := by
  obtain ⟨s, hs, ho⟩ := Logged.bind_eq_ok_iff.1 h
  cases ho
  exact ⟨s, state_eq_ok_iff.1 hs, rfl⟩

/-! ## The states of the machine with a sink -/

/-- The state with its missing edges sent to `sink`. -/
def State.fill (s : State) (symbols sink : Nat) : State :=
  { s with edges := s.edges.fill symbols sink }

theorem get?_edges_fill (s : State) (symbols sink symbol : Nat) :
    (s.fill symbols sink).edges.get? symbol =
      if symbol < symbols then some ((s.edges.get? symbol).getD sink) else none :=
  Row.get?_fill ..

theorem getElem?_withSink (hs : d.states[q]? = some s) :
    d.withSink.states[q]? = some (s.fill d.alphabet.size d.size) := by
  have hq : q ≠ d.states.size := Nat.ne_of_lt (Array.getElem?_eq_some_iff.1 hs).1
  rw [withSink, getElem?_mapStates, getElem?_addState, if_neg hq, hs]
  rfl

theorem getElem?_withSink_size (d : Dfa) :
    d.withSink.states[d.size]? = some (State.fill ⟨false, false, .empty⟩ d.alphabet.size d.size) := by
  rw [withSink, getElem?_mapStates, getElem?_addState, if_pos (by rfl)]
  rfl

/-- An edge of an old state is an old edge or leads to the sink. -/
theorem Valid.get?_edges_fill_of_some (h : d.Valid) (hs : d.states[q]? = some s) {t : Nat}
    (ht : s.edges.get? symbol = some t) (sink : Nat) :
    (s.fill d.alphabet.size sink).edges.get? symbol = some t := by
  have hlt : symbol < d.alphabet.size :=
    ((h.states q s hs).entry_lt _ (Row.mem_entries_of_get? ht)).1
  rw [get?_edges_fill, if_pos hlt, ht, Option.getD_some]

/-! ## Completing -/

theorem Proper.accepts?_complete (h : d.Proper) (w : List Char) :
    ∃ b, d.accepts? w = .ok b ∧ d.complete.accepts? w = .ok b := by
  have hproper : d.complete.Proper := h.apply (c := .complete) rfl
  refine Outcome.same_answer (h.accepts?_spec w) (hproper.accepts?_spec w) ?_
  rw [h.chart_complete, Chart.language_complete h.closed h.size_pos]

theorem Valid.isComplete_complete (h : d.Valid) : d.complete.isComplete = true := by
  rw [Dfa.isComplete_iff h.complete, h.chart_complete]
  exact d.chart.complete_complete

/-- What completion does to a machine that lacks an edge. -/
theorem Proper.completes_withSink (h : d.Proper) (hd : d.isComplete = false) :
    d.Completes d.complete := by
  have hsink : d.complete = d.withSink := by rw [complete_eq, hd, if_neg Bool.false_ne_true]
  have hvalid : d.withSink.Valid := h.toValid.withSink
  have hcomplete : d.withSink.isComplete = true := hsink ▸ h.toValid.isComplete_complete
  have haccepts := h.accepts?_complete
  rw [hsink] at haccepts ⊢
  refine
    { isComplete_iff := (Dfa.isComplete_iff h.toValid).trans (total_iff h.toValid).symm
      isComplete := hcomplete
      total := (total_iff hvalid).2 ((Dfa.isComplete_iff hvalid).1 hcomplete)
      alphabet := rfl
      state := fun q s hs => ?_
      target := fun q symbol t ht => ?_
      missing := fun q symbol hsymbol hnone => ?_
      accepts := haccepts
      size := ?_
      sink := fun _ => ⟨?_, fun symbol hsymbol => ?_⟩
      unchanged := fun htrue => absurd (hd.symm.trans htrue) Bool.false_ne_true
      again := by rw [complete_eq, if_pos hcomplete] }
  · exact ⟨_, state_eq_ok_iff.2 (getElem?_withSink (state_eq_ok_iff.1 hs)), rfl, rfl⟩
  · obtain ⟨s, hs, hget⟩ := exists_state_of_targetOn? ht
    rw [targetOn?_eq (getElem?_withSink hs), h.get?_edges_fill_of_some hs hget]
  · obtain ⟨s, hs, hget⟩ := exists_state_of_targetOn? hnone
    rw [targetOn?_eq (getElem?_withSink hs), get?_edges_fill, if_pos hsymbol, hget,
      Option.getD_none]
  · rw [hd, if_neg Bool.false_ne_true]
    exact congrArg Chart.size h.toValid.chart_withSink
  · rw [isAccept, state_eq_ok_iff.2 (getElem?_withSink_size d)]
    rfl
  · have hlt : symbol < d.alphabet.size := hsymbol
    rw [targetOn?_eq (getElem?_withSink_size d), get?_edges_fill, if_pos hlt, Row.get?_empty,
      Option.getD_none]

theorem Proper.completes (h : d.Proper) : d.Completes d.complete := by
  cases hd : d.isComplete with
  | false => exact h.completes_withSink hd
  | true =>
    have hself : d.complete = d := by rw [complete_eq, if_pos hd]
    have haccepts := h.accepts?_complete
    have htotal : d.Total := (total_iff h.toValid).2 ((Dfa.isComplete_iff h.toValid).1 hd)
    rw [hself] at haccepts ⊢
    exact
      { isComplete_iff := iff_of_true hd htotal
        isComplete := hd
        total := htotal
        alphabet := rfl
        state := fun q s hs => ⟨s, hs, rfl, rfl⟩
        target := fun q symbol t ht => ht
        missing := fun q symbol hsymbol hnone => by
          -- The symbol is that of some character, on which the state would lead nowhere.
          obtain ⟨x, rfl⟩ := h.partition.exists_index_eq hsymbol
          obtain ⟨s, hs, -⟩ := exists_state_of_targetOn? hnone
          have hq : q < d.size := (Array.getElem?_eq_some_iff.1 hs).1
          obtain ⟨t, y, hy, ht⟩ := htotal q x hq
          rw [h.partition.symbolOf_eq, Except.ok.injEq] at hy
          rw [hy, ht] at hnone
          cases hnone
        accepts := haccepts
        size := by rw [hd, if_pos rfl]
        sink := fun hfalse => absurd (hfalse.symm.trans hd) Bool.false_ne_true
        unchanged := fun _ => rfl
        again := hself }

end Dfa

/-- A machine is complete if and only if it leads from every state on every character. Completing
it adds the sink and the edges to it, and nothing else; doing so again changes nothing. -/
theorem Automaton.Built.complete_exact {d : Dfa} (h : Automaton.Built (.dfa d)) :
    d.Completes d.complete :=
  h.sound.completes

namespace Dfa

theorem exists_completes_detached : ∃ d, (initial.applyAll detached).outcome = .ok d ∧
    d.isComplete = false ∧ Automaton.Built (.dfa d) ∧ d.Completes d.complete := by
  obtain ⟨d, hd⟩ : ∃ d, (initial.applyAll detached).outcome = .ok d :=
    Outcome.exists_ok_of_isOk (by decide +kernel)
  have hlacks : (initial.applyAll detached).outcome.toOption.any (!·.isComplete) = true := by
    decide +kernel
  have hincomplete : d.isComplete = false := by
    rw [hd] at hlacks
    simpa [Except.toOption] using hlacks
  have hbuilt : Automaton.Built (.dfa d) := built_of_applyAll .initial hd
  exact ⟨d, hd, hincomplete, hbuilt, hbuilt.complete_exact⟩

end Dfa

end RegularLanguages
