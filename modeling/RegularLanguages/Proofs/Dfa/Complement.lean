import RegularLanguages.Proofs.Automaton.Built

/-!
# The complement of a machine

`Complements d c` compares a machine with the complement of it: on every text the two give opposite
answers, and no state of `c` lacks an edge on any character. Only the sink for the edges that `d`
lacks is new, so a complement of a complement has no more states than the complement itself.
-/

namespace RegularLanguages

namespace Chart

theorem complete_flip_complete (g : Chart) : g.complete.flip.Complete := g.complete_complete

end Chart

namespace Dfa

/-- `c` accepts what `d` rejects and lacks no edge. -/
structure Complements (d c : Dfa) : Prop where
  accepts : ∀ w, ∃ b, d.accepts? w = .ok b ∧ c.accepts? w = .ok !b
  isComplete : c.isComplete = true
  total : ∀ q x, q < c.size →
    ∃ symbol t, c.alphabet.symbolOf x = .ok symbol ∧ c.targetOn? q symbol = .ok (some t)
  size : c.size = if d.isComplete then d.size else d.size + 1

variable {d c : Dfa}

theorem size_complete (hd : d.Valid) :
    d.chart.complete.size = if d.isComplete then d.size else d.size + 1 := by
  by_cases hcomplete : d.isComplete = true
  · rw [if_pos hcomplete, Chart.complete, if_pos ((isComplete_iff hd).1 hcomplete)]
    rfl
  · rw [if_neg hcomplete, Chart.complete, if_neg (mt (isComplete_iff hd).2 hcomplete)]
    rfl

/-- A machine whose chart is that of the completed machine with the roles exchanged. -/
theorem Proper.complements (hd : d.Proper) (hc : c.Proper)
    (hchart : c.chart = d.chart.complete.flip) : d.Complements c where
  accepts w := by
    obtain ⟨b, hb, hiff⟩ := hd.accepts?_spec w
    obtain ⟨b', hb', hiff'⟩ := hc.accepts?_spec w
    rw [hchart, Chart.mem_language_flip_complete hd.closed hd.size_pos, ← hiff] at hiff'
    have hopposite : b' = !b := by rw [Bool.eq_iff_iff, hiff', Bool.not_eq_true, Bool.not_eq_true']
    exact ⟨b, hb, hopposite ▸ hb'⟩
  isComplete := by
    rw [isComplete_iff hc.toValid, hchart]
    exact d.chart.complete_flip_complete
  total q x hq := by
    have htotal : c.chart.Complete := hchart ▸ d.chart.complete_flip_complete
    obtain ⟨t, ht⟩ := htotal q x hq
    exact ⟨_, t, hc.partition.symbolOf_eq x, by rw [targetOn?_spec hq, ht]⟩
  size := by
    rw [← size_complete hd.toValid]
    exact congrArg Chart.size hchart

end Dfa

/-- The complement of a machine is exact, and so is the complement of the complement, which has no
more states. -/
theorem Automaton.Built.complement_exact {d : Dfa} (h : Automaton.Built (.dfa d)) :
    ∃ c c', d.complement.outcome = .ok c ∧ c.complement.outcome = .ok c' ∧ d.Complements c ∧
      c.Complements c' ∧ c'.size = c.size ∧ ∀ w, c'.accepts? w = d.accepts? w := by
  have hd : d.Proper := h.sound
  obtain ⟨c, hc, hproper, hchart⟩ := hd.chart_complement
  obtain ⟨c', hc', hproper', hchart'⟩ := hproper.chart_complement
  have hdc := hd.complements hproper hchart
  have hcc' := hproper.complements hproper' hchart'
  refine ⟨c, c', hc, hc', hdc, hcc', ?_, fun w => ?_⟩
  · rw [hcc'.size, if_pos hdc.isComplete]
  · obtain ⟨b, hb, hcb⟩ := hdc.accepts w
    obtain ⟨b', hb', hcb'⟩ := hcc'.accepts w
    cases hcb.symm.trans hb'
    rw [hcb', hb, Bool.not_not]

namespace Dfa

/-- A start that lacks edges, a state that leads back to it, and a state that nothing leads to. -/
def detached : List Change :=
  [.addState, .addState, .setAccept 1 true, .add 0 1 (.ofRanges [⟨'a', 'm'⟩] false),
    .add 1 0 (.ofRanges [⟨'g', 'z'⟩] true), .add 2 1 .universal, .setAccept 2 true]

theorem exists_complement_detached : ∃ d, (initial.applyAll detached).outcome = .ok d ∧
    Automaton.Built (.dfa d) ∧ ∃ c c', d.complement.outcome = .ok c ∧
      c.complement.outcome = .ok c' ∧ d.Complements c ∧ c.Complements c' ∧ c'.size = c.size ∧
      ∀ w, c'.accepts? w = d.accepts? w := by
  obtain ⟨d, hd⟩ : ∃ d, (initial.applyAll detached).outcome = .ok d :=
    Outcome.exists_ok_of_isOk (by decide +kernel)
  have hbuilt : Automaton.Built (.dfa d) := built_of_applyAll .initial hd
  exact ⟨d, hd, hbuilt, hbuilt.complement_exact⟩

end Dfa

end RegularLanguages
