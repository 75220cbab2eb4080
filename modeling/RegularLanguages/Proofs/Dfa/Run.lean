import RegularLanguages.Proofs.Chart.Language
import RegularLanguages.Proofs.Dfa.Invariant

/-!
# Runs follow the chart

A run of a valid machine never faults: it goes where the chart leads, and the texts that the machine
accepts are the language of the chart.
-/

namespace RegularLanguages.Dfa

variable {d : Dfa} {q t : Nat}

theorem targetOn?_spec (hq : q < d.chart.size) (c : Char) :
    d.targetOn? q (d.alphabet.index c) = .ok (d.chart.move q c) := by
  obtain ⟨s, hs⟩ := exists_state hq
  rw [targetOn?, state_eq_ok_iff.2 hs, move_eq hs]
  rfl

theorem run_spec (h : d.Valid) (hq : q < d.chart.size) (w : List Char) :
    d.run q w = .ok (d.chart.walk q w) := by
  induction w generalizing q with
  | nil => rfl
  | cons c rest ih =>
    rw [run, h.partition.symbolOf_eq, Logged.ok_bind, targetOn?_spec hq, Logged.ok_bind, Chart.walk]
    cases hm : d.chart.move q c with
    | none => rfl
    | some t => exact ih (h.lt_of_move hm).2

theorem isAccept_spec (hq : q < d.chart.size) :
    ∃ b, d.isAccept q = .ok b ∧ (b = true ↔ d.chart.accept q) := by
  obtain ⟨s, hs⟩ := exists_state hq
  exact ⟨s.isAccept, by rw [isAccept, state_eq_ok_iff.2 hs]; rfl, (accept_iff hs).symm⟩

theorem Valid.closed (h : d.Valid) : d.chart.Closed where
  accept_lt _ := Has.lt
  move_lt _ _ _ := h.lt_of_move

theorem Proper.accepts?_spec (h : d.Proper) (w : List Char) :
    ∃ b, d.accepts? w = .ok b ∧ (b = true ↔ w ∈ d.chart.language) := by
  rw [accepts?, run_spec (q := start) h.toValid h.size_pos, Logged.ok_bind]
  cases hw : d.chart.walk start w with
  | none =>
    refine ⟨false, rfl, iff_of_false nofun ?_⟩
    rintro ⟨q, hq, -⟩
    cases hw.symm.trans hq
  | some q =>
    obtain ⟨b, hb, hiff⟩ := isAccept_spec (h.closed.walk_lt h.size_pos hw)
    exact ⟨b, hb, hiff.trans (Chart.mem_language_of_walk hw).symm⟩

end RegularLanguages.Dfa
