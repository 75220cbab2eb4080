import RegularLanguages.Proofs.Dfa.Completion
import RegularLanguages.Proofs.Outcome

/-!
# Deterministic machines under change

A `Change` is one call of an operation that alters a machine. A change that goes through keeps a
machine valid and does to its chart what it says.
-/

namespace RegularLanguages

namespace Dfa

inductive Change where
  | addState
  | add (source target : Nat) (k : CharClass)
  | setAccept (id : Nat) (value : Bool)
  | complete

def Change.apply (d : Dfa) : Change → Logged Dfa
  | .addState => return d.addState.2
  | .add source target k => d.add source target k
  | .setAccept id value => d.setAccept id value
  | .complete => return d.complete

/-- The machine after the changes. -/
def applyAll (d : Dfa) (cs : List Change) : Logged Dfa := cs.foldlM Change.apply d

end Dfa

/-- What a change of a machine does to its chart. -/
noncomputable def Chart.apply (g : Chart) : Dfa.Change → Chart
  | .addState => g.addState
  | .add source target k => g.addEdges source k target
  | .setAccept id value => g.setAccept id value
  | .complete => g.complete

namespace Dfa

variable {d d' : Dfa}

theorem lt_of_state_eq_ok {q : Nat} {s : State} (h : d.state q = .ok s) : q < d.chart.size :=
  (Array.getElem?_eq_some_iff.1 (state_eq_ok_iff.1 h)).1

/-- An edge that could be added has its ends, unless it stands on no character. -/
theorem lt_of_add_eq_ok (h : d.Valid) {source target : Nat} {k : CharClass}
    (hd : (d.add source target k).outcome = .ok d') :
    target < d.chart.size ∧ (source < d.chart.size ∨ k.isEmpty = true ∧ d' = d) := by
  have htarget : target < d.chart.size := by
    refine Nat.lt_of_not_le fun hle => ?_
    have hle : d.size ≤ target := hle
    simp [add, hle] at hd
  refine ⟨htarget, ?_⟩
  have hsize : ¬d.size ≤ target := Nat.not_le_of_lt htarget
  by_cases hk : k.isEmpty = true
  · simp only [add, hsize, hk, if_true, if_false] at hd
    cases hd
    exact .inr ⟨hk, rfl⟩
  · obtain ⟨d₁, hd₁, -, -, hchart⟩ := express_spec h k
    have hsource : ∃ s, d₁.state source = .ok s := by
      cases hs : d₁.state source with
      | ok s => exact ⟨s, rfl⟩
      | error fault => simp [add, hsize, hk, hd₁, hs] at hd
    obtain ⟨s, hs⟩ := hsource
    exact .inl (hchart ▸ lt_of_state_eq_ok hs)

theorem add_spec_of_eq_ok (h : d.Valid) {source target : Nat} {k : CharClass}
    (hd : (d.add source target k).outcome = .ok d') : d'.Valid ∧
      d'.alphabet = (d.alphabet.refine k).1 ∧ d'.chart = d.chart.addEdges source k target := by
  obtain ⟨htarget, hsource | ⟨hk, rfl⟩⟩ := lt_of_add_eq_ok h hd
  · have hspec := Outcome.of_exists_ok (add_spec h hsource htarget k) hd
    exact hspec
  · have hnone : ∀ c, c ∉ k := CharClass.not_mem_of_isEmpty hk
    refine ⟨h, ?_, by simp [Chart.addEdges, hnone]⟩
    exact (Alphabet.refine_eq_self fun b _ => .inr fun c _ => hnone c).symm

theorem apply_spec (h : d.Valid) {c : Change} (hc : (c.apply d).outcome = .ok d') :
    d'.Valid ∧ d'.chart = d.chart.apply c := by
  cases c with
  | addState =>
    cases hc
    exact ⟨h.addState, chart_addState d⟩
  | add source target k =>
    obtain ⟨hvalid, -, hchart⟩ := add_spec_of_eq_ok h hc
    exact ⟨hvalid, hchart⟩
  | setAccept id value =>
    obtain ⟨s, hs, -⟩ := Logged.bind_eq_ok_iff.1 hc
    have hspec := Outcome.of_exists_ok (setAccept_spec h (lt_of_state_eq_ok hs) value) hc
    exact hspec
  | complete =>
    cases hc
    exact ⟨h.complete, h.chart_complete⟩

theorem Proper.apply (h : d.Proper) {c : Change} (hc : (c.apply d).outcome = .ok d') :
    d'.Proper := by
  obtain ⟨hvalid, hchart⟩ := apply_spec h.toValid hc
  refine ⟨hvalid, fun q => ?_⟩
  rw [hchart]
  cases c with
  | complete =>
    rw [Chart.apply, d.chart.start_complete]
    exact h.start_iff q
  | _ => exact h.start_iff q

theorem outcome_applyAll_concat (d : Dfa) (cs : List Change) (c : Change) :
    (d.applyAll (cs ++ [c])).outcome = (d.applyAll cs).outcome >>= fun d => (c.apply d).outcome :=
  Outcome.outcome_foldlM_concat ..

end Dfa

end RegularLanguages
