import RegularLanguages.Proofs.Dfa.OfNfa
import RegularLanguages.Proofs.Nfa.Dump
import RegularLanguages.Proofs.Pattern.OfNfa

/-!
# Nothing in a machine leads out of it

A deleted state takes the edges into it along, and a refinement of the alphabet takes the symbols
along. So the tables of a machine that changes lead to name nothing that is not there (`Tight`).
Whatever an algorithm on the machine looks up is given by its caller or found in these tables;
therefore none of them faults (`NeverFaults`).
-/

namespace RegularLanguages.Nfa

/-- The state `u` has been added and not been deleted. -/
def Live (m : Nfa) (u : Nat) : Prop := ∃ s, m.state? u = some s

/-- The tables of the states that are there name only such states and symbols, and no symbol without
a target. -/
structure Tight (m : Nfa) : Prop where
  target_live : ∀ u s t, m.state? u = some s → t ∈ s.targets → m.Live t
  symbol_lt : ∀ u s e, m.state? u = some s → e ∈ s.edges.entries → e.1 < m.alphabet.size
  inhabited : ∀ u s e, m.state? u = some s → e ∈ s.edges.entries → e.2 ≠ []

/-- Every question to the machine has an answer, if it names only states that are there; the states
in the answer are there too. -/
structure NeverFaults (m : Nfa) : Prop where
  accepts : ∀ w, ∃ b, m.accepts? w = .ok b
  targetsOn : ∀ u x, m.Live u → ∃ ts, m.targetsOn u x = .ok ts ∧ ∀ t ∈ ts, m.Live t
  closure : ∀ ids, (∀ u ∈ ids, m.Live u) → ∃ cl, m.closure ids = .ok cl ∧ ∀ t ∈ cl, m.Live t
  step : ∀ ids x, (∀ u ∈ ids, m.Live u) → ∃ next, m.step ids x = .ok next ∧ ∀ t ∈ next, m.Live t
  dump : ∃ text, m.dump = .ok text
  toDfa : ∃ d, m.toDfa.outcome = .ok d
  toPattern : ∃ p, m.toPattern.outcome = .ok p

variable {m : Nfa}

theorem live_iff {u : Nat} : m.Live u ↔ m.graph.vertex u :=
  exists_congr fun _ => (and_iff_left trivial).symm

theorem Valid.tight (h : m.Valid) : m.Tight where
  target_live u s t hs ht := by
    obtain ⟨l, he⟩ := h.exists_edge_of_mem_targets hs ht
    exact live_iff.2 (h.vertex_of_edge he).2
  symbol_lt u s e hs := (h.states u s hs).symbol_lt e
  inhabited u s e hs := (h.states u s hs).inhabited e

/-! ## Questions about states -/

theorem targetsOn_live (h : m.Valid) {u : Nat} (hu : m.Live u) (x : Nat) :
    ∃ ts, m.targetsOn u x = .ok ts ∧ ∀ t ∈ ts, m.Live t := by
  obtain ⟨s, hs⟩ := hu
  refine ⟨s.targetsOn x, by rw [targetsOn, state_eq_ok_iff.2 hs]; rfl, fun t ht => ?_⟩
  exact h.tight.target_live u s t hs ((h.states u s hs).mem_targets.2 (.inl ⟨x, ht⟩))

theorem closure_live (h : m.Valid) {ids : List Nat} (hids : ∀ u ∈ ids, m.Live u) :
    ∃ cl, m.closure ids = .ok cl ∧ ∀ t ∈ cl, m.Live t := by
  have hvertex : ∀ u ∈ ids, m.graph.vertex u := fun u hu => live_iff.1 (hids u hu)
  obtain ⟨cl, hcl, henum⟩ := closure_spec h ids hvertex
  exact ⟨cl, hcl, fun t ht => live_iff.2 (vertex_of_mem_closure h hvertex henum t ht)⟩

theorem step_live (h : m.Valid) {ids : List Nat} (hids : ∀ u ∈ ids, m.Live u) (x : Nat) :
    ∃ next, m.step ids x = .ok next ∧ ∀ t ∈ next, m.Live t := by
  obtain ⟨tss, htss, -⟩ := Outcome.mapM_spec fun u hu => targetsOn_live h (hids u hu) x
  have hflat : ∀ t ∈ tss.flatten, m.Live t := fun t ht => by
    obtain ⟨ts, hts, ht⟩ := List.mem_flatten.1 ht
    obtain ⟨u, hu, hget⟩ := Outcome.exists_of_mem_mapM htss hts
    exact Outcome.of_exists_ok (targetsOn_live h (hids u hu) x) hget t ht
  obtain ⟨next, hnext, hlive'⟩ := closure_live h hflat
  exact ⟨next, by rw [step, htss]; exact hnext, hlive'⟩

/-! ## All questions -/

theorem Valid.neverFaults (h : m.Valid) : m.NeverFaults where
  accepts w := (accepts?_spec h w).imp fun _ => And.left
  targetsOn _ x hu := targetsOn_live h hu x
  closure _ := closure_live h
  step _ x hids := step_live h hids x
  dump := ⟨_, dump_eq h⟩
  toDfa := (toDfa_spec h).imp fun _ => And.left
  toPattern := (toPattern_spec h).imp fun _ => And.left

/-- The tables of a machine that changes lead to are tight, and no algorithm on it faults. -/
theorem Reachable.tight_neverFaults (h : m.Reachable) : m.Tight ∧ m.NeverFaults :=
  ⟨h.valid.tight, h.valid.neverFaults⟩

theorem exists_tight_tangled : ∃ m, (empty.applyAll tangled).outcome = .ok m ∧ m.Reachable ∧
    m.Tight ∧ m.NeverFaults := by
  obtain ⟨m, hm⟩ := exists_tangled
  exact ⟨m, hm, ⟨tangled, hm⟩, Reachable.tight_neverFaults ⟨tangled, hm⟩⟩

end RegularLanguages.Nfa
