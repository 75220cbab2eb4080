import RegularLanguages.Proofs.Determinization.Visit
import RegularLanguages.Proofs.Dfa.Run
import RegularLanguages.Proofs.Nfa.Change

/-!
# The deterministic machine of a machine

The states of the machine that determinisation gives are the sets that runs of the nondeterministic
machine hold, each one once; only the empty set has no state after the first character. So its runs
end in the state for the set, and it accepts the same texts.
-/

namespace RegularLanguages

namespace Determinization

open StateSet (Enumerates)

variable {m : Nfa} {d : Determinization}

theorem subsets_start {ids s : List Nat} {q : Nat} :
    (start ids).subsets[q]? = some s ↔ q = 0 ∧ ids = s := by
  cases q <;> simp [start]

theorem indexed_start {ids : List Nat} (hids : m.startSet = .ok ids)
    (hordered : ids.Pairwise (· < ·)) (hvertex : ∀ u ∈ ids, m.graph.vertex u) :
    Indexed m (.start ids) where
  proper := Dfa.proper_initial
  size := rfl
  first := ⟨ids, hids, rfl⟩
  subset q s hq := by
    obtain ⟨-, rfl⟩ := subsets_start.1 hq
    exact ⟨hordered, hvertex⟩
  distinct q t s hq ht := (subsets_start.1 hq).1.trans (subsets_start.1 ht).1.symm
  waiting q s hq := by
    cases List.mem_singleton.1 hq
    rfl
  nodup := List.nodup_singleton _

theorem settled_start {ids : List Nat} (hids : m.startSet = .ok ids) : Settled m (.start ids) := by
  have hjudged : ∀ q, ¬Judged (.start ids) q := by
    rintro q ⟨hlt, hq⟩
    have hzero : q = 0 := Nat.lt_one_iff.1 hlt
    exact hq (by simp [start, hzero, Dfa.start])
  refine ⟨fun q hq => absurd hq (hjudged q), fun q _ hq => absurd hq (hjudged q),
    fun q _ hq => absurd hq (hjudged q), fun q _ _ hq => absurd hq (hjudged q), fun q c _ => ?_,
    fun q s hq => ?_⟩
  · show Dfa.initial.chart.move q c = none
    rw [Dfa.chart_initial]
    rfl
  · obtain ⟨rfl, rfl⟩ := subsets_start.1 hq
    exact ⟨[], by rw [Nfa.statesAfter, hids]; rfl, rfl⟩

/-- Determinisation at its end. -/
structure Finished (m : Nfa) (d : Determinization) : Prop where
  indexed : Indexed m d
  settled : Settled m d
  pending : d.pending = []

theorem toDfa_spec (hm : m.Valid) : ∃ d, m.toDfa.outcome = .ok d.dfa ∧ Finished m d := by
  obtain ⟨ids, hids, henum⟩ := Nfa.startSet_spec hm
  have hvertex := Nfa.vertex_of_mem_closure hm (fun _ => Nfa.vertex_of_start) henum
  obtain ⟨d, hd, hindexed, hsettled, hp⟩ := visitAll_spec hm (2 ^ m.slots.size)
    (indexed_start hids henum.ordered hvertex) (settled_start hids) (Nat.le_of_eq (Nat.add_comm ..))
  exact ⟨d, by simp [Nfa.toDfa, hids, hd], hindexed, hsettled, hp⟩

variable {q : Nat} {ids r : List Nat} {w : List Char}

theorem Finished.judged (h : Finished m d) (hq : d.subsets[q]? = some ids) : d.Judged q :=
  ⟨lt_size hq, by simp [h.pending]⟩

theorem Finished.lt_chart_size (h : Finished m d) (hq : d.subsets[q]? = some ids) :
    q < d.dfa.chart.size := by
  rw [h.indexed.size]
  exact lt_size hq

/-- A run ends in the state for the set after the text, or falls off if that set is empty. -/
theorem Finished.walk_spec (hm : m.Valid) (h : Finished m d) (hq : d.subsets[q]? = some ids)
    (hr : m.run ids w = .ok r) :
    (∀ t, d.dfa.chart.walk q w = some t → d.subsets[t]? = some r) ∧
      (w ≠ [] → (d.dfa.chart.walk q w = none ↔ r = [])) := by
  induction w generalizing q ids with
  | nil =>
    cases hr
    refine ⟨fun t ht => ?_, absurd rfl⟩
    cases ht
    exact hq
  | cons c rest ih =>
    obtain ⟨next, hnext, hleads⟩ := h.settled.next q ids c (h.judged hq) hq
    have hrest : m.run next rest = .ok r := by
      rw [← hr, Nfa.run_of_step hm hnext]
    rw [Chart.walk]
    cases hmove : d.dfa.chart.move q c with
    | none =>
      rw [hmove] at hleads
      subst hleads
      rw [Nfa.run_nil] at hrest
      cases hrest
      refine ⟨fun t ht => ?_, fun _ => iff_of_true rfl rfl⟩
      cases ht
    | some t =>
      rw [hmove] at hleads
      obtain ⟨hne, ht⟩ := hleads
      obtain ⟨hend, hfalls⟩ := ih ht hrest
      refine ⟨hend, fun _ => ?_⟩
      by_cases hempty : rest = []
      · subst hempty
        cases hrest
        exact iff_of_false (Option.some_ne_none t) hne
      · exact hfalls hempty

theorem Finished.run_eq (h : Finished m d) (w : List Char) :
    d.dfa.run Dfa.start w = .ok (d.dfa.chart.walk 0 w) := by
  obtain ⟨ids, -, hzero⟩ := h.indexed.first
  exact Dfa.run_spec h.indexed.proper.toValid (h.lt_chart_size hzero) w

theorem Finished.run_spec (hm : m.Valid) (h : Finished m d) (hr : m.statesAfter w = .ok r) :
    (∀ t, d.dfa.run Dfa.start w = .ok (some t) → d.subsets[t]? = some r) ∧
      (w ≠ [] → (d.dfa.run Dfa.start w = .ok none ↔ r = [])) := by
  obtain ⟨ids, hids, hzero⟩ := h.indexed.first
  rw [Nfa.statesAfter, hids, Logged.ok_bind] at hr
  simp only [h.run_eq, Except.ok.injEq]
  exact h.walk_spec hm hzero hr

theorem Finished.isAccept_spec (h : Finished m d) (hq : d.subsets[q]? = some ids) :
    ∃ b, d.dfa.isAccept q = .ok b ∧ (b = true ↔ ∃ s ∈ ids, m.graph.accept s) := by
  obtain ⟨b, hb, hiff⟩ := Dfa.isAccept_spec (h.lt_chart_size hq)
  exact ⟨b, hb, hiff.trans (h.settled.accept q _ (h.judged hq) hq)⟩

theorem Finished.accepts?_spec (hm : m.Valid) (h : Finished m d) (w : List Char) :
    ∃ b, d.dfa.accepts? w = .ok b ∧ m.accepts? w = .ok b := by
  obtain ⟨r, hr, henum⟩ := Nfa.statesAfter_spec hm w
  obtain ⟨hend, hfalls⟩ := h.run_spec hm hr
  obtain ⟨b, hb, hiff⟩ := Nfa.anyAccepts_spec r (Nfa.vertex_of_mem_statesAfter hm henum)
  rw [Nfa.accepts?_eq hr, hb, Dfa.accepts?]
  rw [h.run_eq] at hend hfalls ⊢
  cases hcase : d.dfa.chart.walk 0 w with
  | none =>
    have hne : w ≠ [] := by
      rintro rfl
      cases hcase
    have hempty : r = [] := (hfalls hne).1 (by rw [hcase])
    have hfalse : b = false := by
      rw [← Bool.not_eq_true, hiff, hempty]
      simp
    exact ⟨false, rfl, by rw [hfalse]⟩
  | some q =>
    obtain ⟨b', hb', hiff'⟩ := h.isAccept_spec (hend q (by rw [hcase]))
    exact ⟨b', hb', by rw [Bool.eq_iff_iff.2 (hiff'.trans hiff.symm)]⟩

end Determinization

namespace Nfa

variable {m : Nfa}

/-- The states of `d` are the sets `R w` of states that `m` may be in after a text `w`. -/
structure DeterminizesTo (m : Nfa) (d : Dfa) (R : List Char → List Nat) : Prop where
  states : ∀ w, m.statesAfter w = .ok (R w)
  closed : ∀ w, m.closure (R w) = .ok (R w)
  runs : ∀ w, ∃ o, d.run Dfa.start w = .ok o
  falls : ∀ w, w ≠ [] → (d.run Dfa.start w = .ok none ↔ R w = [])
  same : ∀ u v p q, d.run Dfa.start u = .ok (some p) → d.run Dfa.start v = .ok (some q) →
    (p = q ↔ R u = R v)
  accept : ∀ w q, d.run Dfa.start w = .ok (some q) →
    ∃ b, d.isAccept q = .ok b ∧ (b = true ↔ ∃ s ∈ R w, m.isAccept s = .ok true)
  reached : ∀ q, q < d.size → ∃ w, d.run Dfa.start w = .ok (some q)
  accepts : ∀ w, ∃ b, d.accepts? w = .ok b ∧ m.accepts? w = .ok b

/-- Determinisation is exact. -/
theorem Reachable.determinizesTo (h : m.Reachable) :
    ∃ d R, m.toDfa.outcome = .ok d ∧ m.DeterminizesTo d R := by
  have hm := h.valid
  obtain ⟨d, hd, hfinished⟩ := Determinization.toDfa_spec hm
  choose R hstates henum using statesAfter_spec hm
  have hend : ∀ w q, d.dfa.run Dfa.start w = .ok (some q) → d.subsets[q]? = some (R w) :=
    fun w q => (hfinished.run_spec hm (hstates w)).1 q
  refine ⟨d.dfa, R, hd, hstates, fun w => closure_statesAfter hm (henum w),
    fun w => ⟨_, hfinished.run_eq w⟩, fun w => (hfinished.run_spec hm (hstates w)).2,
    fun u v p q hu hv => ⟨?_, fun heq => ?_⟩, fun w q hq => ?_, fun q hq => ?_,
    hfinished.accepts?_spec hm⟩
  · rintro rfl
    exact Option.some.inj ((hend u p hu).symm.trans (hend v p hv))
  · exact hfinished.indexed.distinct p q _ (hend u p hu) (heq ▸ hend v q hv)
  · simpa only [isAccept_eq_true_iff] using hfinished.isAccept_spec (hend w q hq)
  · obtain ⟨w, -, hw⟩ := hfinished.settled.reached q _
      (Array.getElem?_eq_getElem (hfinished.indexed.size ▸ hq))
    exact ⟨w, by rw [hfinished.run_eq, hw]⟩

/-- The chart of the deterministic machine has the language of the graph. -/
theorem toDfa_spec (hm : m.Valid) :
    ∃ d, m.toDfa.outcome = .ok d ∧ d.Proper ∧ d.chart.language = m.graph.language := by
  obtain ⟨d, hd, hfinished⟩ := Determinization.toDfa_spec hm
  have hproper := hfinished.indexed.proper
  refine ⟨d.dfa, hd, hproper, ?_⟩
  ext w
  obtain ⟨b, hb, hdfa⟩ := hproper.accepts?_spec w
  obtain ⟨b', hb', hnfa⟩ := hfinished.accepts?_spec hm w
  obtain ⟨b'', hb'', hiff⟩ := accepts?_spec hm w
  cases hb.symm.trans hb'
  cases hnfa.symm.trans hb''
  exact hdfa.symm.trans hiff

theorem exists_determinizesTo_tangled : ∃ m, (empty.applyAll tangled).outcome = .ok m ∧
    m.Reachable ∧ ∃ d R, m.toDfa.outcome = .ok d ∧ m.DeterminizesTo d R := by
  obtain ⟨m, hm⟩ := exists_tangled
  exact ⟨m, hm, ⟨tangled, hm⟩, Reachable.determinizesTo ⟨tangled, hm⟩⟩

end Nfa

end RegularLanguages
