import RegularLanguages.Proofs.Automaton.Built

/-!
# No alphabet is finer than the edges need

A machine is `Thrifty` if all characters that no state moves on are in one block, so that at most
one block is on no edge. Every operation keeps this: an edge that refines the alphabet uses one of
the two parts of each block that it divides, and the parts of a used block stay used. The machine
that determinisation gives is made by such changes too.
-/

namespace RegularLanguages

namespace Determinization

variable {m : Nfa} {D D' : Determinization} {P : Dfa → Prop}

section Keeps

variable (hP : ∀ (d d' : Dfa) (c : Dfa.Change), P d → (c.apply d).outcome = .ok d' → P d')
include hP

theorem keeps_stateFor (hD : P D.dfa) (ids : List Nat) : P (D.stateFor ids).2.dfa := by
  unfold stateFor
  split
  · exact hD
  · exact hP _ _ .addState hD rfl

theorem keeps_follow (hD : P D.dfa) {id : Nat} {ids : List Nat} {e : CharClass × Nat}
    (h : (follow m id ids D e).outcome = .ok D') : P D'.dfa := by
  obtain ⟨k, symbol⟩ := e
  simp only [follow, Logged.outcome_bind, Logged.outcome_liftM] at h
  obtain ⟨next, -, h⟩ := Logged.bind_eq_ok_iff.1 h
  split at h
  · cases h
    exact hD
  · rw [Logged.outcome_bind] at h
    obtain ⟨dfa, hdfa, h⟩ := Logged.bind_eq_ok_iff.1 h
    cases h
    exact hP _ _ (.add id _ k) (keeps_stateFor hP hD next) hdfa

theorem keeps_visit (hD : P D.dfa) {id : Nat} {ids : List Nat}
    (h : (visit m id ids D).outcome = .ok D') : P D'.dfa := by
  simp only [visit, Logged.outcome_bind, Logged.outcome_liftM, Logged.outcome_log,
    Logged.ok_bind] at h
  obtain ⟨value, -, h⟩ := Logged.bind_eq_ok_iff.1 h
  obtain ⟨dfa, hdfa, h⟩ := Logged.bind_eq_ok_iff.1 h
  refine Outcome.foldlM_invariant (P := fun D : Determinization => P D.dfa)
    (fun _ _ _ hD h => keeps_follow hP hD h) ?_ h
  exact hP _ _ (.setAccept id value) hD hdfa

theorem keeps_visitAll (hD : P D.dfa) {fuel : Nat}
    (h : (visitAll m fuel D).outcome = .ok D') : P D'.dfa := by
  induction fuel generalizing D with
  | zero =>
    cases h
    exact hD
  | succ fuel ih =>
    unfold visitAll at h
    split at h
    · cases h
      exact hD
    · rename_i id ids rest hpending
      rw [Logged.outcome_bind] at h
      obtain ⟨D₁, hD₁, h⟩ := Logged.bind_eq_ok_iff.1 h
      exact ih (keeps_visit hP (D := { D with pending := rest }) hD hD₁) h

end Keeps

end Determinization

/-- What the machine at the beginning has and changes keep holds of what determinisation gives. -/
theorem Nfa.toDfa_invariant {m : Nfa} {d : Dfa} {P : Dfa → Prop} (hinitial : P .initial)
    (hP : ∀ (d d' : Dfa) (c : Dfa.Change), P d → (c.apply d).outcome = .ok d' → P d')
    (h : m.toDfa.outcome = .ok d) : P d := by
  simp only [toDfa, Logged.outcome_bind, Logged.outcome_liftM] at h
  obtain ⟨ids, -, h⟩ := Logged.bind_eq_ok_iff.1 h
  obtain ⟨D, hD, h⟩ := Logged.bind_eq_ok_iff.1 h
  cases h
  exact Determinization.keeps_visitAll hP (D := .start ids) hinitial hD

namespace Dfa

/-- The characters that no state moves on have one symbol. -/
def Thrifty (d : Dfa) : Prop :=
  ∀ c c', (∀ q, d.chart.move q c = none) → (∀ q, d.chart.move q c' = none) →
    d.alphabet.index c = d.alphabet.index c'

variable {d d' : Dfa} {c : Char} {s : Nat}

/-- No character loses all its moves. -/
theorem Thrifty.mono (h : d.Thrifty) (halphabet : d'.alphabet = d.alphabet)
    (hmove : ∀ q c, d'.chart.move q c = none → d.chart.move q c = none) : d'.Thrifty := by
  intro c c' hc hc'
  rw [halphabet]
  exact h c c' (fun q => hmove q c (hc q)) fun q => hmove q c' (hc' q)

theorem thrifty_initial : initial.Thrifty := fun c c' _ _ => by
  have hc := valid_initial.partition.index_lt c
  have hc' := valid_initial.partition.index_lt c'
  have hsize : initial.alphabet.size = 1 := rfl
  omega

theorem Thrifty.addEdges (hd : d.Valid) (h : d.Thrifty) {source target : Nat} {k : CharClass}
    (halphabet : d'.alphabet = (d.alphabet.refine k).1)
    (hchart : d'.chart = d.chart.addEdges source k target) : d'.Thrifty := by
  intro c c' hc hc'
  have hout : ∀ {c}, (∀ q, d'.chart.move q c = none) → c ∉ k ∧ ∀ q, d.chart.move q c = none := by
    intro c hc
    simp only [hchart, Chart.move_addEdges] at hc
    have hck : c ∉ k := fun hck => by simpa [hck] using hc source
    exact ⟨hck, fun q => by simpa [hck] using hc q⟩
  obtain ⟨hck, hc⟩ := hout hc
  obtain ⟨hck', hc'⟩ := hout hc'
  rw [halphabet, hd.partition.index_refine_eq_iff]
  exact ⟨h c c' hc hc', iff_of_false hck hck'⟩

theorem Thrifty.complete (hd : d.Valid) (h : d.Thrifty) : d.complete.Thrifty := by
  rw [complete_eq]
  split
  · exact h
  · refine h.mono rfl fun q c hc => ?_
    rw [hd.chart_withSink] at hc
    exact (Option.or_eq_none_iff.1 hc).1

theorem Thrifty.flip (h : d.Thrifty) : d.flip.Thrifty :=
  h.mono rfl fun q c hc => by rwa [chart_flip] at hc

theorem Thrifty.apply (hd : d.Valid) (h : d.Thrifty) {c : Change}
    (hc : (c.apply d).outcome = .ok d') : d'.Thrifty := by
  cases c with
  | addState =>
    cases hc
    exact h.mono rfl fun q c hc => by rwa [chart_addState] at hc
  | add source target k =>
    obtain ⟨-, halphabet, hchart⟩ := add_spec_of_eq_ok hd hc
    exact h.addEdges hd halphabet hchart
  | setAccept id value =>
    have hchart := (apply_spec hd hc).2
    obtain ⟨s, hs, heq⟩ := Logged.bind_eq_ok_iff.1 hc
    cases heq
    exact h.mono rfl fun q c hc => by rwa [hchart] at hc
  | complete =>
    cases hc
    exact h.complete hd

/-! ## Copies -/

theorem mem_rows : s ∈ d.rows.flatten ↔
    ∃ (q : Nat) (st : State), d.states[q]? = some st ∧ s ∈ st.edges.symbols := by
  simp only [rows, List.mem_flatten, List.mem_map, Array.mem_toList_iff, exists_exists_and_eq_and,
    Array.mem_iff_getElem?]
  constructor
  · rintro ⟨st, ⟨q, hq⟩, hs⟩
    exact ⟨q, st, hq, hs⟩
  · rintro ⟨q, st, hq, hs⟩
    exact ⟨st, ⟨q, hq⟩, hs⟩

/-- A symbol is on an edge if and only if some state moves on its characters. -/
theorem Valid.index_mem_rows (hd : d.Valid) :
    d.alphabet.index c ∈ d.rows.flatten ↔ ∃ q t, d.chart.move q c = some t := by
  rw [mem_rows]
  constructor
  · rintro ⟨q, st, hq, hs⟩
    obtain ⟨t, ht⟩ := (hd.states q st hq).sorted.mem_symbols.1 hs
    exact ⟨q, t, (move_eq hq c).trans ht⟩
  · rintro ⟨q, t, ht⟩
    obtain ⟨st, hq⟩ := exists_state (hd.lt_of_move ht).1
    exact ⟨q, st, hq, (hd.states q st hq).sorted.mem_symbols.2 ⟨t, (move_eq hq c).symm.trans ht⟩⟩

theorem Thrifty.of_copy (hd : d.Valid) (hd' : d.copy.outcome = .ok d') : d'.Thrifty := by
  obtain ⟨-, halphabet, hchart⟩ := Outcome.of_exists_ok hd.copy_spec hd'
  have hgathers : d'.alphabet.Gathers d.labels :=
    halphabet ▸ Alphabet.gathers_refineAll_trivial d.labels
  intro c c' hc hc'
  have hout : ∀ {c}, (∀ q, d'.chart.move q c = none) → ∀ k ∈ d.labels, c ∉ k := by
    intro c hc k hk hck
    obtain ⟨s, hs, rfl⟩ := List.mem_map.1 hk
    rw [hd.partition.mem_label] at hck
    obtain ⟨q, t, ht⟩ := hd.index_mem_rows.1 (hck ▸ hs)
    rw [← hchart, hc q] at ht
    cases ht
  exact (hgathers.index_eq_iff c c').2 fun k hk => iff_of_false (hout hc k hk) (hout hc' k hk)

end Dfa

/-- A thrifty machine, or one of the other kind. -/
def Automaton.Spare : Automaton → Prop
  | .nfa _ => True
  | .dfa d => d.Thrifty

theorem Automaton.Built.spare {a : Automaton} (h : a.Built) : a.Spare := by
  induction h with
  | empty => exact trivial
  | initial => exact Dfa.thrifty_initial
  | changeNfa => exact trivial
  | changeDfa hd hc ih => exact ih.apply hd.sound.toValid hc
  | copy hd hd' _ => exact .of_copy hd.sound.toValid hd'
  | complement hd hd' _ =>
    obtain ⟨c, hc, heq⟩ := Logged.bind_eq_ok_iff.1 (Logged.outcome_bind .. ▸ hd')
    cases heq
    have hvalid := (Outcome.of_exists_ok hd.sound.toValid.copy_spec hc).1
    exact ((Dfa.Thrifty.of_copy hd.sound.toValid hc).complete hvalid).flip
  | ofPattern => exact trivial
  | toNfa => exact trivial
  | toDfa _ hd _ =>
    have hboth := Nfa.toDfa_invariant (P := fun d => d.Valid ∧ d.Thrifty)
      ⟨Dfa.valid_initial, Dfa.thrifty_initial⟩
      (fun _ _ _ h hc => ⟨(Dfa.apply_spec h.1 hc).1, h.2.apply h.1 hc⟩) hd
    exact hboth.2

end RegularLanguages
