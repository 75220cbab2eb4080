import Mathlib.Order.Interval.Set.Nat
import RegularLanguages.Proofs.Nfa.Lift

/-!
# Determinising a machine that was deterministic

When the nondeterministic machine is the lift of a deterministic one, every set that a run holds has
at most one member, the state that the text leads to. So each state of the new machine stands for
one state of the old one, to which some text leads; a transition between two of them is there if and
only if the old machine has it.
-/

namespace RegularLanguages

namespace Chart

variable {g h : Chart} {f : Nat → Nat}

/-- A map that keeps where each character leads keeps where each text leads. -/
theorem walk_map (hclosed : g.Closed)
    (hmove : ∀ q c, q < g.size → h.move (f q) c = (g.move q c).map f) {q : Nat} (hq : q < g.size)
    (w : List Char) : h.walk (f q) w = (g.walk q w).map f := by
  induction w generalizing q with
  | nil => rfl
  | cons c rest ih =>
    rw [walk, walk, hmove q c hq]
    cases hm : g.move q c with
    | none => rfl
    | some t => exact ih (hclosed.move_lt q c t hm).2

end Chart

namespace Dfa

/-- An edge leads from `q` on `c` to `t`. -/
def Goes (d : Dfa) (q : Nat) (c : Char) (t : Nat) : Prop :=
  ∃ x, d.alphabet.symbolOf c = .ok x ∧ d.targetOn? q x = .ok (some t)

/-- The states that texts lead to. -/
def reachable (d : Dfa) : Set Nat := {q | ∃ w, d.run start w = .ok (some q)}

/-- `f` takes the states of `e` to the states of `d` that texts lead to, and keeps everything about
them. -/
structure ReachablePart (d e : Dfa) (f : Nat → Nat) : Prop where
  start : f 0 = 0
  bijective : Set.BijOn f (Set.Iio e.size) d.reachable
  accept : ∀ q, q < e.size → ∃ b, e.isAccept q = .ok b ∧ d.isAccept (f q) = .ok b
  goes_iff : ∀ q t c, q < e.size → t < e.size → (e.Goes q c t ↔ d.Goes (f q) c (f t))
  size : (∀ q, q < d.size → q ∈ d.reachable) → e.size = d.size

variable {d e : Dfa} {m : Nfa} {q t : Nat} {c : Char} {w : List Char}

theorem goes_iff_move (hd : d.Valid) (hq : q < d.chart.size) :
    d.Goes q c t ↔ d.chart.move q c = some t := by
  simp only [Goes, hd.partition.symbolOf_eq, Except.ok.injEq, exists_eq_left', targetOn?_spec hq]

theorem mem_reachable (hd : d.Proper) : q ∈ d.reachable ↔ ∃ w, d.chart.walk 0 w = some q := by
  refine exists_congr fun w => ?_
  rw [run_spec (q := Dfa.start) hd.toValid hd.size_pos, Except.ok.injEq]
  rfl

theorem lt_of_mem_reachable (hd : d.Proper) (hq : q ∈ d.reachable) : q < d.chart.size := by
  obtain ⟨w, hw⟩ := (mem_reachable hd).1 hq
  exact hd.closed.walk_lt hd.size_pos hw

/-! ## Runs of the lift -/

section Embedded

variable (h : Embedded d d.chart.size m)
include h

theorem Embedded.path_iff (hd : d.Valid) : m.graph.Path q w t ↔ d.chart.walk q w = some t := by
  rw [h.graph]
  exact Chart.path_embed_iff hd.closed

/-- A set that a run holds has the state that the text leads to, and no other. -/
theorem Embedded.statesAfter_eq (hd : d.Proper) (w : List Char) :
    m.statesAfter w = .ok (d.chart.walk 0 w).toList := by
  obtain ⟨r, hr, henum⟩ := Nfa.statesAfter_spec h.valid w
  have hstart : ∀ u, m.graph.start u ↔ u = 0 := fun u => by
    rw [h.graph, ← hd.start_iff]
    exact and_iff_right_of_imp Has.lt
  rw [hr, henum.unique ((StateSet.enumerates_toList _).congr fun v => ?_)]
  simp only [hstart, exists_eq_left, h.path_iff hd.toValid]

theorem Embedded.step_eq (hd : d.Valid) (hq : q < d.chart.size) (c : Char) :
    m.step [q] (m.alphabet.index c) = .ok (d.chart.move q c).toList := by
  have hvertex : ∀ u ∈ [q], m.graph.vertex u := fun u hu => by
    rw [List.mem_singleton.1 hu]
    exact h.vertex_iff.2 hq
  obtain ⟨next, hnext, henum⟩ := Nfa.step_spec h.valid hvertex c
  rw [hnext, henum.unique ((StateSet.enumerates_toList _).congr fun v => ?_)]
  simp only [List.mem_singleton, exists_eq_left, ← Graph.path_nil_iff, h.path_iff hd, Chart.walk,
    Option.some.injEq, exists_eq_right]
  rw [h.graph, Chart.edge_embed_iff hd.closed]

end Embedded

end Dfa

namespace Determinization

open Dfa (Embedded)

/-- The member of the set that a state stands for, where it has one member. -/
def member (D : Determinization) (q : Nat) : Nat := ((D.subsets[q]?.bind List.head?).getD 0)

theorem member_eq {D : Determinization} {q p : Nat} (h : D.subsets[q]? = some [p]) :
    D.member q = p := by
  rw [member, h]
  rfl

variable {d : Dfa} {m : Nfa} {D : Determinization} {q p : Nat}

section Embedded

variable (hd : d.Proper) (hm : Embedded d d.chart.size m) (hD : Finished m D)
include hd hm hD

/-- A text that leads to a state of the new machine leads to its member in the old one. -/
theorem Finished.exists_text (hq : q < D.dfa.chart.size) :
    D.subsets[q]? = some [D.member q] ∧ ∃ w, d.chart.walk 0 w = some (D.member q) := by
  have hlt : q < D.subsets.size := hD.indexed.size ▸ hq
  obtain ⟨w, hw, hwalk⟩ := hD.settled.reached q _ (Array.getElem?_eq_getElem hlt)
  have hset := hm.statesAfter_eq hd w
  cases hp : d.chart.walk 0 w with
  | none =>
    -- a set without members has no state, and the empty text leads to the start
    rw [hp] at hset
    have hne : w ≠ [] := by
      rintro rfl
      cases hp
    have hfalls := ((hD.run_spec hm.valid hset).2 hne).2 rfl
    rw [hD.run_eq, hwalk] at hfalls
    cases hfalls
  | some p =>
    rw [hp] at hset
    have hq : D.subsets[q]? = some [p] := by
      rw [Array.getElem?_eq_getElem hlt, Except.ok.inj (hw.symm.trans hset)]
      rfl
    rw [member_eq hq]
    exact ⟨hq, w, hp⟩

theorem Finished.member_zero : D.member 0 = 0 := by
  obtain ⟨ids, hids, hzero⟩ := hD.indexed.first
  have hset := hm.statesAfter_eq hd []
  rw [Nfa.statesAfter, hids] at hset
  cases hset
  exact member_eq hzero

/-- A move leads to the state for the member that the old machine goes to. -/
theorem Finished.move_member (hq : q < D.dfa.chart.size) (c : Char) :
    d.chart.move (D.member q) c = (D.dfa.chart.move q c).map D.member := by
  obtain ⟨hget, w, hw⟩ := hD.exists_text hd hm hq
  obtain ⟨next, hnext, hleads⟩ := hD.settled.next q _ c (hD.judged hget) hget
  rw [hm.step_eq hd.toValid (hd.closed.walk_lt hd.size_pos hw), Except.ok.injEq] at hnext
  subst hnext
  cases hmove : D.dfa.chart.move q c with
  | none =>
    rw [hmove] at hleads
    exact Option.toList_eq_nil_iff.1 hleads
  | some t =>
    rw [hmove] at hleads
    obtain ⟨hne, ht⟩ := hleads
    obtain ⟨p, hp⟩ := Option.ne_none_iff_exists'.1 (mt Option.toList_eq_nil_iff.2 hne)
    rw [hp] at ht ⊢
    rw [Option.map_some, member_eq ht]

theorem Finished.accept_member (hq : q < D.dfa.chart.size) :
    D.dfa.chart.accept q ↔ d.chart.accept (D.member q) := by
  obtain ⟨hget, w, hw⟩ := hD.exists_text hd hm hq
  rw [hD.settled.accept q _ (hD.judged hget) hget, hm.graph]
  simp only [List.mem_singleton, exists_eq_left]
  exact and_iff_right (hd.closed.walk_lt hd.size_pos hw)

theorem Finished.bijOn_member : Set.BijOn D.member (Set.Iio D.dfa.size) d.reachable := by
  refine ⟨fun q hq => ?_, fun q hq t ht heq => ?_, fun p hp => ?_⟩
  · exact (Dfa.mem_reachable hd).2 (hD.exists_text hd hm hq).2
  · have hset := (hD.exists_text hd hm hq).1
    exact hD.indexed.distinct q t _ hset (heq ▸ (hD.exists_text hd hm ht).1)
  · obtain ⟨w, hw⟩ := (Dfa.mem_reachable hd).1 hp
    have hproper := hD.indexed.proper
    have hwalk := Chart.walk_map hproper.closed (fun q c hq => hD.move_member hd hm hq c)
      hproper.size_pos w
    rw [hD.member_zero hd hm, hw, eq_comm, Option.map_eq_some_iff] at hwalk
    obtain ⟨q, hq, hmember⟩ := hwalk
    exact ⟨q, hproper.closed.walk_lt hproper.size_pos hq, hmember⟩

theorem Finished.reachablePart : d.ReachablePart D.dfa D.member where
  start := hD.member_zero hd hm
  bijective := hD.bijOn_member hd hm
  accept q hq := by
    have hlt := Dfa.lt_of_mem_reachable hd ((hD.bijOn_member hd hm).mapsTo hq)
    exact Outcome.same_answer (Dfa.isAccept_spec hq) (Dfa.isAccept_spec hlt)
      (hD.accept_member hd hm hq)
  goes_iff q t c hq ht := by
    have hbij := hD.bijOn_member hd hm
    have hlt := Dfa.lt_of_mem_reachable hd (hbij.mapsTo hq)
    rw [Dfa.goes_iff_move hD.indexed.proper.toValid hq, Dfa.goes_iff_move hd.toValid hlt,
      hD.move_member hd hm hq, Option.map_eq_some_iff]
    constructor
    · exact fun hmove => ⟨t, hmove, rfl⟩
    · rintro ⟨t', hmove, heq⟩
      have ht' := (hD.indexed.proper.closed.move_lt q c t' hmove).2
      rwa [hbij.injOn ht' ht heq] at hmove
  size hall := by
    have hreachable : d.reachable = Set.Iio d.size :=
      Set.ext fun q => ⟨fun hq => Dfa.lt_of_mem_reachable hd hq, hall q⟩
    have hcard := (hD.bijOn_member hd hm).ncard_eq
    rwa [hreachable, Set.ncard_Iio_nat, Set.ncard_Iio_nat] at hcard

end Embedded

end Determinization

/-- Determinising the lift of a machine gives back the part of it that texts lead to. -/
theorem Automaton.Built.toDfa_reachablePart {d : Dfa} (h : Automaton.Built (.dfa d)) :
    ∃ m e f, d.toNfa.outcome = .ok m ∧ m.toDfa.outcome = .ok e ∧ d.ReachablePart e f := by
  have hd : d.Proper := h.sound
  obtain ⟨m, hm, hembedded⟩ := hd.toValid.toNfa_embedded
  obtain ⟨D, hD, hfinished⟩ := Determinization.toDfa_spec hembedded.valid
  exact ⟨m, D.dfa, D.member, hm, hD, hfinished.reachablePart hd hembedded⟩

theorem Dfa.exists_reachablePart_detached : ∃ d, (initial.applyAll detached).outcome = .ok d ∧
    Automaton.Built (.dfa d) ∧ ∃ m e f, d.toNfa.outcome = .ok m ∧ m.toDfa.outcome = .ok e ∧
      d.ReachablePart e f := by
  obtain ⟨d, hd⟩ : ∃ d, (initial.applyAll detached).outcome = .ok d :=
    Outcome.exists_ok_of_isOk (by decide +kernel)
  have hbuilt : Automaton.Built (.dfa d) := built_of_applyAll .initial hd
  exact ⟨d, hd, hbuilt, hbuilt.toDfa_reachablePart⟩

end RegularLanguages
