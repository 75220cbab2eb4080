import RegularLanguages.Proofs.Automaton.Built
import RegularLanguages.Proofs.Graph.Trail
import RegularLanguages.Proofs.Nfa.Refinement
import RegularLanguages.Proofs.Pattern.OfNfa

/-!
# What each round of elimination leaves

The states are numbered with the start states first, and the rounds eliminate them from the last
number down. Before each round the cell of two numbers that are left stands for the trails between
them by way of the eliminated states, and the end of a row for the trails that stay among these up
to an accepting state. A start state that is solved keeps its moves to smaller numbers; putting the
finished patterns of these behind the moves, in the order of the numbers, gives all that is accepted.
-/

namespace RegularLanguages

/-- The cell in the column `j` of a row. Rows hold their cells from the last column down. -/
def Equation.cell? (e : Equation) (j : Nat) : Option Pattern := e.moves.reverse[j]?

/-- All rows by number: those that are open are the first ones. -/
def Elimination.rows (s : Elimination) : List Equation := s.pending.reverse ++ s.solved

namespace Nfa

/-- The states, start states first. -/
def numbering (m : Nfa) : List Nat := m.eliminationOrder.reverse

/-- The state has the number `k` or a greater one. -/
def NumberedFrom (m : Nfa) (k u : Nat) : Prop := ∃ i, k ≤ i ∧ m.numbering[i]? = some u

/-- The system after the rounds for all numbers from the last one down to `k`. -/
def eliminated (m : Nfa) (equations : List Equation) (k : Nat) : Elimination :=
  .rounds (m.numbering.length - k) ⟨equations, []⟩

/-- The patterns of the start states after the last round. -/
def startPatterns (m : Nfa) (equations : List Equation) : List Pattern :=
  Elimination.finishAll ((m.eliminated equations 0).solved.take m.startStates.length)

end Nfa

variable {g : Graph} {E : Nat → Prop} {ks vs : List Nat} {i j k u v : Nat} {e : Equation}
  {es : List Equation} {s : Elimination} {m : Nfa}

/-! ## Rows and cells -/

theorem Equation.Denotes.exists_cell (h : e.Denotes g E vs u) (hv : vs.reverse[j]? = some v) :
    ∃ p, e.cell? j = some p ∧ ∀ w, w ∈ p.language ↔ g.Joins E u v w := by
  obtain ⟨p, hp, hlanguage⟩ := Outcome.exists_of_forall₂ (List.forall₂_reverse_iff.2 h.moves) hv
  exact ⟨p, hp, fun w => by rw [hlanguage, Graph.mem_through_iff]⟩

theorem Equation.Denotes.mem_finish_iff (h : e.Denotes g E vs u) (w : List Char) :
    w ∈ e.finish.language ↔ g.Concludes E u w := by
  rw [h.finish, Graph.mem_routes_ends_iff_concludes]

namespace Elimination

theorem Holds.exists_row (h : s.Holds g ks vs) (hu : vs.reverse[i]? = some u) :
    ∃ e, s.rows[i]? = some e ∧ e.Denotes g (· ∈ ks) vs u := by
  obtain ⟨e, he, hdenotes⟩ := Outcome.exists_of_forall₂ (List.forall₂_reverse_iff.2 h.pending) hu
  refine ⟨e, ?_, hdenotes⟩
  rw [rows, List.getElem?_append_left (List.getElem?_eq_some_iff.1 he).1, he]

theorem Holds.rows_eq_solved (h : s.Holds g ks []) : s.rows = s.solved := by
  rw [rows, List.forall₂_nil_left_iff.1 h.pending]
  rfl

/-- The row of a solved number speaks of the numbers that were solved by then. -/
theorem Solved.exists_denotes (h : Solved g ks vs es) (hu : ks[i]? = some u) :
    ∃ e, es[i]? = some e ∧ ∃ vs, e.Denotes g (· ∈ ks.drop i) vs u := by
  induction h generalizing i with
  | nil => cases hu
  | @cons k ks vs e es he _ ih =>
    cases i with
    | zero =>
      cases hu
      exact ⟨e, rfl, vs, he⟩
    | succ i => exact ih hu

end Elimination

/-! ## The numbering -/

namespace Nfa

theorem mem_numbering : u ∈ m.numbering ↔ m.graph.vertex u :=
  List.mem_reverse.trans mem_eliminationOrder

theorem nodup_numbering (m : Nfa) : m.numbering.Nodup := by
  have hstates : ∀ P : Nat × State → Bool, ((m.states.filter P).map Prod.fst).Nodup := fun P =>
    List.pairwise_map.2 ((m.pairwise_states.filter P).imp Nat.ne_of_lt)
  rw [numbering, eliminationOrder, List.reverse_reverse]
  refine List.nodup_append.2 ⟨hstates _, hstates _, ?_⟩
  intro u hu v hv heq
  subst heq
  obtain ⟨⟨_, s⟩, hs, rfl⟩ := List.mem_map.1 hu
  obtain ⟨⟨_, t⟩, ht, htu⟩ := List.mem_map.1 hv
  rw [List.mem_filter, mem_states] at hs ht
  cases htu
  cases hs.1.symm.trans ht.1
  rw [show s.isStart = true from hs.2] at ht
  cases ht.2

theorem mem_drop_numbering_iff : u ∈ m.numbering.drop k ↔ m.NumberedFrom k u := by
  rw [List.mem_drop_iff_getElem]
  constructor
  · rintro ⟨i, hi, rfl⟩
    exact ⟨k + i, Nat.le_add_right k i, List.getElem?_eq_getElem _⟩
  · rintro ⟨i, hki, hu⟩
    obtain ⟨hi, rfl⟩ := List.getElem?_eq_some_iff.1 hu
    refine ⟨i - k, by omega, ?_⟩
    simp only [Nat.add_sub_cancel' hki]

/-! ## The rounds of a machine -/

section Rounds

variable {equations : List Equation} (hdenotes : List.Forall₂
  (fun u e => e.Denotes m.graph (· ∈ []) m.eliminationOrder u) m.eliminationOrder equations)
include hdenotes

theorem holds_eliminated (k : Nat) :
    (m.eliminated equations k).Holds m.graph (m.numbering.drop k) (m.numbering.take k).reverse := by
  have hsplit : m.eliminationOrder =
      (m.numbering.drop k).reverse ++ (m.numbering.take k).reverse := by
    rw [← List.reverse_append, List.take_append_drop, numbering, List.reverse_reverse]
  have hinit : Elimination.Holds m.graph []
      ((m.numbering.drop k).reverse ++ (m.numbering.take k).reverse) ⟨equations, []⟩ := by
    rw [← hsplit]
    exact ⟨hdenotes, .nil⟩
  have hrounds := hinit.rounds
  rw [List.length_reverse, List.length_drop, List.reverse_reverse, List.append_nil] at hrounds
  exact hrounds

theorem holds_eliminated_zero : (m.eliminated equations 0).Holds m.graph m.numbering [] := by
  have hholds := holds_eliminated hdenotes 0
  rwa [List.drop_zero, List.take_zero, List.reverse_nil] at hholds

/-- A row that is open, with the cells of the open numbers. -/
theorem exists_open_row (hi : i < k) (hk : k ≤ m.numbering.length) :
    ∃ u e, m.numbering[i]? = some u ∧ (m.eliminated equations k).rows[i]? = some e ∧
      (∀ w, w ∈ e.finish.language ↔ m.graph.Concludes (m.NumberedFrom k) u w) ∧
      ∀ j < k, ∃ v p, m.numbering[j]? = some v ∧ e.cell? j = some p ∧
        ∀ w, w ∈ p.language ↔ m.graph.Joins (m.NumberedFrom k) u v w := by
  have hnumber (j : Nat) (hj : j < k) : ∃ v, m.numbering[j]? = some v ∧
      (m.numbering.take k).reverse.reverse[j]? = some v := by
    have hv := List.getElem?_eq_getElem (hj.trans_le hk)
    rw [List.reverse_reverse, List.getElem?_take_of_lt hj]
    exact ⟨_, hv, hv⟩
  obtain ⟨u, hu, hu'⟩ := hnumber i hi
  obtain ⟨e, he, hrow⟩ := (holds_eliminated hdenotes k).exists_row hu'
  simp only [mem_drop_numbering_iff] at hrow
  refine ⟨u, e, hu, he, hrow.mem_finish_iff, fun j hj => ?_⟩
  obtain ⟨v, hv, hv'⟩ := hnumber j hj
  obtain ⟨p, hp, hcell⟩ := hrow.exists_cell hv'
  exact ⟨v, p, hv, hp, hcell⟩

theorem exists_solved_row (hi : i < m.numbering.length) :
    ∃ u e, m.numbering[i]? = some u ∧ (m.eliminated equations 0).rows[i]? = some e ∧
      ∀ w, w ∈ e.finish.language ↔ m.graph.Concludes (m.NumberedFrom i) u w := by
  have hholds := holds_eliminated_zero hdenotes
  obtain ⟨e, he, vs, hrow⟩ := hholds.solved.exists_denotes (List.getElem?_eq_getElem hi)
  simp only [mem_drop_numbering_iff] at hrow
  exact ⟨_, e, List.getElem?_eq_getElem hi, hholds.rows_eq_solved ▸ he, hrow.mem_finish_iff⟩

theorem exists_startPattern (hm : m.Valid) (hi : i < m.startStates.length) :
    ∃ u p, m.numbering[i]? = some u ∧ (m.startPatterns equations)[i]? = some p ∧
      ∀ w, w ∈ p.language ↔ ∃ v, m.graph.accept v ∧ m.graph.Path u w v := by
  have hedge : ∀ u a v, m.graph.edge u a v → v ∈ m.numbering := fun u a v he =>
    mem_numbering.2 (hm.vertex_of_edge he).2
  have hfinished := (holds_eliminated_zero hdenotes).solved.finishAll hedge m.startStates.length
  have hnumber : (m.numbering.take m.startStates.length)[i]? = m.numbering[i]? :=
    List.getElem?_take_of_lt hi
  rw [numbering, take_reverse_eliminationOrder] at hnumber
  rw [numbering, take_reverse_eliminationOrder] at hfinished
  rw [List.getElem?_eq_getElem hi] at hnumber
  obtain ⟨p, hp, hlanguage⟩ := Outcome.exists_of_forall₂ hfinished (List.getElem?_eq_getElem hi)
  exact ⟨_, p, hnumber.symm, hp, fun w => by rw [hlanguage, Graph.mem_routes_ends_iff]⟩

end Rounds

/-- Elimination on the equations of the machine, round by round. -/
structure Eliminates (m : Nfa) (equations : List Equation) : Prop where
  /-- Each state has one number. -/
  nodup : m.numbering.Nodup
  vertex : ∀ u, u ∈ m.numbering ↔ m.graph.vertex u
  /-- The start states have the first numbers. -/
  starts : m.numbering.take m.startStates.length = m.startStates
  setup : m.eliminationOrder.mapM (m.equation m.eliminationOrder) = .ok equations
  /-- When all numbers from `k` on are eliminated, the rows below stand for trails through these. -/
  rows : ∀ k ≤ m.numbering.length, ∀ i < k, ∃ u e, m.numbering[i]? = some u ∧
    (m.eliminated equations k).rows[i]? = some e ∧
    (∀ w, w ∈ e.finish.language ↔ m.graph.Concludes (m.NumberedFrom k) u w) ∧
    ∀ j < k, ∃ v p, m.numbering[j]? = some v ∧ e.cell? j = some p ∧
      ∀ w, w ∈ p.language ↔ m.graph.Joins (m.NumberedFrom k) u v w
  /-- After the last round each row stands for the trails that stay among the numbers from its own
  on. -/
  solved : ∀ i < m.numbering.length, ∃ u e, m.numbering[i]? = some u ∧
    (m.eliminated equations 0).rows[i]? = some e ∧
    ∀ w, w ∈ e.finish.language ↔ m.graph.Concludes (m.NumberedFrom i) u w
  /-- The finished patterns of the start states match all that is accepted from them. -/
  finished : ∀ i < m.startStates.length, ∃ u p, m.numbering[i]? = some u ∧
    (m.startPatterns equations)[i]? = some p ∧
    ∀ w, w ∈ p.language ↔ ∃ v, m.graph.accept v ∧ m.graph.Path u w v
  outcome : m.toPattern.outcome =
    .ok ((m.startPatterns equations).foldl Pattern.alt .null).simplify

theorem Valid.eliminates (hm : m.Valid) : ∃ equations, m.Eliminates equations := by
  obtain ⟨equations, hequations, hdenotes⟩ := equations_spec hm
  have houtcome : m.toPattern.outcome =
      .ok ((m.startPatterns equations).foldl Pattern.alt .null).simplify := by
    rw [toPattern, Logged.outcome_bind, Logged.outcome_ofExcept, hequations, startPatterns,
      eliminated, numbering, List.length_reverse]
    rfl
  exact ⟨equations, m.nodup_numbering, fun _ => mem_numbering, take_reverse_eliminationOrder m,
    hequations, fun k hk i hi => exists_open_row hdenotes hi hk,
    fun i hi => exists_solved_row hdenotes hi, fun i hi => exists_startPattern hdenotes hm hi,
    houtcome⟩

end Nfa

/-- Before and after every round the patterns in the rows match exactly the trails that the numbers
eliminated by then allow. -/
theorem Automaton.Built.elimination_invariant {m : Nfa} (h : Automaton.Built (.nfa m)) :
    ∃ equations, m.Eliminates equations :=
  Nfa.Valid.eliminates h.sound

/-- Here two start states reach each other, and the third state reaches itself and back. -/
theorem Nfa.exists_eliminates_tangled : ∃ m, (empty.applyAll tangled).outcome = .ok m ∧
    Automaton.Built (.nfa m) ∧ m.numbering = [0, 1, 2] ∧ m.startStates = [0, 1] ∧
      ∃ equations, m.Eliminates equations := by
  obtain ⟨m, hm⟩ := exists_tangled
  have hbuilt : Automaton.Built (.nfa m) := built_of_applyAll .empty hm
  have hnumbering : ((empty.applyAll tangled).outcome.map (·.numbering)).toOption =
      some [0, 1, 2] := by decide +kernel
  have hstarts : ((empty.applyAll tangled).outcome.map (·.startStates)).toOption =
      some [0, 1] := by decide +kernel
  rw [hm] at hnumbering hstarts
  exact ⟨m, hm, hbuilt, Option.some.inj hnumbering, Option.some.inj hstarts,
    hbuilt.elimination_invariant⟩

end RegularLanguages
