import RegularLanguages.Dfa.Basic
import RegularLanguages.Proofs.Alphabet.Partition
import RegularLanguages.Proofs.Chart.Basic
import RegularLanguages.Proofs.Row.Sorted

/-!
# The chart of a machine

`chart` reads a deterministic machine as a chart: symbols become characters again. A `Valid` machine
has a partition as its alphabet, rows in order, and edges to states that are there. Every change of
a valid machine gives a valid machine and does to the chart what the chart operation of the same
name does; the refinement of the alphabet on the way does nothing to it.
-/

namespace RegularLanguages.Dfa

/-- The state `q` is there and has the property. -/
def Has (d : Dfa) (q : Nat) (P : State → Prop) : Prop := ∃ s, d.states[q]? = some s ∧ P s

/-- The machine without its alphabet. -/
def chart (d : Dfa) : Chart where
  size := d.states.size
  start q := d.Has q (·.isStart = true)
  accept q := d.Has q (·.isAccept = true)
  move q c := d.states[q]?.bind (·.edges.get? (d.alphabet.index c))

/-- The row is in order, over an alphabet and a machine of these sizes. -/
structure State.Valid (symbols states : Nat) (s : State) : Prop where
  sorted : s.edges.Sorted
  entry_lt : ∀ e ∈ s.edges.entries, e.1 < symbols ∧ e.2 < states

structure Valid (d : Dfa) : Prop where
  partition : d.alphabet.Partition
  states : ∀ (q : Nat) (s : State), d.states[q]? = some s →
    s.Valid d.alphabet.size d.states.size

/-- A valid machine in which 0 is the only start. -/
structure Proper (d : Dfa) : Prop extends d.Valid where
  start_iff : ∀ q, d.chart.start q ↔ q = 0

variable {d : Dfa}

theorem Has.lt {q : Nat} {P : State → Prop} (h : d.Has q P) : q < d.chart.size := by
  obtain ⟨s, hs, -⟩ := h
  exact (Array.getElem?_eq_some_iff.1 hs).1

theorem Proper.size_pos (h : d.Proper) : 0 < d.chart.size := Has.lt ((h.start_iff 0).2 rfl)

theorem state_eq_ok_iff {q : Nat} {s : State} : d.state q = .ok s ↔ d.states[q]? = some s := by
  unfold state
  cases d.states[q]? <;> simp

theorem exists_state {q : Nat} (hq : q < d.chart.size) : ∃ s, d.states[q]? = some s :=
  ⟨d.states[q], Array.getElem?_eq_getElem hq⟩

theorem has_iff {q : Nat} {s : State} (hs : d.states[q]? = some s) {P : State → Prop} :
    d.Has q P ↔ P s :=
  ⟨fun h => by
    obtain ⟨s', hs', hP⟩ := h
    rw [hs, Option.some.injEq] at hs'
    exact hs' ▸ hP, fun hP => ⟨s, hs, hP⟩⟩

theorem start_iff {q : Nat} {s : State} (hs : d.states[q]? = some s) :
    d.chart.start q ↔ s.isStart = true :=
  has_iff hs

theorem accept_iff {q : Nat} {s : State} (hs : d.states[q]? = some s) :
    d.chart.accept q ↔ s.isAccept = true :=
  has_iff hs

theorem move_eq {q : Nat} {s : State} (hs : d.states[q]? = some s) (c : Char) :
    d.chart.move q c = s.edges.get? (d.alphabet.index c) := by
  simp only [chart, hs, Option.bind_some]

theorem Valid.lt_of_move (h : d.Valid) {q t : Nat} {c : Char} (hm : d.chart.move q c = some t) :
    q < d.chart.size ∧ t < d.chart.size := by
  obtain ⟨s, hs, ht⟩ := Option.bind_eq_some_iff.1 hm
  exact ⟨(Array.getElem?_eq_some_iff.1 hs).1,
    ((h.states q s hs).entry_lt _ (Row.mem_entries_of_get? ht)).2⟩

/-! ## States and their roles -/

theorem getElem?_initial (q : Nat) :
    initial.states[q]? = if q = 0 then some ⟨true, false, .empty⟩ else none := by
  cases q <;> simp [initial]

theorem valid_initial : initial.Valid where
  partition := Alphabet.partition_trivial
  states q s hs := by
    rw [getElem?_initial] at hs
    split at hs
    · cases hs
      exact ⟨Row.sorted_empty, fun _ he => absurd he List.not_mem_nil⟩
    · cases hs

theorem chart_initial : initial.chart = .initial := by
  refine Chart.eq_of_iff rfl (fun q => ?_) (fun q => ?_) fun q c => ?_ <;>
    simp only [chart, Has, getElem?_initial] <;> by_cases hq : q = 0 <;>
    simp [hq, Chart.initial]

theorem proper_initial : initial.Proper where
  toValid := valid_initial
  start_iff q := by
    rw [chart_initial]
    rfl

theorem getElem?_addState (d : Dfa) (q : Nat) : d.addState.2.states[q]? =
    if q = d.states.size then some ⟨false, false, .empty⟩ else d.states[q]? :=
  Array.getElem?_push

theorem Valid.addState (h : d.Valid) : d.addState.2.Valid where
  partition := h.partition
  states q s hs := by
    have hsize : d.addState.2.states.size = d.states.size + 1 := Array.size_push ..
    rw [getElem?_addState] at hs
    rw [hsize]
    split at hs
    · cases hs
      exact ⟨Row.sorted_empty, fun _ he => absurd he List.not_mem_nil⟩
    · have hq := h.states q s hs
      exact ⟨hq.sorted, fun e he => ⟨(hq.entry_lt e he).1, Nat.lt_succ_of_lt (hq.entry_lt e he).2⟩⟩

theorem chart_addState (d : Dfa) : d.addState.2.chart = d.chart.addState := by
  refine Chart.eq_of_iff (Array.size_push ..) (fun q => ?_) (fun q => ?_) fun q c => ?_ <;>
    simp only [chart, Has, getElem?_addState, Chart.addState] <;>
    by_cases hq : q = d.states.size
  all_goals simp [hq, addState]

/-- One state changed. -/
def modify (d : Dfa) (id : Nat) (f : State → State) : Dfa :=
  { d with states := d.states.modify id f }

theorem getElem?_modify (d : Dfa) (id : Nat) (f : State → State) (q : Nat) :
    (d.modify id f).states[q]? = if q = id then d.states[q]?.map f else d.states[q]? := by
  simp only [modify, Array.getElem?_modify, eq_comm (a := q)]

theorem Valid.modify (h : d.Valid) (id : Nat) {f : State → State}
    (hf : ∀ s : State, s.Valid d.alphabet.size d.states.size →
      (f s).Valid d.alphabet.size d.states.size) : (d.modify id f).Valid where
  partition := h.partition
  states q s hs := by
    have hsize : (d.modify id f).states.size = d.states.size := Array.size_modify
    rw [getElem?_modify] at hs
    rw [hsize]
    split at hs
    · obtain ⟨s₀, hs₀, rfl⟩ := Option.map_eq_some_iff.1 hs
      exact hf s₀ (h.states q s₀ hs₀)
    · exact h.states q s hs

theorem setAccept_spec (h : d.Valid) {id : Nat} (hid : id < d.chart.size) (value : Bool) :
    ∃ d', d.setAccept id value = .ok d' ∧ d'.Valid ∧ d'.chart = d.chart.setAccept id value := by
  obtain ⟨s, hs⟩ := exists_state hid
  refine ⟨d.modify id fun s => { s with isAccept := value }, ?_,
    h.modify id fun s hs => ⟨hs.sorted, hs.entry_lt⟩, ?_⟩
  · rw [setAccept, state_eq_ok_iff.2 hs]
    rfl
  · refine Chart.eq_of_iff Array.size_modify (fun q => ?_) (fun q => ?_) fun q c => ?_ <;>
      simp only [chart, Has, getElem?_modify, Chart.setAccept] <;> by_cases hq : q = id
    all_goals simp [hq, hs, modify]

/-! ## Edges -/

/-- The machine over the alphabet refined for `k`. -/
def refined (d : Dfa) (k : CharClass) : Dfa :=
  ⟨(d.alphabet.refine k).1, d.states.map fun s =>
    { s with edges := s.edges.renumber (d.alphabet.refine k).2 }⟩

theorem outcome_express (d : Dfa) (k : CharClass) :
    (d.express k).outcome = .ok (if d.alphabet.expresses k then d else d.refined k) := by
  by_cases hk : d.alphabet.expresses k = true
  · simp [express, hk]
  · simp [express, hk, Alphabet.expand, refined]

theorem getElem?_refined (d : Dfa) (k : CharClass) (q : Nat) :
    (d.refined k).states[q]? = d.states[q]?.map fun s =>
      { s with edges := s.edges.renumber (d.alphabet.refine k).2 } :=
  Array.getElem?_map

theorem Valid.refined (h : d.Valid) (k : CharClass) : (d.refined k).Valid where
  partition := h.partition.refine k
  states q s hs := by
    have hsymbols : (d.refined k).alphabet.size = (d.alphabet.refine k).2.length := by
      simp [Dfa.refined, Alphabet.refine, Alphabet.size]
    have hstates : (d.refined k).states.size = d.states.size := Array.size_map
    rw [getElem?_refined] at hs
    obtain ⟨s₀, hs₀, rfl⟩ := Option.map_eq_some_iff.1 hs
    refine ⟨Row.sorted_renumber .., fun e he => ?_⟩
    obtain ⟨old, hold, ht⟩ := Row.mem_renumber.1 he
    rw [hsymbols, hstates]
    exact ⟨(List.getElem?_eq_some_iff.1 hold).1,
      ((h.states q s₀ hs₀).entry_lt _ (Row.mem_entries_of_get? ht)).2⟩

theorem Valid.chart_refined (h : d.Valid) (k : CharClass) : (d.refined k).chart = d.chart := by
  have hold (c : Char) : (d.alphabet.refine k).2[(d.refined k).alphabet.index c]? =
      some (d.alphabet.index c) := h.partition.getElem?_origins k c
  refine Chart.eq_of_iff Array.size_map (fun q => ?_) (fun q => ?_) fun q c => ?_ <;>
    simp only [chart, Has, getElem?_refined] <;> cases d.states[q]? <;>
    simp [Row.get?_renumber, hold]

/-- Refining the alphabet for a class changes no edge. -/
theorem express_spec (h : d.Valid) (k : CharClass) :
    ∃ d', (d.express k).outcome = .ok d' ∧ d'.Valid ∧ d'.alphabet = (d.alphabet.refine k).1 ∧
      d'.chart = d.chart := by
  refine ⟨_, outcome_express d k, ?_⟩
  split
  · rename_i hk
    exact ⟨h, (Alphabet.refine_eq_self (h.partition.expresses_iff.1 hk)).symm, rfl⟩
  · exact ⟨h.refined k, rfl, h.chart_refined k⟩

theorem State.Valid.setAll {symbols states : Nat} {s : State} (h : s.Valid symbols states)
    {xs : List Nat} (hxs : ∀ x ∈ xs, x < symbols) {target : Nat} (htarget : target < states) :
    State.Valid symbols states { s with edges := s.edges.setAll xs target } where
  sorted := h.sorted.setAll xs target
  entry_lt e he := by
    rcases Row.mem_setAll he with ⟨hx, ht⟩ | he
    · exact ⟨hxs _ hx, ht ▸ htarget⟩
    · exact h.entry_lt e he

/-- An edge can be added between any two states. -/
theorem add_spec (h : d.Valid) {source target : Nat} (hsource : source < d.chart.size)
    (htarget : target < d.chart.size) (k : CharClass) :
    ∃ d', (d.add source target k).outcome = .ok d' ∧ d'.Valid ∧
      d'.alphabet = (d.alphabet.refine k).1 ∧ d'.chart = d.chart.addEdges source k target := by
  have hsize : ¬d.size ≤ target := Nat.not_le_of_lt htarget
  by_cases hk : k.isEmpty = true
  · have hnone : ∀ c, c ∉ k := CharClass.not_mem_of_isEmpty hk
    refine ⟨d, by simp [add, hsize, hk], h, ?_, by simp [Chart.addEdges, hnone]⟩
    exact (Alphabet.refine_eq_self fun b _ => .inr fun c _ => hnone c).symm
  · obtain ⟨d', hd', h', halphabet, hchart⟩ := express_spec h k
    have hres : d'.alphabet.Resolves k := halphabet ▸ Alphabet.resolves_refine _ k
    rw [← hchart] at hsource htarget ⊢
    obtain ⟨s, hs⟩ := exists_state hsource
    refine ⟨d'.modify source fun s =>
      { s with edges := s.edges.setAll (d'.alphabet.symbolsOf k) target }, ?_, ?_, halphabet, ?_⟩
    · simp [add, hsize, hk, hd', state_eq_ok_iff.2 hs]
      rfl
    · refine h'.modify source fun s hs => hs.setAll (fun x hx => ?_) htarget
      obtain ⟨c, -, rfl⟩ := h'.partition.exists_index_of_mem_symbolsOf hx
      exact h'.partition.index_lt c
    · refine Chart.eq_of_iff Array.size_modify (fun q => ?_) (fun q => ?_) fun q c => ?_ <;>
        simp only [chart, Has, getElem?_modify, Chart.addEdges] <;> by_cases hq : q = source
      all_goals simp [hq, hs, modify, Row.get?_setAll, h'.partition.index_mem_symbolsOf hres]

end RegularLanguages.Dfa
