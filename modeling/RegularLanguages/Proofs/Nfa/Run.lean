import RegularLanguages.Nfa.Run
import RegularLanguages.Proofs.Nfa.Invariant
import RegularLanguages.Proofs.Outcome
import RegularLanguages.Proofs.StateSet.Enumeration

/-!
# Runs follow the walks of the graph

On a valid machine no part of a run faults. `closure` gives the states that epsilon edges reach,
`step` those one character further, and `run` those at the end of a walk that reads the text; the
machine accepts a text if and only if its graph has it in its language.

The search of `closure` keeps `Exploring`: what it has seen is reached from where it began, and
what it has seen and no longer has on its stack has all its epsilon targets seen. `Searches` is the
search without a bound; it ends because no state is taken from the stack twice.
-/

namespace RegularLanguages.Nfa

open StateSet (Enumerates)

variable {m : Nfa}

/-! ## Visiting states -/

/-- What visiting `ids` does to the states seen and the stack. -/
structure Visits (ids : List Nat) (seen stack seen' stack' : List Nat) : Prop where
  ordered : seen.Pairwise (· < ·) → seen'.Pairwise (· < ·)
  mem_seen : ∀ v, v ∈ seen' ↔ v ∈ seen ∨ v ∈ ids
  mem_stack : ∀ v, v ∈ stack' ↔ v ∈ stack ∨ (v ∈ ids ∧ v ∉ seen)
  length : stack'.length + seen.length = stack.length + seen'.length

theorem visits_foldl (ids : List Nat) (p : List Nat × List Nat) :
    Visits ids p.1 p.2 (ids.foldl visit p).1 (ids.foldl visit p).2 := by
  induction ids generalizing p with
  | nil => exact ⟨id, by simp, by simp, rfl⟩
  | cons u rest ih =>
    obtain ⟨seen, stack⟩ := p
    have h := ih (visit (seen, stack) u)
    rw [List.foldl_cons]
    by_cases hu : u ∈ seen
    · rw [visit, if_pos hu] at h ⊢
      refine ⟨h.ordered, fun v => ?_, fun v => ?_, h.length⟩
      · rw [h.mem_seen, List.mem_cons]
        grind
      · rw [h.mem_stack, List.mem_cons]
        grind
    · rw [visit, if_neg hu] at h ⊢
      refine ⟨fun hs => h.ordered (StateSet.pairwise_insert hs), fun v => ?_, fun v => ?_, ?_⟩
      · rw [h.mem_seen, StateSet.mem_insert, List.mem_cons]
        grind
      · rw [h.mem_stack, StateSet.mem_insert, List.mem_cons, List.mem_cons]
        grind
      · have := h.length
        simp only [StateSet.length_insert hu, List.length_cons] at this ⊢
        omega

/-! ## Closures -/

/-- A search for the states that epsilon edges reach from where `P` holds. -/
structure Exploring (m : Nfa) (P : Nat → Prop) (seen stack : List Nat) : Prop where
  ordered : seen.Pairwise (· < ·)
  vertex : ∀ v ∈ seen, m.graph.vertex v
  sound : ∀ v ∈ seen, ∃ u, P u ∧ m.graph.EpsilonReach u v
  start : ∀ u, P u → u ∈ seen
  pending : ∀ v ∈ stack, v ∈ seen
  closed : ∀ v t, v ∈ seen → v ∉ stack → m.graph.edge v none t → t ∈ seen

theorem Exploring.length_le {P : Nat → Prop} {seen stack : List Nat}
    (h : Exploring m P seen stack) :
    seen.length ≤ m.slots.size :=
  StateSet.length_le h.ordered fun v hv => lt_of_vertex (h.vertex v hv)

theorem Exploring.step (hm : m.Valid) {P : Nat → Prop} {seen stack seen' stack' : List Nat}
    {id : Nat} {s : State} (hs : m.state? id = some s) (h : Exploring m P seen (id :: stack))
    (hv : Visits s.epsilon seen stack seen' stack') : Exploring m P seen' stack' := by
  have hedge : ∀ t, t ∈ s.epsilon ↔ m.graph.edge id none t := fun t => (edge_none_iff hs).symm
  have hid : id ∈ seen := h.pending id (List.mem_cons_self ..)
  refine ⟨hv.ordered h.ordered, fun v hmem => ?_, fun v hmem => ?_, fun u hu => ?_,
    fun v hmem => ?_, fun v t hmem hstack he => ?_⟩
  · rcases (hv.mem_seen v).1 hmem with hmem | hmem
    · exact h.vertex v hmem
    · exact (hm.vertex_of_edge ((hedge v).1 hmem)).2
  · rcases (hv.mem_seen v).1 hmem with hmem | hmem
    · exact h.sound v hmem
    · obtain ⟨u, hu, hr⟩ := h.sound id hid
      exact ⟨u, hu, hr.tail ((hedge v).1 hmem)⟩
  · exact (hv.mem_seen u).2 (.inl (h.start u hu))
  · rcases (hv.mem_stack v).1 hmem with hmem | ⟨hmem, -⟩
    · exact (hv.mem_seen v).2 (.inl (h.pending v (List.mem_cons_of_mem _ hmem)))
    · exact (hv.mem_seen v).2 (.inr hmem)
  · -- a state off the new stack is the one just taken, or was off the stack before
    rw [hv.mem_stack, not_or, not_and_not_right] at hstack
    have hold : v ∈ seen := ((hv.mem_seen v).1 hmem).elim (fun h => h) hstack.2
    by_cases hvid : v = id
    · exact (hv.mem_seen t).2 (.inr ((hedge t).2 (hvid ▸ he)))
    · refine (hv.mem_seen t).2 (.inl (h.closed v t hold ?_ he))
      exact fun hcons => (List.mem_cons.1 hcons).elim hvid hstack.1

/-- When nothing is pending the search has found everything. -/
theorem Exploring.enumerates {P : Nat → Prop} {seen : List Nat} (h : Exploring m P seen []) :
    Enumerates seen fun v => ∃ u, P u ∧ m.graph.EpsilonReach u v := by
  refine ⟨h.ordered, fun v => ⟨h.sound v, ?_⟩⟩
  rintro ⟨u, hu, hr⟩
  induction hr with
  | refl => exact h.start u hu
  | tail _ he ih => exact h.closed _ _ ih List.not_mem_nil he

/-- The search from a set of states seen and a stack, for as long as the stack is not empty. -/
inductive Searches (m : Nfa) : List Nat × List Nat → List Nat → Prop where
  | done {seen : List Nat} : Searches m (seen, []) seen
  | take {seen stack ids : List Nat} {id : Nat} {s : State} : m.state id = .ok s →
      Searches m (s.epsilon.foldl visit (seen, stack)) ids → Searches m (seen, id :: stack) ids

/-- The search ends before the fuel does: each state taken is seen and no longer on the stack. -/
theorem exists_searches (hm : m.Valid) {P : Nat → Prop} {fuel : Nat} {seen stack : List Nat}
    (h : Exploring m P seen stack) (hfuel : stack.length + m.slots.size ≤ fuel + seen.length) :
    ∃ ids, m.exploreEpsilon fuel (seen, stack) = .ok ids ∧ m.Searches (seen, stack) ids := by
  induction fuel generalizing seen stack with
  | zero =>
    have hle := h.length_le
    obtain rfl : stack = [] := List.length_eq_zero_iff.1 (by omega)
    exact ⟨seen, by rw [exploreEpsilon], .done⟩
  | succ fuel ih =>
    cases stack with
    | nil => exact ⟨seen, by rw [exploreEpsilon], .done⟩
    | cons id stack =>
      obtain ⟨s, hs, -⟩ := h.vertex id (h.pending id (List.mem_cons_self ..))
      have hv := visits_foldl s.epsilon (seen, stack)
      have hlen := hv.length
      obtain ⟨ids, hids, hsearches⟩ := ih (h.step hm hs hv) (by
        simp only [List.length_cons] at hfuel hlen
        omega)
      refine ⟨ids, ?_, .take (state_eq_ok_iff.2 hs) hsearches⟩
      rw [exploreEpsilon, state_eq_ok_iff.2 hs, Logged.ok_bind]
      exact hids

/-- A search that ends has found what epsilon edges reach, and nothing else. -/
theorem Searches.enumerates (hm : m.Valid) {P : Nat → Prop} {p : List Nat × List Nat}
    {ids : List Nat} (hsearches : m.Searches p ids) (h : Exploring m P p.1 p.2) :
    Enumerates ids fun v => ∃ u, P u ∧ m.graph.EpsilonReach u v := by
  induction hsearches with
  | done => exact h.enumerates
  | @take seen stack ids id s hs _ ih =>
    exact ih (h.step hm (state_eq_ok_iff.1 hs) (visits_foldl s.epsilon (seen, stack)))

/-- At the beginning all that has been seen is on the stack. -/
theorem exploring_start (ids : List Nat) (hids : ∀ u ∈ ids, m.graph.vertex u) :
    Exploring m (· ∈ ids) (ids.foldl visit ([], [])).1 (ids.foldl visit ([], [])).2 := by
  have hv := visits_foldl ids ([], [])
  have hseen : ∀ v, v ∈ (ids.foldl visit ([], [])).1 → v ∈ ids := fun v hmem =>
    ((hv.mem_seen v).1 hmem).resolve_left List.not_mem_nil
  refine ⟨hv.ordered .nil, fun v hmem => hids v (hseen v hmem),
    fun v hmem => ⟨v, hseen v hmem, .refl⟩, fun u hu => ?_, fun v hmem => ?_,
    fun v t hmem hstack _ => ?_⟩
  · exact (hv.mem_seen u).2 (.inr hu)
  · exact (hv.mem_seen v).2 (((hv.mem_stack v).1 hmem).imp_right And.left)
  · exact absurd ((hv.mem_stack v).2 (.inr ⟨hseen v hmem, List.not_mem_nil⟩)) hstack

/-- The search of a closure runs to its end. -/
theorem closure_searches (hm : m.Valid) (ids : List Nat) (hids : ∀ u ∈ ids, m.graph.vertex u) :
    ∃ cl, m.closure ids = .ok cl ∧ m.Searches (ids.foldl visit ([], [])) cl := by
  refine exists_searches hm (exploring_start ids hids) ?_
  have hlength := (visits_foldl ids ([], [])).length
  simp only [List.length_nil] at hlength
  omega

theorem closure_spec (hm : m.Valid) (ids : List Nat) (hids : ∀ u ∈ ids, m.graph.vertex u) :
    ∃ cl, m.closure ids = .ok cl ∧
      Enumerates cl fun v => ∃ u ∈ ids, m.graph.EpsilonReach u v := by
  obtain ⟨cl, hcl, hsearches⟩ := closure_searches hm ids hids
  exact ⟨cl, hcl, hsearches.enumerates hm (exploring_start ids hids)⟩

/-! ## Steps and runs -/

theorem targetsOn_spec {u : Nat} (hu : m.graph.vertex u) (c : Char) :
    ∃ ts, m.targetsOn u (m.alphabet.index c) = .ok ts ∧
      ∀ t, t ∈ ts ↔ m.graph.edge u (some c) t := by
  obtain ⟨s, hs, -⟩ := hu
  exact ⟨s.targetsOn (m.alphabet.index c), by rw [targetsOn, state_eq_ok_iff.2 hs]; rfl,
    fun t => (edge_some_iff hs).symm⟩

theorem vertex_of_epsilonReach (hm : m.Valid) {u v : Nat} (hu : m.graph.vertex u)
    (h : m.graph.EpsilonReach u v) : m.graph.vertex v := by
  induction h with
  | refl => exact hu
  | tail _ he _ => exact (hm.vertex_of_edge he).2

theorem vertex_of_mem_closure (hm : m.Valid) {P : Nat → Prop} (hP : ∀ u, P u → m.graph.vertex u)
    {ids : List Nat} (hids : Enumerates ids fun v => ∃ u, P u ∧ m.graph.EpsilonReach u v) :
    ∀ v ∈ ids, m.graph.vertex v := by
  intro v hv
  obtain ⟨u, hu, hr⟩ := (hids.mem_iff v).1 hv
  exact vertex_of_epsilonReach hm (hP u hu) hr

theorem vertex_of_exists_edge (hm : m.Valid) {ids : List Nat} {c : Char} (t : Nat)
    (h : ∃ u ∈ ids, m.graph.edge u (some c) t) : m.graph.vertex t := by
  obtain ⟨u, -, he⟩ := h
  exact (hm.vertex_of_edge he).2

theorem step_spec (hm : m.Valid) {ids : List Nat} (hids : ∀ u ∈ ids, m.graph.vertex u) (c : Char) :
    ∃ next, m.step ids (m.alphabet.index c) = .ok next ∧
      Enumerates next fun v => ∃ t, (∃ u ∈ ids, m.graph.edge u (some c) t) ∧
        m.graph.EpsilonReach t v := by
  obtain ⟨ts, hts, hmem⟩ := Outcome.mapM_spec fun u hu => targetsOn_spec (hids u hu) c
  have hflat : ∀ t, t ∈ ts.flatten ↔ ∃ u ∈ ids, m.graph.edge u (some c) t := fun t =>
    Outcome.mem_flatten_of_forall₂ hmem
  obtain ⟨next, hnext, henum⟩ := closure_spec hm ts.flatten fun t ht =>
    vertex_of_exists_edge hm t ((hflat t).1 ht)
  refine ⟨next, by rw [step, hts]; exact hnext, henum.congr fun v => ?_⟩
  simp only [hflat]

theorem run_nil (m : Nfa) (w : List Char) : m.run [] w = .ok [] := by
  cases w <;> rfl

theorem run_cons (m : Nfa) (id : Nat) (ids : List Nat) (c : Char) (w : List Char) :
    m.run (id :: ids) (c :: w) = m.alphabet.symbolOf c >>= fun x =>
      m.step (id :: ids) x >>= fun next => m.run next w := rfl

theorem run_of_step (hm : m.Valid) {c : Char} {ids next : List Nat}
    (hnext : m.step ids (m.alphabet.index c) = .ok next) (w : List Char) :
    m.run ids (c :: w) = m.run next w := by
  cases ids with
  | nil =>
    cases hnext
    rw [run_nil, run_nil]
  | cons id ids => rw [run_cons, hm.partition.symbolOf_eq, Logged.ok_bind, hnext, Logged.ok_bind]

/-- A run that starts with a closed set holds the ends of the walks that read the text. -/
theorem run_spec (hm : m.Valid) {P : Nat → Prop} (hP : ∀ u, P u → m.graph.vertex u)
    {ids : List Nat} (hids : Enumerates ids fun v => ∃ u, P u ∧ m.graph.EpsilonReach u v)
    (w : List Char) : ∃ r, m.run ids w = .ok r ∧
      Enumerates r fun v => ∃ u, P u ∧ m.graph.Path u w v := by
  induction w generalizing P ids with
  | nil =>
    refine ⟨ids, by rw [run], hids.congr fun v => ?_⟩
    simp only [Graph.path_nil_iff]
  | cons c rest ih =>
    obtain ⟨next, hnext, henum⟩ := step_spec hm (vertex_of_mem_closure hm hP hids) c
    obtain ⟨r, hr, hmem⟩ := ih (vertex_of_exists_edge hm) henum
    refine ⟨r, (run_of_step hm hnext rest).trans hr, hmem.congr fun v => ?_⟩
    simp only [Graph.path_cons_iff, hids.mem_iff]
    constructor
    · rintro ⟨t, ⟨s, ⟨u, hu, hus⟩, hst⟩, htv⟩
      exact ⟨u, hu, s, t, hus, hst, htv⟩
    · rintro ⟨u, hu, s, t, hus, hst, htv⟩
      exact ⟨t, ⟨s, ⟨u, hu, hus⟩, hst⟩, htv⟩

/-! ## Acceptance -/

theorem mem_states {id : Nat} {s : State} : (id, s) ∈ m.states ↔ m.state? id = some s := by
  simp only [states, List.mem_filterMap, List.mem_range, Option.map_eq_some_iff, Prod.mk.injEq]
  constructor
  · rintro ⟨_, -, _, hs, rfl, rfl⟩
    exact hs
  · intro hs
    exact ⟨id, lt_of_vertex ⟨s, hs, trivial⟩, s, hs, rfl, rfl⟩

theorem mem_startStates {id : Nat} : id ∈ m.startStates ↔ m.graph.start id := by
  simp [startStates, mem_states, graph, Has]

theorem mem_acceptStates {id : Nat} : id ∈ m.acceptStates ↔ m.graph.accept id := by
  simp [acceptStates, mem_states, graph, Has]

theorem vertex_of_start {u : Nat} (h : m.graph.start u) : m.graph.vertex u :=
  h.imp fun _ _ _ => trivial

theorem startSet_spec (hm : m.Valid) : ∃ ids, m.startSet = .ok ids ∧
    Enumerates ids fun v => ∃ u, m.graph.start u ∧ m.graph.EpsilonReach u v := by
  obtain ⟨ids, hids, henum⟩ := closure_spec hm m.startStates fun u hu =>
    vertex_of_start (mem_startStates.1 hu)
  refine ⟨ids, hids, henum.congr fun v => ?_⟩
  simp only [mem_startStates]

/-- The set of states that the machine may be in after a text. -/
def statesAfter (m : Nfa) (w : List Char) : Except Fault (List Nat) := do m.run (← m.startSet) w

theorem statesAfter_spec (hm : m.Valid) (w : List Char) : ∃ r, m.statesAfter w = .ok r ∧
    Enumerates r fun v => ∃ u, m.graph.start u ∧ m.graph.Path u w v := by
  obtain ⟨ids, hids, henum⟩ := startSet_spec hm
  obtain ⟨r, hr, hmem⟩ := run_spec hm (fun u => vertex_of_start) henum w
  exact ⟨r, by rw [statesAfter, hids]; exact hr, hmem⟩

theorem anyAccepts_spec (ids : List Nat) (hids : ∀ u ∈ ids, m.graph.vertex u) :
    ∃ b, m.anyAccepts ids = .ok b ∧ (b = true ↔ ∃ u ∈ ids, m.graph.accept u) := by
  refine Outcome.anyM_spec fun u hu => ?_
  obtain ⟨s, hs, -⟩ := hids u hu
  exact ⟨s.isAccept, by rw [isAccept, state_eq_ok_iff.2 hs]; rfl, (accept_iff hs).symm⟩

theorem accepts?_eq {w : List Char} {r : List Nat} (hr : m.statesAfter w = .ok r) :
    m.accepts? w = m.anyAccepts r := by
  obtain ⟨ids, hids, hrun⟩ := Logged.bind_eq_ok_iff.1 hr
  rw [accepts?, hids, Logged.ok_bind, hrun]
  rfl

theorem isAccept_eq_true_iff {u : Nat} : m.isAccept u = .ok true ↔ m.graph.accept u := by
  constructor
  · intro h
    obtain ⟨s, hs, ha⟩ := Logged.bind_eq_ok_iff.1 h
    exact ⟨s, state_eq_ok_iff.1 hs, Except.ok.inj ha⟩
  · rintro ⟨s, hs, ha⟩
    rw [isAccept, state_eq_ok_iff.2 hs, ← ha]
    rfl

theorem vertex_of_path (hm : m.Valid) {u v : Nat} {w : List Char} (hu : m.graph.vertex u)
    (h : m.graph.Path u w v) : m.graph.vertex v :=
  h.induction_on_closed (fun _ _ _ _ he => (hm.vertex_of_edge he).2) hu

theorem vertex_of_mem_statesAfter (hm : m.Valid) {w : List Char} {r : List Nat}
    (hmem : Enumerates r fun v => ∃ u, m.graph.start u ∧ m.graph.Path u w v) :
    ∀ v ∈ r, m.graph.vertex v := by
  intro v hv
  obtain ⟨u, hu, hp⟩ := (hmem.mem_iff v).1 hv
  exact vertex_of_path hm (vertex_of_start hu) hp

/-- The states after a text are all that epsilon edges lead to from them. -/
theorem closure_statesAfter (hm : m.Valid) {w : List Char} {r : List Nat}
    (hmem : Enumerates r fun v => ∃ u, m.graph.start u ∧ m.graph.Path u w v) :
    m.closure r = .ok r := by
  obtain ⟨cl, hcl, henum⟩ := closure_spec hm r (vertex_of_mem_statesAfter hm hmem)
  rw [hcl, henum.unique (hmem.congr fun v => ?_)]
  simp only [hmem.mem_iff]
  constructor
  · rintro ⟨u, hu, hp⟩
    exact ⟨v, ⟨u, hu, hp⟩, .refl⟩
  · rintro ⟨t, ⟨u, hu, hp⟩, hr⟩
    have hpath := hp.trans (Graph.path_nil_iff.2 hr)
    rw [List.append_nil] at hpath
    exact ⟨u, hu, hpath⟩

/-- A valid machine accepts the language of its graph, and nothing in it faults. -/
theorem accepts?_spec (hm : m.Valid) (w : List Char) :
    ∃ b, m.accepts? w = .ok b ∧ (b = true ↔ w ∈ m.graph.language) := by
  obtain ⟨r, hr, hmem⟩ := statesAfter_spec hm w
  obtain ⟨b, hb, hiff⟩ := anyAccepts_spec r (vertex_of_mem_statesAfter hm hmem)
  refine ⟨b, by rw [accepts?_eq hr, hb], hiff.trans ?_⟩
  simp only [hmem.mem_iff, Graph.mem_language]
  constructor
  · rintro ⟨v, ⟨u, hu, hp⟩, hv⟩
    exact ⟨u, v, hu, hv, hp⟩
  · rintro ⟨u, v, hu, hv, hp⟩
    exact ⟨v, ⟨u, hu, hp⟩, hv⟩

end RegularLanguages.Nfa
