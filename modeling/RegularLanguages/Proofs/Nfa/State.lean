import RegularLanguages.Nfa.Basic
import RegularLanguages.Proofs.Row.Sorted

/-!
# One state of a nondeterministic machine

A `Valid` state keeps its tables in order: symbols below the size of the alphabet, each with a
nonempty set of targets. The equations for `targetsOn` say what every change does to the edges.
-/

namespace RegularLanguages.Nfa.State

/-- The tables of the state are in order, over an alphabet of this size. -/
structure Valid (symbols : Nat) (s : State) : Prop where
  sorted : s.edges.Sorted
  symbol_lt : ∀ e ∈ s.edges.entries, e.1 < symbols
  inhabited : ∀ e ∈ s.edges.entries, e.2 ≠ []
  ordered : ∀ e ∈ s.edges.entries, e.2.Pairwise (· < ·)
  epsilon : s.epsilon.Pairwise (· < ·)
  incoming : s.incoming.Pairwise (· < ·)

variable {symbols : Nat} {s : State}

theorem valid_blank (symbols : Nat) : blank.Valid symbols :=
  ⟨.nil, nofun, nofun, nofun, .nil, .nil⟩

theorem mem_targetsOn_of_mem {x t : Nat} (h : t ∈ s.targetsOn x) :
    ∃ ids, (x, ids) ∈ s.edges.entries ∧ t ∈ ids := by
  unfold targetsOn at h
  cases hget : s.edges.get? x with
  | none => rw [hget] at h; cases h
  | some ids => exact ⟨ids, Row.mem_entries_of_get? hget, by rwa [hget] at h⟩

theorem Valid.mem_targetsOn (h : s.Valid symbols) {x t : Nat} :
    t ∈ s.targetsOn x ↔ ∃ ids, (x, ids) ∈ s.edges.entries ∧ t ∈ ids := by
  refine ⟨mem_targetsOn_of_mem, ?_⟩
  rintro ⟨ids, hids, ht⟩
  rwa [targetsOn, h.sorted.get?_eq_some_iff.2 hids]

theorem Valid.pairwise_targetsOn (h : s.Valid symbols) (x : Nat) :
    (s.targetsOn x).Pairwise (· < ·) := by
  unfold targetsOn
  cases hget : s.edges.get? x with
  | none => exact .nil
  | some ids => exact h.ordered _ (Row.mem_entries_of_get? hget)

theorem Valid.mem_targets (h : s.Valid symbols) {t : Nat} :
    t ∈ s.targets ↔ (∃ x, t ∈ s.targetsOn x) ∨ t ∈ s.epsilon := by
  simp only [targets, List.mem_append, List.mem_flatMap, Prod.exists, h.mem_targetsOn]

/-! ## Adding edges -/

theorem mem_targetsOn_addEdge {target x y t : Nat} :
    t ∈ (s.addEdge target x).targetsOn y ↔ (y = x ∧ t = target) ∨ t ∈ s.targetsOn y := by
  unfold addEdge targetsOn
  rw [Row.get?_set]
  split
  · rename_i hyx
    simp only [Option.getD_some, StateSet.mem_insert, hyx, true_and]
  · rename_i hyx
    simp [hyx]

theorem Valid.addEdge (h : s.Valid symbols) {x : Nat} (hx : x < symbols) (target : Nat) :
    (s.addEdge target x).Valid symbols where
  sorted := h.sorted.set ..
  symbol_lt e he := by
    rcases Row.mem_set he with rfl | he
    · exact hx
    · exact h.symbol_lt e he
  inhabited e he := by
    rcases Row.mem_set he with rfl | he
    · exact List.ne_nil_of_mem (StateSet.mem_insert.2 (.inl rfl))
    · exact h.inhabited e he
  ordered e he := by
    rcases Row.mem_set he with rfl | he
    · exact StateSet.pairwise_insert (h.pairwise_targetsOn x)
    · exact h.ordered e he
  epsilon := h.epsilon
  incoming := h.incoming

theorem foldl_addEdge_eq (target : Nat) (xs : List Nat) (s : State) :
    ∃ edges, xs.foldl (.addEdge target) s = { s with edges := edges } := by
  induction xs generalizing s with
  | nil => exact ⟨s.edges, rfl⟩
  | cons x rest ih => exact ih (s.addEdge target x)

theorem Valid.foldl_addEdge (h : s.Valid symbols) {xs : List Nat} (hxs : ∀ x ∈ xs, x < symbols)
    (target : Nat) : (xs.foldl (.addEdge target) s).Valid symbols := by
  induction xs generalizing s with
  | nil => exact h
  | cons x rest ih =>
    rw [List.forall_mem_cons] at hxs
    exact ih (h.addEdge hxs.1 target) hxs.2

theorem mem_targetsOn_foldl_addEdge {target : Nat} {xs : List Nat} {y t : Nat} :
    t ∈ (xs.foldl (.addEdge target) s).targetsOn y ↔
      (y ∈ xs ∧ t = target) ∨ t ∈ s.targetsOn y := by
  induction xs generalizing s with
  | nil => simp
  | cons x rest ih =>
    rw [List.foldl_cons, ih, mem_targetsOn_addEdge, List.mem_cons, or_and_right, or_assoc,
      or_left_comm]

theorem Valid.addEpsilon (h : s.Valid symbols) (target : Nat) :
    (s.addEpsilon target).Valid symbols :=
  { h with epsilon := StateSet.pairwise_insert h.epsilon }

theorem Valid.addIncoming (h : s.Valid symbols) (source : Nat) :
    (s.addIncoming source).Valid symbols :=
  { h with incoming := StateSet.pairwise_insert h.incoming }

theorem Valid.dropIncoming (h : s.Valid symbols) (source : Nat) :
    (s.dropIncoming source).Valid symbols :=
  { h with incoming := h.incoming.erase source }

/-! ## Removing a target -/

theorem mem_erase_of_pairwise {ids : List Nat} (h : ids.Pairwise (· < ·)) {t target : Nat} :
    t ∈ ids.erase target ↔ t ≠ target ∧ t ∈ ids :=
  List.Nodup.mem_erase_iff (h.imp Nat.ne_of_lt)

theorem mem_entries_dropTarget {target x : Nat} {ids : List Nat} :
    (x, ids) ∈ (s.dropTarget target).edges.entries ↔
      ∃ old, (x, old) ∈ s.edges.entries ∧ old.erase target = ids ∧ ids ≠ [] := by
  simp only [dropTarget, List.mem_filter, List.mem_map, Prod.exists, Prod.mk.injEq,
    Bool.not_eq_true', List.isEmpty_eq_false_iff]
  constructor
  · rintro ⟨⟨y, old, hold, rfl, rfl⟩, hne⟩
    exact ⟨old, hold, rfl, hne⟩
  · rintro ⟨old, hold, rfl, hne⟩
    exact ⟨⟨x, old, hold, rfl, rfl⟩, hne⟩

theorem Valid.dropTarget (h : s.Valid symbols) (target : Nat) :
    (s.dropTarget target).Valid symbols where
  sorted := List.Pairwise.filter _ (List.Pairwise.map _ (fun _ _ hlt => hlt) h.sorted)
  symbol_lt := by
    rintro ⟨x, ids⟩ he
    obtain ⟨old, hold, -⟩ := mem_entries_dropTarget.1 he
    exact h.symbol_lt (x, old) hold
  inhabited := by
    rintro ⟨x, ids⟩ he
    obtain ⟨-, -, -, hne⟩ := mem_entries_dropTarget.1 he
    exact hne
  ordered := by
    rintro ⟨x, ids⟩ he
    obtain ⟨old, hold, rfl, -⟩ := mem_entries_dropTarget.1 he
    exact (h.ordered (x, old) hold).erase target
  epsilon := h.epsilon.erase target
  incoming := h.incoming

theorem Valid.mem_targetsOn_dropTarget (h : s.Valid symbols) {target x t : Nat} :
    t ∈ (s.dropTarget target).targetsOn x ↔ t ≠ target ∧ t ∈ s.targetsOn x := by
  rw [(h.dropTarget target).mem_targetsOn, h.mem_targetsOn]
  constructor
  · rintro ⟨ids, hids, ht⟩
    obtain ⟨old, hold, rfl, -⟩ := mem_entries_dropTarget.1 hids
    obtain ⟨hne, hmem⟩ := (mem_erase_of_pairwise (h.ordered _ hold)).1 ht
    exact ⟨hne, old, hold, hmem⟩
  · rintro ⟨hne, old, hold, ht⟩
    have hmem := (mem_erase_of_pairwise (h.ordered _ hold)).2 ⟨hne, ht⟩
    exact ⟨_, mem_entries_dropTarget.2 ⟨old, hold, rfl, List.ne_nil_of_mem hmem⟩, hmem⟩

theorem Valid.mem_epsilon_dropTarget (h : s.Valid symbols) {target t : Nat} :
    t ∈ (s.dropTarget target).epsilon ↔ t ≠ target ∧ t ∈ s.epsilon :=
  mem_erase_of_pairwise h.epsilon

end RegularLanguages.Nfa.State
