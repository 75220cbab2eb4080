import RegularLanguages.Proofs.Nfa.Invariant

/-!
# Deleting a state

A deleted state leaves an empty slot. The states with an edge to it are those that it knows of, so
it is enough to drop it from their targets; after that no state has an edge to it or from it, and
the targets of its own edges may forget it.
-/

namespace RegularLanguages.Nfa

variable {m : Nfa}

/-- The machine with an empty slot in the place of a state, and its edges as they were. -/
def cleared (m : Nfa) (id : Nat) : Nfa := { m with slots := m.slots.setIfInBounds id none }

theorem has_cleared {id u : Nat} {P : State → Prop} :
    (m.cleared id).Has u P ↔ u ≠ id ∧ m.Has u P := by
  simp only [Has, state?, cleared, Array.getElem?_setIfInBounds, eq_comm (a := id)]
  by_cases hu : u = id
  · simp only [hu, if_true, ne_eq, not_true, false_and, iff_false]
    split <;> simp
  · simp [hu]

theorem state?_foldl_modify {f : State → State} {ids : List Nat} (hids : ids.Nodup) (u : Nat) :
    (ids.foldl (fun m id => m.modify id f) m).state? u =
      if u ∈ ids then (m.state? u).map f else m.state? u := by
  induction ids generalizing m with
  | nil => rfl
  | cons id rest ih =>
    obtain ⟨hid, hrest⟩ := List.nodup_cons.1 hids
    rw [List.foldl_cons, ih hrest, state?_modify]
    by_cases hu : u = id
    · subst hu
      simp [hid]
    · simp [hu]

theorem has_foldl_modify {f : State → State} {ids : List Nat} (hids : ids.Nodup) {u : Nat}
    {P : State → Prop} : (ids.foldl (fun m id => m.modify id f) m).Has u P ↔
      m.Has u fun s => P (if u ∈ ids then f s else s) := by
  unfold Has
  rw [state?_foldl_modify hids]
  split <;> simp

@[simp] theorem alphabet_foldl_modify (f : State → State) (ids : List Nat) :
    (ids.foldl (fun m id => m.modify id f) m).alphabet = m.alphabet := by
  induction ids generalizing m with
  | nil => rfl
  | cons id rest ih => exact ih

@[simp] theorem size_foldl_modify (f : State → State) (ids : List Nat) :
    (ids.foldl (fun m id => m.modify id f) m).slots.size = m.slots.size := by
  induction ids generalizing m with
  | nil => rfl
  | cons id rest ih => exact ih.trans (by simp [modify])

/-- Forgetting a source that has no edges. -/
theorem Valid.foldl_dropIncoming (h : m.Valid) (id : Nat) (hid : ∀ l t, ¬m.graph.edge id l t)
    (ids : List Nat) :
    (ids.foldl (fun m t => m.modify t (.dropIncoming id)) m).Valid ∧
      (ids.foldl (fun m t => m.modify t (.dropIncoming id)) m).graph = m.graph := by
  induction ids generalizing m with
  | nil => exact ⟨h, rfl⟩
  | cons t rest ih =>
    have hgraph := graph_dropIncoming m id t
    have h' : (m.modify t (.dropIncoming id)).Valid := by
      refine ⟨h.partition, states_modify h.states fun s _ hs => hs.dropIncoming id, ?_⟩
      intro u l v he
      rw [hgraph] at he
      have hu : u ≠ id := fun heq => hid l v (heq ▸ he)
      exact (h.linked u l v he).modify fun s hs => (List.mem_erase_of_ne hu).2 hs
    obtain ⟨hv, hg⟩ := ih h' (hgraph ▸ hid)
    exact ⟨hv, hg.trans hgraph⟩

/-- The machine without the edges that a state knows of and without the state. -/
def unlinked (m : Nfa) (id : Nat) (s : State) : Nfa :=
  s.incoming.foldl (fun m u => m.modify u (.dropTarget id)) (m.cleared id)

section Unlinked

variable {id : Nat} {s : State} (h : m.Valid) (hs : m.state? id = some s)
include h hs

theorem Valid.has_unlinked {u : Nat} {P : State → Prop} : (m.unlinked id s).Has u P ↔
    u ≠ id ∧ m.Has u fun s' => P (if u ∈ s.incoming then s'.dropTarget id else s') :=
  (has_foldl_modify ((h.states id s hs).incoming.imp Nat.ne_of_lt)).trans has_cleared

/-- Of the edges of a state those to the removed one go, which knows where they come from. -/
theorem Valid.edge_dropTarget {u : Nat} {s' : State} (hs' : m.state? u = some s')
    (l : Option Char) (t : Nat) :
    (if u ∈ s.incoming then s'.dropTarget id else s').Edge m.alphabet l t ↔
      t ≠ id ∧ s'.Edge m.alphabet l t := by
  split
  · cases l with
    | none => exact (h.states u s' hs').mem_epsilon_dropTarget
    | some c => exact (h.states u s' hs').mem_targetsOn_dropTarget
  · rename_i hmem
    refine (and_iff_right_of_imp fun he ht => hmem ?_).symm
    exact (has_of_state? hs).1 (h.linked u l id ⟨s', hs', ht ▸ he⟩)

theorem Valid.graph_unlinked : (m.unlinked id s).graph = m.graph.delete id := by
  refine Graph.eq_of_iff (by simp [graph, unlinked, cleared, Graph.delete]) (fun u => ?_)
    (fun u => ?_) (fun u => ?_) fun u l t => ?_ <;>
    refine (h.has_unlinked hs).trans (and_congr_right fun hu => ?_)
  · rfl
  · exact has_congr fun s' _ => by split <;> rfl
  · exact has_congr fun s' _ => by split <;> rfl
  · simp only [unlinked, alphabet_foldl_modify]
    refine (has_congr fun s' hs' => h.edge_dropTarget hs hs' l t).trans ?_
    constructor
    · rintro ⟨s', hs', ht, he⟩
      exact ⟨ht, s', hs', he⟩
    · rintro ⟨ht, s', hs', he⟩
      exact ⟨s', hs', ht, he⟩

theorem Valid.unlinked : (m.unlinked id s).Valid := by
  refine ⟨?_, fun u s' hs' => ?_, fun u l t he => ?_⟩
  · rw [Nfa.unlinked, alphabet_foldl_modify]
    exact h.partition
  · obtain ⟨-, s₀, hs₀, rfl⟩ := (h.has_unlinked hs).1 ⟨s', hs', rfl⟩
    rw [Nfa.unlinked, alphabet_foldl_modify]
    split
    · exact (h.states u s₀ hs₀).dropTarget id
    · exact h.states u s₀ hs₀
  · rw [h.graph_unlinked hs] at he
    refine (h.has_unlinked hs).2 ⟨he.2.1, (h.linked u l t he.2.2).imp fun s' _ hmem => ?_⟩
    split <;> exact hmem

end Unlinked

/-- Deleting a state that is not there changes neither the machine nor its graph. -/
theorem Valid.delete_of_not_vertex (h : m.Valid) {id : Nat} (hid : ¬m.graph.vertex id) :
    m.delete id = m ∧ m.graph.delete id = m.graph := by
  constructor
  · unfold delete
    split
    · rfl
    · rename_i s hs
      exact absurd ⟨s, hs, trivial⟩ hid
  · refine Graph.delete_eq_self (fun hu => hid (hu.imp fun _ _ _ => trivial))
      (fun hu => hid (hu.imp fun _ _ _ => trivial)) hid fun u a v he => ⟨?_, ?_⟩
    · rintro rfl
      exact hid (h.vertex_of_edge he).1
    · rintro rfl
      exact hid (h.vertex_of_edge he).2

theorem delete_spec (h : m.Valid) (id : Nat) :
    (m.delete id).Valid ∧ (m.delete id).graph = m.graph.delete id := by
  cases hs : m.state? id with
  | none =>
    have hid : ¬m.graph.vertex id := by
      rintro ⟨s, hs', -⟩
      rw [hs] at hs'
      cases hs'
    obtain ⟨hm, hg⟩ := h.delete_of_not_vertex hid
    rw [hm, hg]
    exact ⟨h, rfl⟩
  | some s =>
    have hg := h.graph_unlinked hs
    obtain ⟨hv', hg'⟩ := (h.unlinked hs).foldl_dropIncoming id
      (fun l t he => by rw [hg] at he; exact he.1 rfl) s.targets
    rw [delete, hs]
    exact ⟨hv', hg'.trans hg⟩

end RegularLanguages.Nfa
