import RegularLanguages.Proofs.Nfa.Invariant

/-!
# Adding an edge

Refining the alphabet of a machine leaves its graph alone: the new symbol of a character takes over
the targets of its old one. Over the refined alphabet the class of the new edge is a union of
blocks, so that setting an entry for each of them adds the edge on the characters of the class and
on no others.
-/

namespace RegularLanguages.Nfa

variable {m : Nfa}

/-! ## Refining the alphabet -/

/-- The machine over the alphabet refined for `k`. -/
def refined (m : Nfa) (k : CharClass) : Nfa :=
  ⟨(m.alphabet.refine k).1, m.slots.map (·.map fun s =>
    { s with edges := s.edges.renumber (m.alphabet.refine k).2 })⟩

theorem outcome_express (m : Nfa) (k : CharClass) :
    (m.express k).outcome = .ok (if m.alphabet.expresses k then m else m.refined k) := by
  by_cases hk : m.alphabet.expresses k = true
  · simp [express, hk]
  · simp [express, hk, Alphabet.expand, refined]

theorem state?_refined (m : Nfa) (k : CharClass) (u : Nat) :
    (m.refined k).state? u = (m.state? u).map fun s =>
      { s with edges := s.edges.renumber (m.alphabet.refine k).2 } := by
  simp only [state?, refined, Array.getElem?_map]
  cases m.slots[u]? <;> rfl

theorem has_refined {k : CharClass} {u : Nat} {P : State → Prop} :
    (m.refined k).Has u P ↔
      m.Has u fun s => P { s with edges := s.edges.renumber (m.alphabet.refine k).2 } := by
  unfold Has
  rw [state?_refined]
  simp

theorem Valid.graph_refined (h : m.Valid) (k : CharClass) : (m.refined k).graph = m.graph := by
  refine Graph.eq_of_iff (by simp [graph, refined]) (fun u => ?_) (fun u => ?_)
    (fun u => ?_) fun u l t => ?_ <;> refine has_refined.trans ?_
  · rfl
  · rfl
  · rfl
  · cases l with
    | none => rfl
    | some c =>
      -- the new symbol of `c` has the entry of its old symbol
      simp only [State.Edge, State.targetsOn, refined, Row.get?_renumber,
        h.partition.getElem?_origins k c, Option.bind_some]
      rfl

theorem State.Valid.renumber {symbols : Nat} {s : State} (h : s.Valid symbols)
    (origins : List Nat) :
    State.Valid origins.length { s with edges := s.edges.renumber origins } where
  sorted := Row.sorted_renumber ..
  symbol_lt e he := by
    obtain ⟨old, hold, -⟩ := Row.mem_renumber.1 he
    exact (List.getElem?_eq_some_iff.1 hold).1
  inhabited e he := by
    obtain ⟨old, -, hids⟩ := Row.mem_renumber.1 he
    exact h.inhabited (old, e.2) (Row.mem_entries_of_get? hids)
  ordered e he := by
    obtain ⟨old, -, hids⟩ := Row.mem_renumber.1 he
    exact h.ordered (old, e.2) (Row.mem_entries_of_get? hids)
  epsilon := h.epsilon
  incoming := h.incoming

theorem Valid.refined (h : m.Valid) (k : CharClass) : (m.refined k).Valid where
  partition := h.partition.refine k
  states u s hs := by
    rw [state?_refined] at hs
    obtain ⟨s₀, hs₀, rfl⟩ := Option.map_eq_some_iff.1 hs
    have hsize : (m.refined k).alphabet.size = (m.alphabet.refine k).2.length := by
      simp [Nfa.refined, Alphabet.refine, Alphabet.size]
    exact hsize ▸ (h.states u s₀ hs₀).renumber _
  linked u l t he := has_refined.2 (h.linked u l t (h.graph_refined k ▸ he))

/-- Refining the alphabet for a class moves no edge. -/
theorem express_spec (h : m.Valid) (k : CharClass) :
    ∃ m', (m.express k).outcome = .ok m' ∧ m'.Valid ∧ m'.alphabet.Resolves k ∧
      m'.graph = m.graph := by
  refine ⟨_, outcome_express m k, ?_⟩
  split
  · rename_i hk
    exact ⟨h, h.partition.expresses_iff.1 hk, rfl⟩
  · exact ⟨h.refined k, Alphabet.resolves_refine _ k, h.graph_refined k⟩

/-! ## The edge itself -/

theorem gains_addEpsilon {a : Alphabet} {s : State} (h : s.Valid a.size) (target : Nat) :
    s.Gains a .epsilon target (s.addEpsilon target) where
  valid := h.addEpsilon target
  isStart := rfl
  isAccept := rfl
  incoming := rfl
  edge l t := by
    cases l with
    | none => simp [State.Edge, State.addEpsilon, StateSet.mem_insert, Label.Reads]
    | some c => simp [State.Edge, State.addEpsilon, State.targetsOn, Label.Reads]

theorem gains_addEdges {a : Alphabet} (ha : a.Partition) {k : CharClass} (hk : a.Resolves k)
    {s : State} (h : s.Valid a.size) (target : Nat) :
    s.Gains a (.chars k) target ((a.symbolsOf k).foldl (.addEdge target) s) := by
  obtain ⟨edges, heq⟩ := State.foldl_addEdge_eq target (a.symbolsOf k) s
  refine ⟨h.foldl_addEdge (fun x hx => ?_) target, by rw [heq], by rw [heq], by rw [heq],
    fun l t => ?_⟩
  · obtain ⟨c, -, rfl⟩ := ha.exists_index_of_mem_symbolsOf hx
    exact ha.index_lt c
  · cases l with
    | none => simp [State.Edge, Label.Reads, heq]
    | some c =>
      simp [State.Edge, Label.Reads, State.mem_targetsOn_foldl_addEdge, ha.index_mem_symbolsOf hk]

/-- An edge can be added between any two states. -/
theorem add_spec (h : m.Valid) {source target : Nat} (hsource : m.graph.vertex source)
    (htarget : m.graph.vertex target) (label : Label) :
    ∃ m', (m.add source label target).outcome = .ok m' ∧ m'.Valid ∧
      m'.graph = m.graph.addEdges source label target := by
  obtain ⟨s, hs, -⟩ := id hsource
  obtain ⟨t, ht, -⟩ := id htarget
  rw [← state_eq_ok_iff] at hs ht
  cases label with
  | epsilon =>
    refine ⟨(m.modify source (.addEpsilon target)).modify target (.addIncoming source),
      by simp [add, hs, ht], ?_⟩
    exact h.addEdges_of_modify hsource htarget fun s hs => gains_addEpsilon hs target
  | chars k =>
    by_cases hk : k.isEmpty = true
    · refine ⟨m, by simp [add, hs, ht, hk], h, ?_⟩
      refine Graph.eq_of_iff rfl (fun _ => .rfl) (fun _ => .rfl) (fun _ => .rfl) fun u l v => ?_
      simp [Graph.addEdges, Label.Reads, CharClass.not_mem_of_isEmpty hk]
    · obtain ⟨m', hm', h', hres, hgraph⟩ := express_spec h k
      refine ⟨(m'.modify source fun s => (m'.alphabet.symbolsOf k).foldl (.addEdge target) s).modify
        target (.addIncoming source), by simp [add, hs, ht, hk, hm'], ?_⟩
      rw [← hgraph] at hsource htarget ⊢
      exact h'.addEdges_of_modify hsource htarget fun s hs =>
        gains_addEdges h'.partition hres hs target

end RegularLanguages.Nfa
