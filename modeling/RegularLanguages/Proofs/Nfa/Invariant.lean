import RegularLanguages.Proofs.Alphabet.Partition
import RegularLanguages.Proofs.Graph.Basic
import RegularLanguages.Proofs.Nfa.State

/-!
# The graph of a machine

`graph` reads a machine as a graph: symbols become characters again. A `Valid` machine has a
partition as its alphabet and tables in order, and each target of an edge is there and knows the
source. Every change of a valid machine gives a valid machine and does to the graph what the graph
operation of the same name does.
-/

namespace RegularLanguages.Nfa

/-- Whether an edge of the state reads the label and leads to `t`. -/
def State.Edge (a : Alphabet) (s : State) : Option Char → Nat → Prop
  | none, t => t ∈ s.epsilon
  | some c, t => t ∈ s.targetsOn (a.index c)

/-- The state `u` is there and has the property. -/
def Has (m : Nfa) (u : Nat) (P : State → Prop) : Prop := ∃ s, m.state? u = some s ∧ P s

/-- The machine without its alphabet. -/
def graph (m : Nfa) : Graph where
  next := m.slots.size
  vertex u := m.Has u fun _ => True
  start u := m.Has u (·.isStart = true)
  accept u := m.Has u (·.isAccept = true)
  edge u l t := m.Has u (·.Edge m.alphabet l t)

/-- The tables of a machine are in order and the states know their incoming edges. -/
structure Valid (m : Nfa) : Prop where
  partition : m.alphabet.Partition
  states : ∀ u s, m.state? u = some s → s.Valid m.alphabet.size
  linked : ∀ u l t, m.graph.edge u l t → m.Has t (u ∈ ·.incoming)

variable {m : Nfa}

theorem Has.imp {u : Nat} {P Q : State → Prop} (hPQ : ∀ s, m.state? u = some s → P s → Q s)
    (h : m.Has u P) : m.Has u Q :=
  Exists.imp (fun s hs => ⟨hs.1, hPQ s hs.1 hs.2⟩) h

theorem has_congr {u : Nat} {P Q : State → Prop} (h : ∀ s, m.state? u = some s → (P s ↔ Q s)) :
    m.Has u P ↔ m.Has u Q :=
  ⟨.imp fun s hs => (h s hs).1, .imp fun s hs => (h s hs).2⟩

theorem has_of_state? {u : Nat} {P : State → Prop} {s : State} (hs : m.state? u = some s) :
    m.Has u P ↔ P s :=
  ⟨fun h => by
    obtain ⟨s', hs', hP⟩ := h
    rw [hs, Option.some.injEq] at hs'
    exact hs' ▸ hP, fun hP => ⟨s, hs, hP⟩⟩

section Shown

variable {u : Nat} {s : State} (hs : m.state? u = some s)
include hs

theorem accept_iff : m.graph.accept u ↔ s.isAccept = true := has_of_state? hs

theorem edge_iff {l : Option Char} {t : Nat} : m.graph.edge u l t ↔ s.Edge m.alphabet l t :=
  has_of_state? hs

theorem edge_none_iff {t : Nat} : m.graph.edge u none t ↔ t ∈ s.epsilon := edge_iff hs

theorem edge_some_iff {c : Char} {t : Nat} :
    m.graph.edge u (some c) t ↔ t ∈ s.targetsOn (m.alphabet.index c) := edge_iff hs

end Shown

theorem state_eq_ok_iff {u : Nat} {s : State} : m.state u = .ok s ↔ m.state? u = some s := by
  unfold state
  cases m.state? u <;> simp

theorem Valid.vertex_of_edge (h : m.Valid) {u t : Nat} {l : Option Char}
    (he : m.graph.edge u l t) : m.graph.vertex u ∧ m.graph.vertex t :=
  ⟨Has.imp (fun _ _ _ => .intro) he, (h.linked _ _ _ he).imp fun _ _ _ => .intro⟩

/-- Every target in the tables is the target of an edge. -/
theorem Valid.exists_edge_of_mem_targets (h : m.Valid) {u t : Nat} {s : State}
    (hs : m.state? u = some s) (ht : t ∈ s.targets) : ∃ l, m.graph.edge u l t := by
  have hstate := h.states u s hs
  rcases hstate.mem_targets.1 ht with ⟨x, hx⟩ | hepsilon
  · obtain ⟨ids, hids, -⟩ := State.mem_targetsOn_of_mem hx
    obtain ⟨c, rfl⟩ := h.partition.exists_index_eq (hstate.symbol_lt _ hids)
    exact ⟨some c, (edge_some_iff hs).2 hx⟩
  · exact ⟨none, (edge_none_iff hs).2 hepsilon⟩

theorem lt_of_vertex {u : Nat} (h : m.graph.vertex u) : u < m.slots.size := by
  obtain ⟨s, hs, -⟩ := h
  rw [state?, Option.join_eq_some_iff] at hs
  exact (Array.getElem?_eq_some_iff.1 hs).1

/-! ## One state changed -/

theorem state?_modify (m : Nfa) (id : Nat) (f : State → State) (u : Nat) :
    (m.modify id f).state? u = if u = id then (m.state? u).map f else m.state? u := by
  simp only [state?, modify, Array.getElem?_modify, eq_comm (a := u)]
  split
  · cases m.slots[u]? <;> rfl
  · rfl

@[simp] theorem alphabet_modify (m : Nfa) (id : Nat) (f : State → State) :
    (m.modify id f).alphabet = m.alphabet := rfl

theorem next_modify (m : Nfa) (id : Nat) (f : State → State) :
    (m.modify id f).graph.next = m.graph.next := by
  simp [graph, modify]

theorem has_modify {id u : Nat} {f : State → State} {P : State → Prop} :
    (m.modify id f).Has u P ↔ m.Has u fun s => P (if u = id then f s else s) := by
  unfold Has
  rw [state?_modify]
  split <;> simp

theorem states_modify {n id : Nat} {f : State → State}
    (hm : ∀ u s, m.state? u = some s → s.Valid n)
    (hf : ∀ s, m.state? id = some s → s.Valid n → (f s).Valid n) :
    ∀ u s, (m.modify id f).state? u = some s → s.Valid n := by
  intro u s hs
  rw [state?_modify] at hs
  split at hs
  · rename_i hu
    subst hu
    obtain ⟨s₀, hs₀, rfl⟩ := Option.map_eq_some_iff.1 hs
    exact hf s₀ hs₀ (hm u s₀ hs₀)
  · exact hm u s hs

theorem has_modify_iff {id u : Nat} {f : State → State} {P : State → Prop}
    (hf : ∀ s, m.state? id = some s → (P (f s) ↔ P s)) :
    (m.modify id f).Has u P ↔ m.Has u P := by
  refine has_modify.trans (has_congr fun s hs => ?_)
  split
  · rename_i hu
    exact hf s (hu ▸ hs)
  · rfl

theorem has_modify_of_state? {id u : Nat} {f : State → State} {P : State → Prop} {s : State}
    (hs : m.state? id = some s) :
    (m.modify id f).Has u P ↔ if u = id then P (f s) else m.Has u P := by
  rw [has_modify]
  split
  · rename_i hu
    rw [has_of_state? (hu ▸ hs)]
  · rfl

/-- A property that the change keeps where it applies. -/
theorem Has.modify {u id : Nat} {f : State → State} {P : State → Prop} (h : m.Has u P)
    (hf : ∀ s, P s → P (f s)) : (m.modify id f).Has u P :=
  has_modify.2 (h.imp fun s _ hs => by split; exacts [hf s hs, hs])

/-- Changing what the graph does not show. -/
theorem graph_modify {id : Nat} {f : State → State}
    (hf : ∀ s, (f s).isStart = s.isStart ∧ (f s).isAccept = s.isAccept ∧
      ∀ l t, (f s).Edge m.alphabet l t ↔ s.Edge m.alphabet l t) :
    (m.modify id f).graph = m.graph := by
  refine Graph.eq_of_iff (next_modify m id f) (fun u => has_modify_iff fun s _ => ?_)
    (fun u => has_modify_iff fun s _ => ?_) (fun u => has_modify_iff fun s _ => ?_)
    fun u l t => has_modify_iff fun s _ => ?_
  · rfl
  · rw [(hf s).1]
  · rw [(hf s).2.1]
  · exact (hf s).2.2 l t

theorem graph_addIncoming (m : Nfa) (source target : Nat) :
    (m.modify target (.addIncoming source)).graph = m.graph :=
  graph_modify fun _ => ⟨rfl, rfl, fun l _ => by cases l <;> rfl⟩

theorem graph_dropIncoming (m : Nfa) (source target : Nat) :
    (m.modify target (.dropIncoming source)).graph = m.graph :=
  graph_modify fun _ => ⟨rfl, rfl, fun l _ => by cases l <;> rfl⟩

/-! ## States and their roles -/

theorem valid_empty : empty.Valid :=
  ⟨Alphabet.partition_trivial, nofun, nofun⟩

theorem graph_empty : empty.graph = .empty :=
  have hnone (u : Nat) (P : State → Prop) : ¬empty.Has u P := by simp [empty, Has, state?]
  Graph.eq_of_iff rfl (fun u => iff_of_false (hnone u _) id) (fun u => iff_of_false (hnone u _) id)
    (fun u => iff_of_false (hnone u _) id) fun u _ _ => iff_of_false (hnone u _) id

theorem state?_addState (m : Nfa) (u : Nat) :
    m.addState.2.state? u = if u = m.slots.size then some .blank else m.state? u := by
  simp only [state?, addState, Array.getElem?_push]
  split <;> rfl

theorem has_addState {u : Nat} {P : State → Prop} :
    m.addState.2.Has u P ↔ (u = m.slots.size ∧ P .blank) ∨ m.Has u P := by
  unfold Has
  rw [state?_addState]
  by_cases hu : u = m.slots.size
  · have hnone : m.state? u = none := by simp [state?, hu]
    simp [hu, hu ▸ hnone]
  · simp [hu]

theorem graph_addState (m : Nfa) : m.addState.2.graph = m.graph.addVertex := by
  refine Graph.eq_of_iff (by simp [graph, addState, Graph.addVertex]) (fun u => ?_) (fun u => ?_)
    (fun u => ?_) fun u l t => ?_ <;> refine has_addState.trans ?_
  · simp [Graph.addVertex, graph]
  · simp [Graph.addVertex, graph, State.blank]
  · simp [Graph.addVertex, graph, State.blank]
  · cases l <;> simp [Graph.addVertex, graph, State.blank, State.Edge, State.targetsOn, addState]

theorem Valid.addState (h : m.Valid) : m.addState.2.Valid where
  partition := h.partition
  states u s hs := by
    rw [state?_addState] at hs
    split at hs
    · cases hs
      exact State.valid_blank _
    · exact h.states u s hs
  linked u l t he := by
    rw [graph_addState] at he
    exact has_addState.2 (.inr (h.linked u l t he))

/-- Changing the roles of a state. -/
theorem Valid.modify_role (h : m.Valid) (id : Nat) {f : State → State}
    (hedges : ∀ s, (f s).edges = s.edges) (hepsilon : ∀ s, (f s).epsilon = s.epsilon)
    (hincoming : ∀ s, (f s).incoming = s.incoming) : (m.modify id f).Valid where
  partition := h.partition
  states := states_modify h.states fun s _ hs => by
    constructor
    · exact hedges s ▸ hs.sorted
    · exact hedges s ▸ hs.symbol_lt
    · exact hedges s ▸ hs.inhabited
    · exact hedges s ▸ hs.ordered
    · exact hepsilon s ▸ hs.epsilon
    · exact hincoming s ▸ hs.incoming
  linked u l t he := by
    have hedge : ∀ s, (f s).Edge m.alphabet l t ↔ s.Edge m.alphabet l t := fun s => by
      cases l
      · simp only [State.Edge, hepsilon]
      · simp only [State.Edge, State.targetsOn, hedges]
    have he' : m.graph.edge u l t := (has_modify.1 he).imp fun s _ hs => by
      split at hs
      · exact (hedge s).1 hs
      · exact hs
    exact (h.linked u l t he').modify fun s hs => hincoming s ▸ hs

theorem edge_role {a : Alphabet} {s : State} {start accept : Bool} {l : Option Char} {t : Nat} :
    State.Edge a { s with isStart := start, isAccept := accept } l t ↔ s.Edge a l t := by
  cases l <;> rfl

theorem setStart_spec (h : m.Valid) {id : Nat} (hid : m.graph.vertex id) (value : Bool) :
    ∃ m', m.setStart id value = .ok m' ∧ m'.Valid ∧ m'.graph = m.graph.setStart id value := by
  obtain ⟨s, hs, -⟩ := hid
  refine ⟨m.modify id fun s => { s with isStart := value }, ?_,
    h.modify_role id (fun _ => rfl) (fun _ => rfl) fun _ => rfl, ?_⟩
  · rw [setStart, state_eq_ok_iff.2 hs]
    rfl
  · exact Graph.eq_of_iff (next_modify ..) (fun _ => has_modify_iff fun _ _ => .rfl)
      (fun _ => has_modify_of_state? hs) (fun _ => has_modify_iff fun _ _ => .rfl)
      fun _ _ _ => has_modify_iff fun _ _ => edge_role

theorem setAccept_spec (h : m.Valid) {id : Nat} (hid : m.graph.vertex id) (value : Bool) :
    ∃ m', m.setAccept id value = .ok m' ∧ m'.Valid ∧ m'.graph = m.graph.setAccept id value := by
  obtain ⟨s, hs, -⟩ := hid
  refine ⟨m.modify id fun s => { s with isAccept := value }, ?_,
    h.modify_role id (fun _ => rfl) (fun _ => rfl) fun _ => rfl, ?_⟩
  · rw [setAccept, state_eq_ok_iff.2 hs]
    rfl
  · exact Graph.eq_of_iff (next_modify ..) (fun _ => has_modify_iff fun _ _ => .rfl)
      (fun _ => has_modify_iff fun _ _ => .rfl) (fun _ => has_modify_of_state? hs)
      fun _ _ _ => has_modify_iff fun _ _ => edge_role

/-! ## Edges -/

/-- A state after it has got an edge for everything that the label reads. -/
structure State.Gains (a : Alphabet) (label : Label) (target : Nat) (s s' : State) : Prop where
  valid : s'.Valid a.size
  isStart : s'.isStart = s.isStart
  isAccept : s'.isAccept = s.isAccept
  incoming : s'.incoming = s.incoming
  edge : ∀ l t, s'.Edge a l t ↔ (label.Reads l ∧ t = target) ∨ s.Edge a l t

/-- Adding edges to the source and telling the target. -/
theorem Valid.addEdges_of_modify (h : m.Valid) {source target : Nat} {label : Label}
    {f : State → State} (hsource : m.graph.vertex source) (htarget : m.graph.vertex target)
    (hf : ∀ s : State, s.Valid m.alphabet.size → s.Gains m.alphabet label target (f s)) :
    ((m.modify source f).modify target (.addIncoming source)).Valid ∧
      ((m.modify source f).modify target (.addIncoming source)).graph =
        m.graph.addEdges source label target := by
  have hgraph : ((m.modify source f).modify target (.addIncoming source)).graph =
      m.graph.addEdges source label target := by
    rw [graph_addIncoming]
    have hf' : ∀ s, m.state? source = some s → s.Gains m.alphabet label target (f s) :=
      fun s hs => hf s (h.states source s hs)
    refine Graph.eq_of_iff (next_modify ..) (fun u => has_modify_iff fun s _ => .rfl)
      (fun u => has_modify_iff fun s hs => ?_) (fun u => has_modify_iff fun s hs => ?_)
      fun u l t => ?_
    · rw [(hf' s hs).isStart]
    · rw [(hf' s hs).isAccept]
    · obtain ⟨s, hs, -⟩ := hsource
      refine (has_modify_of_state? hs).trans ?_
      split
      · rename_i hu
        simp only [alphabet_modify, (hf' s hs).edge, Graph.addEdges, edge_iff hs, hu, true_and]
      · rename_i hu
        simp [hu, Graph.addEdges, graph]
  refine ⟨⟨h.partition, ?_, ?_⟩, hgraph⟩
  · exact states_modify (states_modify h.states fun s _ hs => (hf s hs).valid)
      fun s _ hs => hs.addIncoming source
  · intro u l t he
    rw [hgraph] at he
    refine has_modify.2 ?_
    rcases he with ⟨rfl, -, rfl⟩ | he
    · refine has_modify.2 (htarget.imp fun s _ _ => ?_)
      rw [if_pos rfl]
      exact StateSet.mem_insert.2 (.inl rfl)
    · refine has_modify.2 ((h.linked u l t he).imp fun s hs hmem => ?_)
      have hmem' : u ∈ (if t = source then f s else s).incoming := by
        split
        · rwa [(hf s (h.states t s hs)).incoming]
        · exact hmem
      split
      · exact StateSet.mem_insert.2 (.inr hmem')
      · exact hmem'

end RegularLanguages.Nfa
