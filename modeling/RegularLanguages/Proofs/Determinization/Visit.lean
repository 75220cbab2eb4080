import RegularLanguages.Proofs.Determinization.Invariant
import RegularLanguages.Proofs.Outcome

/-!
# Visiting every state

Each step of the loop over the blocks follows one block, each visit judges one more state, and there
are no more visits than sets of states. When no state is pending, all are judged and every move of
the chart is followed.
-/

namespace RegularLanguages.Determinization

variable {m : Nfa} {d : Determinization} {judged : Nat → Prop} {followed : Nat → Char → Prop}
  {id : Nat} {ids : List Nat}

theorem follow_spec (hm : m.Valid) (h : Indexed m d)
    (hdrawn : Drawn m judged followed d.dfa.chart d.subsets) (hid : d.subsets[id]? = some ids)
    {i : Nat} {k : CharClass} (hk : m.alphabet.blocks[i]? = some k)
    (hopen : ∀ c ∈ k, ¬followed id c) :
    ∃ d', (follow m id ids d (k, i)).outcome = .ok d' ∧ Indexed m d' ∧ Grows d d' ∧
      Drawn m judged (fun q c => followed q c ∨ (q = id ∧ c ∈ k)) d'.dfa.chart d'.subsets := by
  obtain ⟨c, hc⟩ := hm.partition.inhabited k (List.mem_of_getElem? hk)
  have hindex : ∀ c ∈ k, m.alphabet.index c = i := fun c => (hm.partition.mem_block_iff hk c).1
  obtain ⟨next, hnext, henum⟩ := Nfa.step_spec hm (h.subset id ids hid).2 c
  have hstep : ∀ c' ∈ k, m.step ids (m.alphabet.index c') = .ok next := fun c' hc' => by
    rw [hindex c' hc', ← hindex c hc, hnext]
  rw [hindex c hc] at hnext
  by_cases hempty : next = []
  · subst hempty
    exact ⟨d, by simp [follow, hnext], h, .refl d, hdrawn.skip hid hstep hopen⟩
  · have hvertex := Nfa.vertex_of_mem_closure hm (Nfa.vertex_of_exists_edge hm) henum
    obtain ⟨t, d₁, hfor, h₁, hstate⟩ := stateFor_spec h henum.ordered hvertex
    have hid₁ : id < d₁.dfa.chart.size := by
      rw [h₁.size]
      exact lt_size (hstate.getElem?_eq_some hid)
    have ht : t < d₁.dfa.chart.size := by
      rw [h₁.size]
      exact lt_size hstate.found
    obtain ⟨dfa, hdfa, hvalid, -, hchart⟩ := Dfa.add_spec h₁.proper.toValid hid₁ ht k
    refine ⟨{ d₁ with dfa := dfa }, ?_, ?_, ⟨hstate.old, hstate.judged, hstate.balance⟩, ?_⟩
    · simp [follow, hnext, hempty, hfor, hdfa]
    · exact { h₁ with
        proper := ⟨hvalid, by rw [hchart]; exact h₁.proper.start_iff⟩
        size := by rw [hchart]; exact h₁.size }
    · rw [hchart, hstate.chart]
      exact hdrawn.addEdges hm hid ⟨c, hc⟩ hstep hempty hopen hstate.found hstate.old hstate.new

/-- The blocks before `i` have been followed from the state `id`, and all from those visited. -/
structure Following (m : Nfa) (judged visited : Nat → Prop) (id : Nat) (d : Determinization)
    (i : Nat) (d' : Determinization) : Prop where
  indexed : Indexed m d'
  grows : Grows d d'
  drawn : Drawn m judged (fun q c => visited q ∨ (q = id ∧ m.alphabet.index c < i)) d'.dfa.chart
    d'.subsets

theorem Following.step (hm : m.Valid) {visited : Nat → Prop} {i : Nat} {k : CharClass}
    {d₁ : Determinization} (h : Following m judged visited id d i d₁)
    (hid : d.subsets[id]? = some ids) (hopen : ¬visited id)
    (hk : m.alphabet.blocks[i]? = some k) :
    ∃ d', (follow m id ids d₁ (k, i)).outcome = .ok d' ∧
      Following m judged visited id d (i + 1) d' := by
  have hindex := hm.partition.mem_block_iff hk
  obtain ⟨d', hd', h', hgrows, hdrawn⟩ := follow_spec hm h.indexed h.drawn
    (h.grows.getElem?_eq_some hid) hk fun c hc hf =>
      hf.elim hopen fun hlt => Nat.ne_of_lt hlt.2 ((hindex c).1 hc)
  refine ⟨d', hd', h', h.grows.trans hgrows, hdrawn.congr (fun _ => .rfl) fun q c => ?_⟩
  rw [or_assoc, ← and_or_left, hindex, Nat.lt_succ_iff_lt_or_eq]

/-- Following all blocks follows every character. -/
theorem followAll_spec (hm : m.Valid) (h : Indexed m d) {visited : Nat → Prop}
    (hdrawn : Drawn m judged (fun q _ => visited q) d.dfa.chart d.subsets)
    (hid : d.subsets[id]? = some ids) (hopen : ¬visited id) :
    ∃ d', (m.alphabet.blocks.zipIdx.foldlM (follow m id ids) d).outcome = .ok d' ∧
      Indexed m d' ∧ Grows d d' ∧
      Drawn m judged (fun q _ => visited q ∨ q = id) d'.dfa.chart d'.subsets := by
  have hstart : Following m judged visited id d 0 d :=
    ⟨h, .refl d, hdrawn.congr (fun _ => .rfl) fun q c => by simp⟩
  obtain ⟨d', hd', hfollowing⟩ := Outcome.foldlM_zipIdx_spec
    (fun i k d₁ hk h => h.step hm hid hopen (by rwa [Nat.zero_add])) hstart
  refine ⟨d', hd', hfollowing.indexed, hfollowing.grows,
    hfollowing.drawn.congr (fun _ => .rfl) fun q c => ?_⟩
  have hlt : m.alphabet.index c < 0 + m.alphabet.blocks.length :=
    (Nat.zero_add _).symm ▸ hm.partition.index_lt c
  simp only [hlt, and_true]

/-- All characters have been followed from the states that are judged. -/
def Settled (m : Nfa) (d : Determinization) : Prop :=
  Drawn m d.Judged (fun q _ => d.Judged q) d.dfa.chart d.subsets

/-- The numbering has only grown, and one more state is judged. -/
structure Visited (d : Determinization) (id : Nat) (d' : Determinization) : Prop where
  old : ∀ q, q < d.subsets.size → d'.subsets[q]? = d.subsets[q]?
  judged : ∀ q, d'.Judged q ↔ d.Judged q ∨ q = id
  balance : d'.pending.length + d.subsets.size + 1 = d.pending.length + d'.subsets.size

theorem visit_spec (hm : m.Valid) (h : Indexed m d) (hsettled : Settled m d)
    {rest : List (Nat × List Nat)} (hp : d.pending = (id, ids) :: rest) :
    ∃ d', (visit m id ids { d with pending := rest }).outcome = .ok d' ∧ Indexed m d' ∧
      Settled m d' ∧ Visited d id d' := by
  have hid : d.subsets[id]? = some ids := h.waiting id ids (by simp [hp])
  have hlt : id < d.subsets.size := lt_size hid
  have hwaiting : ¬d.Judged id := fun hq => hq.2 (by simp [hp])
  have hnodup := h.nodup
  rw [hp, List.map_cons, List.nodup_cons] at hnodup
  obtain ⟨b, hb, hiff⟩ := Nfa.anyAccepts_spec (m := m) ids (h.subset id ids hid).2
  obtain ⟨dfa, hdfa, hvalid, hchart⟩ := Dfa.setAccept_spec h.proper.toValid (h.size ▸ hlt) b
  have h₁ : Indexed m ⟨dfa, d.subsets, rest⟩ :=
    { h with
      proper := ⟨hvalid, by rw [hchart]; exact h.proper.start_iff⟩
      size := by rw [hchart]; exact h.size
      waiting := fun q s hq => h.waiting q s (by rw [hp]; exact List.mem_cons_of_mem _ hq)
      nodup := hnodup.2 }
  have hjudged : ∀ q, d.Judged q ∨ q = id ↔ Judged ⟨dfa, d.subsets, rest⟩ q := by
    intro q
    simp only [Judged, hp, List.map_cons, List.mem_cons, not_or]
    by_cases hq : q = id
    · simp [hq, hlt, hnodup.1]
    · simp [hq]
  have hdrawn₁ := (hsettled.judge hid hiff).congr hjudged fun _ _ => .rfl
  rw [← hchart] at hdrawn₁
  obtain ⟨d', hd', h', hgrows, hdrawn'⟩ := followAll_spec hm h₁ hdrawn₁ hid hwaiting
  have hjudged' : ∀ q, d'.Judged q ↔ d.Judged q ∨ q = id := fun q =>
    (hgrows.judged q).trans (hjudged q).symm
  refine ⟨d', by simp [visit, hb, hdfa, hd'], h', hdrawn'.congr (fun q => (hgrows.judged q).symm)
    fun q c => (hjudged' q).symm, hgrows.old, hjudged', ?_⟩
  have hbalance : d'.pending.length + d.subsets.size = rest.length + d'.subsets.size :=
    hgrows.balance
  rw [hp, List.length_cons]
  omega

theorem Indexed.size_le (h : Indexed m d) : d.subsets.size ≤ 2 ^ m.slots.size := by
  have hnodup : d.subsets.toList.Nodup := by
    rw [List.nodup_iff_pairwise_ne, List.pairwise_iff_getElem]
    intro i j hi hj hij heq
    have hget : ∀ i (hi : i < d.subsets.toList.length),
        d.subsets[i]? = some d.subsets.toList[i] := fun i hi => by
      rw [← Array.getElem?_toList, List.getElem?_eq_getElem hi]
    exact Nat.ne_of_lt hij (h.distinct i j _ (hget i hi) (heq ▸ hget j hj))
  refine StateSet.length_le_two_pow hnodup fun s hs => ?_
  obtain ⟨q, hq⟩ := List.mem_iff_getElem?.1 hs
  rw [Array.getElem?_toList] at hq
  obtain ⟨hordered, hvertex⟩ := h.subset q s hq
  exact ⟨hordered, fun u hu => Nfa.lt_of_vertex (hvertex u hu)⟩

theorem visitAll_spec (hm : m.Valid) (fuel : Nat) (h : Indexed m d) (hsettled : Settled m d)
    (hfuel : d.pending.length + 2 ^ m.slots.size ≤ fuel + d.subsets.size) :
    ∃ d', (visitAll m fuel d).outcome = .ok d' ∧ Indexed m d' ∧ Settled m d' ∧ d'.pending = [] := by
  induction fuel generalizing d with
  | zero =>
    have hle := h.size_le
    have hpending : d.pending = [] := List.length_eq_zero_iff.1 (by omega)
    exact ⟨d, rfl, h, hsettled, hpending⟩
  | succ fuel ih =>
    cases hp : d.pending with
    | nil => exact ⟨d, by rw [visitAll, hp]; rfl, h, hsettled, hp⟩
    | cons p rest =>
      obtain ⟨id, ids⟩ := p
      obtain ⟨d₁, hd₁, h₁, hsettled₁, hvisited⟩ := visit_spec hm h hsettled hp
      have hbalance := hvisited.balance
      obtain ⟨d', hd', hspec⟩ := ih h₁ hsettled₁ (by omega)
      refine ⟨d', ?_, hspec⟩
      rw [visitAll, hp]
      simp [hd₁, hd']

end RegularLanguages.Determinization
