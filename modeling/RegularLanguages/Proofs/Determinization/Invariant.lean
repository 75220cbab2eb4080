import RegularLanguages.Dfa.OfNfa
import RegularLanguages.Proofs.Dfa.Invariant
import RegularLanguages.Proofs.Nfa.Run

/-!
# What determinisation keeps

`Indexed` is about the numbering: each state stands for a set of its own, and the pending states are
some of them. `Drawn` is about the chart: a state that is judged accepts as its set does, a move
that is followed leads to the state for the next set, no other move is there yet, and a text leads
to every state whose set is the one after the text. A character is followed from a state only once,
so no edge takes the place of an earlier one.
-/

namespace RegularLanguages

namespace Nfa

variable {m : Nfa}

theorem run_append (m : Nfa) (ids : List Nat) (v w : List Char) :
    m.run ids (v ++ w) = m.run ids v >>= fun r => m.run r w := by
  induction v generalizing ids with
  | nil => rfl
  | cons c rest ih =>
    cases ids with
    | nil => exact (m.run_nil w).symm
    | cons id ids => simp only [List.cons_append, run_cons, bind_assoc, ih]

theorem statesAfter_concat (hm : m.Valid) {w : List Char} {c : Char} {ids next : List Nat}
    (hids : m.statesAfter w = .ok ids) (hnext : m.step ids (m.alphabet.index c) = .ok next) :
    m.statesAfter (w ++ [c]) = .ok next := by
  obtain ⟨start, hstart, hrun⟩ := Logged.bind_eq_ok_iff.1 hids
  rw [statesAfter, hstart, Logged.ok_bind, run_append, hrun, Logged.ok_bind,
    run_of_step hm hnext, run]

end Nfa

namespace Determinization

variable {m : Nfa} {d d' : Determinization}

theorem lt_size {subsets : Array (List Nat)} {q : Nat} {ids : List Nat}
    (hq : subsets[q]? = some ids) : q < subsets.size :=
  (Array.getElem?_eq_some_iff.1 hq).1

/-- The state has been visited, or is being visited. -/
def Judged (d : Determinization) (q : Nat) : Prop :=
  q < d.subsets.size ∧ q ∉ d.pending.map Prod.fst

/-- The numbers are 0 and so on, each for one set of states of the machine. -/
structure Indexed (m : Nfa) (d : Determinization) : Prop where
  proper : d.dfa.Proper
  size : d.dfa.chart.size = d.subsets.size
  first : ∃ ids, m.startSet = .ok ids ∧ d.subsets[0]? = some ids
  subset : ∀ (q : Nat) ids, d.subsets[q]? = some ids →
    ids.Pairwise (· < ·) ∧ ∀ u ∈ ids, m.graph.vertex u
  distinct : ∀ (q t : Nat) ids, d.subsets[q]? = some ids → d.subsets[t]? = some ids → q = t
  waiting : ∀ q ids, (q, ids) ∈ d.pending → d.subsets[q]? = some ids
  nodup : (d.pending.map Prod.fst).Nodup

/-- The numbering has only grown, by pending states. -/
structure Grows (d d' : Determinization) : Prop where
  old : ∀ q, q < d.subsets.size → d'.subsets[q]? = d.subsets[q]?
  judged : ∀ q, d'.Judged q ↔ d.Judged q
  balance : d'.pending.length + d.subsets.size = d.pending.length + d'.subsets.size

theorem Grows.refl (d : Determinization) : Grows d d := ⟨fun _ _ => rfl, fun _ => .rfl, rfl⟩

theorem Grows.getElem?_eq_some (h : Grows d d') {q : Nat} {ids : List Nat}
    (hq : d.subsets[q]? = some ids) : d'.subsets[q]? = some ids :=
  (h.old q (lt_size hq)).trans hq

theorem Grows.trans {d'' : Determinization} (h₁ : Grows d d') (h₂ : Grows d' d'') :
    Grows d d'' where
  old q hq := by
    have hq' := h₁.getElem?_eq_some (Array.getElem?_eq_getElem hq)
    rw [h₂.old q (lt_size hq'), h₁.old q hq]
  judged q := (h₂.judged q).trans (h₁.judged q)
  balance := by
    have := h₁.balance
    have := h₂.balance
    omega

/-- What `stateFor` gives when `t` is the state for `ids`. -/
structure StateFor (d d' : Determinization) (ids : List Nat) (t : Nat) : Prop
    extends Grows d d' where
  found : d'.subsets[t]? = some ids
  new : ∀ (q : Nat) ids', d'.subsets[q]? = some ids' → q < d.subsets.size ∨ q = t
  chart : d'.dfa.chart = { d.dfa.chart with size := d'.subsets.size }

/-- A new pending state for the set `ids`. -/
def push (d : Determinization) (ids : List Nat) : Determinization :=
  ⟨d.dfa.addState.2, d.subsets.push ids, (d.subsets.size, ids) :: d.pending⟩

variable {ids : List Nat}

theorem getElem?_push (d : Determinization) (ids : List Nat) (q : Nat) :
    (d.push ids).subsets[q]? = if q = d.subsets.size then some ids else d.subsets[q]? :=
  Array.getElem?_push

theorem getElem?_push_of_eq_some {q : Nat} {ids' : List Nat} (hq : d.subsets[q]? = some ids') :
    (d.push ids).subsets[q]? = some ids' := by
  rw [getElem?_push, if_neg (Nat.ne_of_lt (lt_size hq)), hq]

theorem Indexed.chart_push (h : Indexed m d) (ids : List Nat) :
    (d.push ids).dfa.chart = { d.dfa.chart with size := (d.push ids).subsets.size } := by
  rw [push, Dfa.chart_addState, Chart.addState, h.size, Array.size_push]

theorem Indexed.push (h : Indexed m d) (hordered : ids.Pairwise (· < ·))
    (hvertex : ∀ u ∈ ids, m.graph.vertex u) (hnew : ∀ q : Nat, d.subsets[q]? ≠ some ids) :
    Indexed m (d.push ids) where
  proper := ⟨h.proper.addState, fun q => by
    rw [h.chart_push]
    exact h.proper.start_iff q⟩
  size := by rw [h.chart_push]
  first := by
    obtain ⟨first, hfirst, hzero⟩ := h.first
    exact ⟨first, hfirst, getElem?_push_of_eq_some hzero⟩
  subset q ids' hq := by
    rw [getElem?_push] at hq
    split at hq
    · cases hq
      exact ⟨hordered, hvertex⟩
    · exact h.subset q ids' hq
  distinct q t ids' hq ht := by
    rw [getElem?_push] at hq ht
    split at hq <;> split at ht
    · omega
    · cases hq
      exact absurd ht (hnew t)
    · cases ht
      exact absurd hq (hnew q)
    · exact h.distinct q t ids' hq ht
  waiting q ids' hq := by
    rcases List.mem_cons.1 hq with heq | hq
    · cases heq
      rw [getElem?_push, if_pos rfl]
    · exact getElem?_push_of_eq_some (h.waiting q ids' hq)
  nodup := by
    refine List.nodup_cons.2 ⟨fun hmem => ?_, h.nodup⟩
    obtain ⟨⟨q, ids'⟩, hp, heq⟩ := List.mem_map.1 hmem
    exact Nat.ne_of_lt (lt_size (h.waiting q ids' hp)) heq

theorem grows_push (d : Determinization) (ids : List Nat) : Grows d (d.push ids) where
  old q hq := by rw [getElem?_push, if_neg (Nat.ne_of_lt hq)]
  judged q := by
    have hlt_iff : q < d.subsets.size + 1 ∧ q ≠ d.subsets.size ↔ q < d.subsets.size := by omega
    simp only [Judged, push, Array.size_push, List.map_cons, List.mem_cons, not_or]
    rw [← and_assoc, hlt_iff]
  balance := by
    simp only [push, List.length_cons, Array.size_push]
    omega

theorem stateFor_spec (h : Indexed m d) (hordered : ids.Pairwise (· < ·))
    (hvertex : ∀ u ∈ ids, m.graph.vertex u) :
    ∃ t d', d.stateFor ids = (t, d') ∧ Indexed m d' ∧ StateFor d d' ids t := by
  cases hfind : d.subsets.findIdx? (· = ids) with
  | some t =>
    obtain ⟨ht, hids, -⟩ := Array.findIdx?_eq_some_iff_getElem.1 hfind
    refine ⟨t, d, by rw [stateFor, hfind], h, Grows.refl d, ?_, ?_, ?_⟩
    · rw [Array.getElem?_eq_getElem ht, of_decide_eq_true hids]
    · exact fun q ids' hq => .inl (lt_size hq)
    · rw [← h.size]
  | none =>
    have hnew : ∀ q : Nat, d.subsets[q]? ≠ some ids := fun q hq => by
      have := Array.findIdx?_eq_none_iff.1 hfind ids (Array.mem_of_getElem? hq)
      simp at this
    have hsize : d.dfa.states.size = d.subsets.size := h.size
    refine ⟨d.subsets.size, d.push ids, ?_, h.push hordered hvertex hnew, grows_push d ids, ?_,
      fun q ids' hq => ?_, h.chart_push ids⟩
    · rw [stateFor, hfind]
      simp only [Dfa.addState, push, hsize]
    · rw [getElem?_push, if_pos rfl]
    · rw [getElem?_push] at hq
      split at hq
      · rename_i heq
        exact .inr heq
      · exact .inl (lt_size hq)

/-! ## The chart -/

/-- Where a move leads when `ids` is the next set; the empty set has no state. -/
def Leads (subsets : Array (List Nat)) (ids : List Nat) : Option Nat → Prop
  | none => ids = []
  | some t => ids ≠ [] ∧ subsets[t]? = some ids

/-- The chart has the roles of the states that are judged and the moves that are followed. -/
structure Drawn (m : Nfa) (judged : Nat → Prop) (followed : Nat → Char → Prop) (g : Chart)
    (subsets : Array (List Nat)) : Prop where
  judged_lt : ∀ q, judged q → q < subsets.size
  followed_lt : ∀ q c, followed q c → q < subsets.size
  accept : ∀ q ids, judged q → subsets[q]? = some ids →
    (g.accept q ↔ ∃ u ∈ ids, m.graph.accept u)
  next : ∀ q ids c, followed q c → subsets[q]? = some ids →
    ∃ ids', m.step ids (m.alphabet.index c) = .ok ids' ∧ Leads subsets ids' (g.move q c)
  fresh : ∀ q c, ¬followed q c → g.move q c = none
  reached : ∀ (q : Nat) ids, subsets[q]? = some ids →
    ∃ w, m.statesAfter w = .ok ids ∧ g.walk 0 w = some q

variable {judged judged' : Nat → Prop} {followed followed' : Nat → Char → Prop} {g : Chart}
  {subsets subsets' : Array (List Nat)} {id t n : Nat} {ids ids' : List Nat} {k : CharClass}

theorem Leads.mono {o : Option Nat}
    (hkeep : ∀ (q : Nat) s, subsets[q]? = some s → subsets'[q]? = some s)
    (h : Leads subsets ids o) : Leads subsets' ids o := by
  cases o with
  | none => exact h
  | some t => exact ⟨h.1, hkeep t ids h.2⟩

theorem Drawn.congr (h : Drawn m judged followed g subsets) (hjudged : ∀ q, judged q ↔ judged' q)
    (hfollowed : ∀ q c, followed q c ↔ followed' q c) : Drawn m judged' followed' g subsets := by
  obtain rfl : judged = judged' := funext fun q => propext (hjudged q)
  obtain rfl : followed = followed' := funext fun q => funext fun c => propext (hfollowed q c)
  exact h

/-- Giving a state the role of its set. -/
theorem Drawn.judge (h : Drawn m judged followed g subsets) (hid : subsets[id]? = some ids)
    {b : Bool} (hb : b = true ↔ ∃ u ∈ ids, m.graph.accept u) :
    Drawn m (fun q => judged q ∨ q = id) followed (g.setAccept id b) subsets where
  judged_lt q hq := hq.elim (h.judged_lt q) fun hq => hq ▸ lt_size hid
  followed_lt := h.followed_lt
  accept q ids' hq hs := by
    by_cases hqid : q = id
    · subst hqid
      rw [hid, Option.some.injEq] at hs
      simpa [Chart.setAccept, ← hs] using hb
    · simpa [Chart.setAccept, hqid] using h.accept q ids' (hq.resolve_right hqid) hs
  next := h.next
  fresh := h.fresh
  reached q ids' hs := by
    obtain ⟨w, hw, hwalk⟩ := h.reached q ids' hs
    exact ⟨w, hw, (g.walk_setAccept id b 0 w).trans hwalk⟩

/-- Following characters on which the next set is empty. -/
theorem Drawn.skip (h : Drawn m judged followed g subsets) (hid : subsets[id]? = some ids)
    (hstep : ∀ c ∈ k, m.step ids (m.alphabet.index c) = .ok [])
    (hopen : ∀ c ∈ k, ¬followed id c) :
    Drawn m judged (fun q c => followed q c ∨ (q = id ∧ c ∈ k)) g subsets where
  judged_lt := h.judged_lt
  followed_lt q c hf := hf.elim (h.followed_lt q c)
    fun hq => hq.1 ▸ lt_size hid
  accept := h.accept
  next q ids' c hf hq := by
    rcases hf with hf | ⟨rfl, hc⟩
    · exact h.next q ids' c hf hq
    · rw [hid, Option.some.injEq] at hq
      subst hq
      refine ⟨[], hstep c hc, ?_⟩
      rw [h.fresh q c (hopen c hc)]
      rfl
  fresh q c hf := h.fresh q c fun hf' => hf (.inl hf')
  reached := h.reached

/-- New edges on characters that were not followed keep the walks. -/
theorem Drawn.walk_addEdges (h : Drawn m judged followed g subsets)
    (hopen : ∀ c ∈ k, ¬followed id c) {q s : Nat} {w : List Char} (hwalk : g.walk q w = some s) :
    (Chart.addEdges { g with size := n } id k t).walk q w = some s := by
  refine Chart.walk_mono (fun q c s hs => (if_neg ?_).trans hs) hwalk
  rintro ⟨rfl, hc⟩
  rw [h.fresh q c (hopen c hc)] at hs
  cases hs

/-- A text to `id` and one more character lead to the state for the next set. -/
theorem Drawn.reached_addEdges (hm : m.Valid) (h : Drawn m judged followed g subsets)
    (hid : subsets[id]? = some ids) (hk : ∃ c, c ∈ k)
    (hstep : ∀ c ∈ k, m.step ids (m.alphabet.index c) = .ok ids')
    (hopen : ∀ c ∈ k, ¬followed id c) :
    ∃ w, m.statesAfter w = .ok ids' ∧
      (Chart.addEdges { g with size := n } id k t).walk 0 w = some t := by
  obtain ⟨c, hc⟩ := hk
  obtain ⟨w, hw, hwalk⟩ := h.reached id ids hid
  refine ⟨w ++ [c], Nfa.statesAfter_concat hm hw (hstep c hc), ?_⟩
  rw [Chart.walk_append, h.walk_addEdges hopen hwalk, Option.bind_some, Chart.walk,
    Chart.move_addEdges, if_pos ⟨rfl, hc⟩]
  rfl

/-- Following characters to the state for the next set. -/
theorem Drawn.addEdges (hm : m.Valid) (h : Drawn m judged followed g subsets)
    (hid : subsets[id]? = some ids) (hk : ∃ c, c ∈ k)
    (hstep : ∀ c ∈ k, m.step ids (m.alphabet.index c) = .ok ids') (hne : ids' ≠ [])
    (hopen : ∀ c ∈ k, ¬followed id c) (hfound : subsets'[t]? = some ids')
    (hold : ∀ q, q < subsets.size → subsets'[q]? = subsets[q]?)
    (hnew : ∀ (q : Nat) s, subsets'[q]? = some s → q < subsets.size ∨ q = t) :
    Drawn m judged (fun q c => followed q c ∨ (q = id ∧ c ∈ k))
      (Chart.addEdges { g with size := n } id k t) subsets' := by
  have hkeep : ∀ (q : Nat) s, subsets[q]? = some s → subsets'[q]? = some s := fun q s hq =>
    (hold q (lt_size hq)).trans hq
  have hsize : ∀ q, q < subsets.size → q < subsets'.size := fun q hq =>
    lt_size (hkeep q _ (Array.getElem?_eq_getElem hq))
  refine ⟨fun q hq => hsize q (h.judged_lt q hq), ?_, fun q s hq hs => ?_, fun q s c hf hs => ?_,
    fun q c hf => ?_, fun q s hs => ?_⟩
  · rintro q c (hf | ⟨rfl, -⟩)
    · exact hsize q (h.followed_lt q c hf)
    · exact hsize q (lt_size hid)
  · exact h.accept q s hq ((hold q (h.judged_lt q hq)).symm.trans hs)
  · by_cases hfirst : q = id ∧ c ∈ k
    · obtain ⟨rfl, hc⟩ := hfirst
      rw [hkeep q ids hid, Option.some.injEq] at hs
      subst hs
      refine ⟨ids', hstep c hc, ?_⟩
      rw [Chart.move_addEdges, if_pos ⟨rfl, hc⟩]
      exact ⟨hne, hfound⟩
    · have hf := hf.resolve_right hfirst
      obtain ⟨next, hnext, hleads⟩ := h.next q s c hf
        ((hold q (h.followed_lt q c hf)).symm.trans hs)
      refine ⟨next, hnext, ?_⟩
      rw [Chart.move_addEdges, if_neg hfirst]
      exact hleads.mono hkeep
  · rw [not_or] at hf
    exact (if_neg hf.2).trans (h.fresh q c hf.1)
  · rcases hnew q s hs with hq | rfl
    · obtain ⟨w, hw, hwalk⟩ := h.reached q s ((hold q hq).symm.trans hs)
      exact ⟨w, hw, h.walk_addEdges hopen hwalk⟩
    · rw [hfound, Option.some.injEq] at hs
      exact hs ▸ h.reached_addEdges hm hid hk hstep hopen

end Determinization

end RegularLanguages
