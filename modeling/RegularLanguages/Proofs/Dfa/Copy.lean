import RegularLanguages.Proofs.Alphabet.Carving
import RegularLanguages.Proofs.Dfa.Completion
import RegularLanguages.Proofs.Outcome

/-!
# Copies and complements

A copy gets its edges one by one over an alphabet of its own. The symbols of a row are different, so
no edge that is replayed takes the place of another one, and the copy has the chart of the machine;
its alphabet is the trivial one refined for the blocks of the edges in the order of the edges. The
complement is made of the copy: its language is that of the texts that the machine rejects.
-/

namespace RegularLanguages

namespace Chart

/-- The edges from the states before `n` only. -/
def upTo (g : Chart) (n : Nat) : Chart :=
  { g with move := fun q c => if q < n then g.move q c else none }

/-- The edges of `row` from `id`, in place of those on the same characters. -/
def overlay (g : Chart) (id : Nat) (row : Char → Option Nat) : Chart :=
  { g with move := fun q c => if q = id then (row c).or (g.move q c) else g.move q c }

theorem upTo_size {g : Chart} (h : g.Closed) : g.upTo g.size = g := by
  refine eq_of_iff rfl (fun _ => .rfl) (fun _ => .rfl) fun q c => ?_
  show (if q < g.size then g.move q c else none) = g.move q c
  split
  · rfl
  · rename_i hq
    exact (Option.eq_none_iff_forall_ne_some.2 fun t ht => hq (h.move_lt q c t ht).1).symm

theorem overlay_upTo (g : Chart) (n : Nat) : (g.upTo n).overlay n (g.move n) = g.upTo (n + 1) := by
  refine eq_of_iff rfl (fun _ => .rfl) (fun _ => .rfl) fun q c => ?_
  show (if q = n then (g.move n c).or (if q < n then g.move q c else none)
    else if q < n then g.move q c else none) = if q < n + 1 then g.move q c else none
  rcases Nat.lt_trichotomy q n with hq | rfl | hq
  · rw [if_neg (Nat.ne_of_lt hq), if_pos hq, if_pos (Nat.lt_succ_of_lt hq)]
  · rw [if_pos rfl, if_neg (Nat.lt_irrefl q), if_pos (Nat.lt_succ_self q), Option.or_none]
  · rw [if_neg (Nat.ne_of_gt hq), if_neg (Nat.lt_asymm hq), if_neg (Nat.not_lt_of_le hq)]

end Chart

namespace Dfa

variable {d c : Dfa} {id : Nat}

/-- The symbols of the edges, state by state. -/
def rows (d : Dfa) : List (List Nat) := d.states.toList.map fun s => s.edges.symbols

/-- The blocks of the edges, in the order of the edges. -/
def labels (d : Dfa) : List CharClass := d.rows.flatten.map d.alphabet.label

/-! ## Replaying edges -/

/-- What the steps of a loop over the states keep up to their number. -/
theorem foldlM_numbered_spec {β : Type} {f : β → Nat × State → Logged β} {P : Nat → β → Prop}
    {b : β} (h : ∀ n s b, d.states[n]? = some s → P n b →
      ∃ b', (f b (n, s)).outcome = .ok b' ∧ P (n + 1) b') (hb : P 0 b) :
    ∃ b', (d.numbered.foldlM f b).outcome = .ok b' ∧ P d.chart.size b' := by
  have hzip := Outcome.foldlM_zipIdx_spec (f := fun b p => f b (p.2, p.1)) (P := P)
    (l := d.states.toList) (n := 0) (fun n s b hs hP => by
      rw [Nat.zero_add] at hP ⊢
      exact h n s b (Array.getElem?_toList.symm.trans hs) hP) hb
  rwa [Nat.zero_add, ← List.foldlM_map] at hzip

/-- The edge on the first entry of a row and the edges on the others. -/
theorem overlay_addEdges (g : Chart) {a : Alphabet} {k : CharClass} {s target : Nat}
    {es : List (Nat × Nat)} (hk : ∀ x, x ∈ k ↔ a.index x = s) (hes : ∀ e ∈ es, s < e.1) :
    (g.addEdges id k target).overlay id (fun x => Row.find? (a.index x) es) =
      g.overlay id fun x => Row.find? (a.index x) ((s, target) :: es) := by
  refine Chart.eq_of_iff rfl (fun _ => .rfl) (fun _ => .rfl) fun q x => ?_
  show (if q = id then (Row.find? (a.index x) es).or ((g.addEdges id k target).move q x)
      else (g.addEdges id k target).move q x) =
    if q = id then (Row.find? (a.index x) ((s, target) :: es)).or (g.move q x) else g.move q x
  simp only [Chart.move_addEdges, hk, Row.find?]
  by_cases hq : q = id
  · by_cases hx : a.index x = s
    · -- the symbols of the other entries are greater, so none of them takes the place of this one
      rw [if_pos hq, if_pos hq, if_pos ⟨hq, hx⟩, if_pos hx, hx, Row.find?_eq_none_of_lt hes]
      rfl
    · rw [if_pos hq, if_pos hq, if_neg fun hboth => hx hboth.2, if_neg hx]
  · rw [if_neg hq, if_neg hq, if_neg fun hboth => hq hboth.1]

theorem replayState_spec (hd : d.Valid) (hc : c.Valid) (hid : id < c.chart.size) {s : State}
    (hs : s.Valid d.alphabet.size c.chart.size) :
    ∃ c', (d.replayState c (id, s)).outcome = .ok c' ∧ c'.Valid ∧
      c'.alphabet = c.alphabet.refineAll (s.edges.symbols.map d.alphabet.label) ∧
      c'.chart = c.chart.overlay id fun x => s.edges.get? (d.alphabet.index x) := by
  obtain ⟨isStart, isAccept, ⟨es⟩⟩ := s
  induction es generalizing c with
  | nil =>
    refine ⟨c, rfl, hc, rfl, Chart.eq_of_iff rfl (fun _ => .rfl) (fun _ => .rfl) fun q x => ?_⟩
    exact (ite_self _).symm
  | cons e rest ih =>
    obtain ⟨symbol, target⟩ := e
    obtain ⟨hfirst, hrest⟩ := List.pairwise_cons.1 hs.sorted
    obtain ⟨hsymbol, htarget⟩ := hs.entry_lt _ (List.mem_cons_self ..)
    have hk := Alphabet.block_eq_label hsymbol
    obtain ⟨c₁, hc₁, hvalid, halphabet, hchart⟩ :=
      add_spec hc hid htarget (d.alphabet.label symbol)
    have hsize : c₁.chart.size = c.chart.size := by
      rw [hchart]
      rfl
    obtain ⟨c', hc', hvalid', halphabet', hchart'⟩ := ih hvalid (hsize ▸ hid)
      ⟨hrest, fun e he => hsize ▸ hs.entry_lt e (List.mem_cons_of_mem _ he)⟩
    refine ⟨c', ?_, hvalid', ?_, ?_⟩
    · rw [replayState] at hc' ⊢
      rw [Outcome.outcome_foldlM_cons]
      simp [hk, hc₁, hc']
    · rw [halphabet', halphabet]
      rfl
    · rw [hchart', hchart]
      exact overlay_addEdges c.chart (fun x => hd.partition.mem_label) hfirst

/-- What has been copied when the states before `n` have been replayed. -/
structure Replayed (d : Dfa) (n : Nat) (c : Dfa) : Prop where
  valid : c.Valid
  alphabet : c.alphabet =
    Alphabet.trivial.refineAll ((d.rows.take n).flatten.map d.alphabet.label)
  chart : c.chart = d.chart.upTo n

theorem replayed_zero (d : Dfa) :
    Replayed d 0 ⟨.trivial, d.states.map fun s => { s with edges := .empty }⟩ where
  valid := by
    refine ⟨Alphabet.partition_trivial, fun q s hs => ?_⟩
    rw [Array.getElem?_map, Option.map_eq_some_iff] at hs
    obtain ⟨s₀, -, rfl⟩ := hs
    exact ⟨Row.sorted_empty, nofun⟩
  alphabet := rfl
  chart := by
    refine Chart.eq_of_iff Array.size_map (fun q => ?_) (fun q => ?_) fun q x => ?_ <;>
      simp only [Dfa.chart, Has, Array.getElem?_map, Chart.upTo] <;> cases d.states[q]? <;>
      simp

theorem Replayed.step (hd : d.Valid) {n : Nat} (h : Replayed d n c) {s : State}
    (hs : d.states[n]? = some s) :
    ∃ c', (d.replayState c (n, s)).outcome = .ok c' ∧ Replayed d (n + 1) c' := by
  have hsize : c.chart.size = d.chart.size := by
    rw [h.chart]
    rfl
  have hn : n < d.chart.size := (Array.getElem?_eq_some_iff.1 hs).1
  obtain ⟨c', hc', hvalid, halphabet, hchart⟩ := replayState_spec hd h.valid (hsize ▸ hn)
    (by rw [hsize]; exact hd.states n s hs)
  refine ⟨c', hc', hvalid, ?_, ?_⟩
  · have hrow : d.rows[n]? = some s.edges.symbols := by
      rw [rows, List.getElem?_map, Array.getElem?_toList, hs, Option.map_some]
    rw [halphabet, h.alphabet, List.take_add_one, hrow, Option.toList_some, List.flatten_concat,
      List.map_append, Alphabet.refineAll_append]
  · rw [hchart, h.chart, ← Chart.overlay_upTo]
    exact congrArg _ (funext fun x => (move_eq hs x).symm)

/-- A copy has the chart of the machine, over an alphabet of its own. -/
theorem Valid.copy_spec (hd : d.Valid) :
    ∃ c, d.copy.outcome = .ok c ∧ c.Valid ∧ c.alphabet = Alphabet.trivial.refineAll d.labels ∧
      c.chart = d.chart := by
  obtain ⟨c, hc, h⟩ := foldlM_numbered_spec (fun _ _ _ hs h => h.step hd hs) (replayed_zero d)
  refine ⟨c, hc, h.valid, ?_, h.chart.trans (Chart.upTo_size hd.closed)⟩
  have hsize : d.chart.size = d.rows.length := by simp [rows, chart]
  rw [h.alphabet, hsize, List.take_length, labels]

theorem Proper.copy_spec (hd : d.Proper) :
    ∃ c, d.copy.outcome = .ok c ∧ c.Proper ∧ c.chart = d.chart := by
  obtain ⟨c, hc, hvalid, -, hchart⟩ := hd.toValid.copy_spec
  exact ⟨c, hc, ⟨hvalid, hchart ▸ hd.start_iff⟩, hchart⟩

/-! ## Complements -/

theorem Proper.chart_complement (hd : d.Proper) :
    ∃ c, d.complement.outcome = .ok c ∧ c.Proper ∧ c.chart = d.chart.complete.flip := by
  obtain ⟨c, hc, hproper, hchart⟩ := hd.copy_spec
  have hflip : c.complete.flip.chart = d.chart.complete.flip := by
    rw [chart_flip, hproper.chart_complete, hchart]
  refine ⟨c.complete.flip, by simp [complement, hc], ⟨hproper.complete.flip, ?_⟩, hflip⟩
  rw [hflip]
  show ∀ q, d.chart.complete.start q ↔ q = 0
  rw [d.chart.start_complete]
  exact hd.start_iff

theorem Proper.complement_spec (hd : d.Proper) :
    ∃ c, d.complement.outcome = .ok c ∧ c.Proper ∧
      ∀ w, w ∈ c.chart.language ↔ w ∉ d.chart.language := by
  obtain ⟨c, hc, hproper, hchart⟩ := hd.chart_complement
  refine ⟨c, hc, hproper, fun w => ?_⟩
  rw [hchart]
  exact Chart.mem_language_flip_complete hd.closed hd.size_pos

end Dfa

end RegularLanguages
