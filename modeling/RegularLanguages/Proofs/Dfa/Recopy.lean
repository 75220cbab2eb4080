import RegularLanguages.Proofs.Dfa.Dump
import RegularLanguages.Proofs.Dfa.Thrift

/-!
# Copies of machines

`Copies d c` compares a machine with a copy of it: the same states in the same roles, the same
moves, and the same blocks in another order, for a thrifty machine has no block that its edges do
not call for. The copy numbers its blocks as its edges use them, state by state. A copy of the copy
meets them in this order, since sorting the symbols of a state moves none of those that are new
before one that is old. So it carves the same blocks, and is the copy itself.
-/

namespace RegularLanguages

/-- The characters of a class. -/
def CharClass.chars (k : CharClass) : Set Char := {c | c ∈ k}

theorem Alphabet.Partition.nodup_chars {a : Alphabet} (h : a.Partition) :
    (a.blocks.map CharClass.chars).Nodup :=
  List.pairwise_map.2 <| h.disjoint.imp_of_mem fun {b b'} hb _ hdisjoint heq => by
    obtain ⟨x, hx⟩ := h.inhabited b hb
    have hx' : x ∈ b'.chars := heq ▸ hx
    exact hdisjoint x hx hx'

/-- `c` is `d` with its blocks in another order. -/
structure Dfa.Copies (d c : Dfa) : Prop where
  size : c.size = d.size
  state : ∀ q s, d.state q = .ok s →
    ∃ t, c.state q = .ok t ∧ t.isStart = s.isStart ∧ t.isAccept = s.isAccept
  target : ∀ q x, q < d.size → ∃ a b o, d.alphabet.symbolOf x = .ok a ∧
    c.alphabet.symbolOf x = .ok b ∧ d.targetOn? q a = .ok o ∧ c.targetOn? q b = .ok o
  blocks : (c.alphabet.blocks.map CharClass.chars).Perm (d.alphabet.blocks.map CharClass.chars)
  isComplete : c.isComplete = d.isComplete

/-! ## Machines with the same chart and alphabet -/

theorem Row.Sorted.eq_of_get? {α : Type} {r r' : Row α} (h : r.Sorted) (h' : r'.Sorted)
    (hget : ∀ s, r.get? s = r'.get? s) : r = r' := by
  have : Std.Irrefl fun e f : Nat × α => e.1 < f.1 := ⟨fun e => Nat.lt_irrefl e.1⟩
  have : Std.Antisymm fun e f : Nat × α => e.1 < f.1 :=
    ⟨fun _ _ hlt hgt => absurd hlt (Nat.lt_asymm hgt)⟩
  refine congrArg Row.mk (List.Pairwise.eq_of_mem_iff h h' fun e => ?_)
  rw [← h.get?_eq_some_iff, ← h'.get?_eq_some_iff, hget]

namespace Dfa

variable {d c : Dfa} {q s : Nat} {x : Char}

theorem State.Valid.get?_eq_none {symbols states : Nat} {st : State} (h : st.Valid symbols states)
    (hs : symbols ≤ s) : st.edges.get? s = none :=
  Option.eq_none_iff_forall_ne_some.2 fun _ ht =>
    Nat.not_lt_of_le hs (h.entry_lt _ (Row.mem_entries_of_get? ht)).1

/-- States that play the same part in the chart have the same flags. -/
theorem flags_eq {st st' : State} (hst : d.states[q]? = some st) (hst' : c.states[q]? = some st')
    (hchart : c.chart = d.chart) : st'.isStart = st.isStart ∧ st'.isAccept = st.isAccept := by
  constructor
  · rw [Bool.eq_iff_iff, ← start_iff hst, ← start_iff hst', hchart]
  · rw [Bool.eq_iff_iff, ← accept_iff hst, ← accept_iff hst', hchart]

/-- A machine is known by its alphabet and its chart. -/
theorem Valid.eq_of_chart_eq (hd : d.Valid) (hc : c.Valid) (halphabet : c.alphabet = d.alphabet)
    (hchart : c.chart = d.chart) : c = d := by
  have hstate : ∀ {q : Nat} {s t : State}, d.states[q]? = some s → c.states[q]? = some t →
      t = s := by
    intro q s t hs ht
    obtain ⟨hstart, haccept⟩ := flags_eq hs ht hchart
    have hs' := hd.states q s hs
    have ht' := hc.states q t ht
    have hedges : t.edges = s.edges := ht'.sorted.eq_of_get? hs'.sorted fun symbol => by
      by_cases hsymbol : symbol < d.alphabet.size
      · obtain ⟨x, rfl⟩ := hd.partition.exists_index_eq hsymbol
        rw [← move_eq hs, ← hchart, move_eq ht, halphabet]
      · rw [hs'.get?_eq_none (Nat.not_lt.1 hsymbol),
          ht'.get?_eq_none (halphabet ▸ Nat.not_lt.1 hsymbol)]
    obtain ⟨isStart, isAccept, edges⟩ := t
    cases hstart
    cases haccept
    cases hedges
    rfl
  have hsize : c.states.size = d.states.size := congrArg Chart.size hchart
  have hstates : c.states = d.states := Array.ext hsize fun q hq hq' =>
    hstate (Array.getElem?_eq_getElem hq') (Array.getElem?_eq_getElem hq)
  obtain ⟨alphabet, states⟩ := c
  cases halphabet
  cases hstates
  rfl

/-! ## The labels of a machine -/

theorem Valid.separate_of_mem_labels (hd : d.Valid) {k l : CharClass} (hk : k ∈ d.labels)
    (hl : l ∈ d.labels) : Alphabet.Separate k l := by
  obtain ⟨s, -, rfl⟩ := List.mem_map.1 hk
  obtain ⟨t, -, rfl⟩ := List.mem_map.1 hl
  by_cases hst : s = t
  · exact .inl (hst ▸ rfl)
  · refine .inr fun x hs ht => hst ?_
    exact (hd.partition.mem_label.1 hs).symm.trans (hd.partition.mem_label.1 ht)

theorem Valid.separate_labels (hd : d.Valid) : d.labels.Pairwise Alphabet.Separate :=
  List.pairwise_of_forall_mem_list fun _ hk _ hl => hd.separate_of_mem_labels hk hl

theorem Valid.inhabited_of_mem_labels (hd : d.Valid) {k : CharClass} (hk : k ∈ d.labels) :
    ∃ x, x ∈ k := by
  obtain ⟨s, hs, rfl⟩ := List.mem_map.1 hk
  obtain ⟨q, st, hq, hst⟩ := mem_rows.1 hs
  obtain ⟨e, he, rfl⟩ := List.mem_map.1 hst
  obtain ⟨x, hx⟩ := hd.partition.exists_index_eq ((hd.states q st hq).entry_lt e he).1
  exact ⟨x, hd.partition.mem_label.2 hx⟩

/-- The blocks of a thrifty machine are what its edges call for. -/
theorem Thrifty.gathers (hd : d.Valid) (h : d.Thrifty) : d.alphabet.Gathers d.labels where
  partition := hd.partition
  index_eq_iff x y := by
    constructor
    · intro heq k hk
      obtain ⟨s, -, rfl⟩ := List.mem_map.1 hk
      rw [hd.partition.mem_label, hd.partition.mem_label, heq]
    · intro halike
      have hused : ∀ s ∈ d.rows.flatten, d.alphabet.index x = s ↔ d.alphabet.index y = s :=
        fun s hs => by
          rw [← hd.partition.mem_label, ← hd.partition.mem_label]
          exact halike _ (List.mem_map_of_mem hs)
      have hnone : ∀ {x}, d.alphabet.index x ∉ d.rows.flatten → ∀ q, d.chart.move q x = none :=
        fun hx q => Option.eq_none_iff_forall_ne_some.2 fun t ht =>
          hx (hd.index_mem_rows.2 ⟨q, t, ht⟩)
      by_cases hx : d.alphabet.index x ∈ d.rows.flatten
      · exact ((hused _ hx).1 rfl).symm
      · by_cases hy : d.alphabet.index y ∈ d.rows.flatten
        · exact (hused _ hy).2 rfl
        · exact h x y (hnone hx) (hnone hy)

/-! ## The order of the blocks -/

/-- What is known of a copy before anything is known of its blocks. -/
structure Redrawn (d c : Dfa) : Prop where
  source : d.Valid
  valid : c.Valid
  alphabet : c.alphabet = Alphabet.trivial.refineAll d.labels
  chart : c.chart = d.chart

section Redrawn

variable (h : Redrawn d c)
include h

theorem Redrawn.gathers : c.alphabet.Gathers d.labels :=
  h.alphabet ▸ Alphabet.gathers_refineAll_trivial d.labels

theorem Redrawn.alphabet_eq : c.alphabet = ⟨Alphabet.carve .universal d.labels⟩ := by
  rw [h.alphabet, Alphabet.refineAll_trivial h.source.separate_labels]

/-- All characters of a label have one symbol. -/
theorem Redrawn.exists_symbol {k : CharClass} (hk : k ∈ d.labels) :
    ∃ s, ∀ x ∈ k, c.alphabet.index x = s := by
  obtain ⟨y, hy⟩ := h.source.inhabited_of_mem_labels hk
  refine ⟨c.alphabet.index y, fun x hx => (h.gathers.index_eq_iff x y).2 fun l hl => ?_⟩
  rcases h.source.separate_of_mem_labels hk hl with rfl | hsep
  · exact iff_of_true hx hy
  · exact iff_of_false (hsep x hx) (hsep y hy)

/-- A state of the copy has the new symbols of its labels. -/
theorem Redrawn.mem_symbols {num : CharClass → Nat}
    (hnum : ∀ k ∈ d.labels, ∀ x ∈ k, c.alphabet.index x = num k) {st st' : State}
    (hst : d.states[q]? = some st) (hst' : c.states[q]? = some st') :
    s ∈ st'.edges.symbols ↔ s ∈ st.edges.symbols.map fun s => num (d.alphabet.label s) := by
  have hvalid := h.source.states q st hst
  have hvalid' := h.valid.states q st' hst'
  have hmove : ∀ x t, st'.edges.get? (c.alphabet.index x) = some t ↔
      st.edges.get? (d.alphabet.index x) = some t := fun x t => by
    rw [← move_eq hst, ← move_eq hst', h.chart]
  have hlabel : ∀ {x t}, st.edges.get? (d.alphabet.index x) = some t →
      c.alphabet.index x = num (d.alphabet.label (d.alphabet.index x)) := fun {x t} ht => by
    have hs := mem_rows.2 ⟨q, st, hst, hvalid.sorted.mem_symbols.2 ⟨t, ht⟩⟩
    exact hnum _ (List.mem_map_of_mem hs) x (h.source.partition.mem_label.2 rfl)
  rw [hvalid'.sorted.mem_symbols, List.mem_map]
  constructor
  · rintro ⟨t, ht⟩
    have hlt := (hvalid'.entry_lt _ (Row.mem_entries_of_get? ht)).1
    obtain ⟨x, rfl⟩ := h.valid.partition.exists_index_eq hlt
    rw [hmove] at ht
    exact ⟨_, hvalid.sorted.mem_symbols.2 ⟨t, ht⟩, (hlabel ht).symm⟩
  · rintro ⟨a, ha, rfl⟩
    obtain ⟨t, ht⟩ := hvalid.sorted.mem_symbols.1 ha
    have hlt := (hvalid.entry_lt _ (Row.mem_entries_of_get? ht)).1
    obtain ⟨x, rfl⟩ := h.source.partition.exists_index_eq hlt
    exact ⟨t, by rw [← hlabel ht, hmove, ht]⟩

theorem Redrawn.forall₂_rows {num : CharClass → Nat}
    (hnum : ∀ k ∈ d.labels, ∀ x ∈ k, c.alphabet.index x = num k) :
    List.Forall₂ (fun xs ys => ys.Pairwise (· < ·) ∧ ∀ s, s ∈ ys ↔ s ∈ xs)
      (d.rows.map fun row => row.map fun s => num (d.alphabet.label s)) c.rows := by
  have hsize : c.states.size = d.states.size := congrArg Chart.size h.chart
  refine List.forall₂_iff_get.2 ⟨by simp [rows, hsize], fun q hq hq' => ?_⟩
  have hlt : q < d.states.size := by simpa [rows] using hq
  have hlt' : q < c.states.size := hsize ▸ hlt
  have hst : d.states[q]? = some d.states[q] := Array.getElem?_eq_getElem hlt
  have hst' : c.states[q]? = some c.states[q] := Array.getElem?_eq_getElem hlt'
  simp only [rows, List.get_eq_getElem, List.getElem_map, Array.getElem_toList]
  exact ⟨(h.valid.states q _ hst').sorted.pairwise_symbols, fun s => h.mem_symbols hnum hst hst'⟩

theorem Redrawn.introduces : ∃ n, c.alphabet.size = n + 1 ∧
    Alphabet.Introduces n 0 c.rows.flatten n := by
  choose! num hnum using fun k (hk : k ∈ d.labels) => h.exists_symbol hk
  have hpartition := h.valid.partition
  rw [h.alphabet_eq] at hnum hpartition
  have hpos := (Alphabet.carved_carve .universal d.labels).length_pos
  obtain ⟨n, hn⟩ := Nat.exists_eq_add_one_of_ne_zero (Nat.ne_of_gt hpos)
  have hlabels := Alphabet.introduces_carve [] hpartition h.source.separate_labels
    (fun k hk => h.source.inhabited_of_mem_labels hk) hnum ((Nat.zero_add _).trans hn)
  rw [← h.alphabet_eq] at hnum
  refine ⟨n, h.alphabet_eq ▸ hn,
    Alphabet.introduces_flatten (h.forall₂_rows hnum) ?_ (Nat.le_refl n)⟩
  rwa [labels, List.map_map, List.map_flatten] at hlabels

/-- Copying once more changes nothing. -/
theorem Redrawn.copy_eq : c.copy.outcome = .ok c := by
  obtain ⟨n, hn, hintroduces⟩ := h.introduces
  obtain ⟨c', hc', hvalid, halphabet, hchart⟩ := h.valid.copy_spec
  have hcarve : Alphabet.carve .universal c.labels = Alphabet.carve .universal d.labels := by
    have hpartition := h.valid.partition
    rw [labels]
    rw [h.alphabet_eq] at hpartition hn ⊢
    exact (Alphabet.carved_carve .universal d.labels).carve_eq [] hpartition
      ((Nat.zero_add _).trans hn) hintroduces rfl rfl
  rw [hc', h.valid.eq_of_chart_eq hvalid ?_ hchart]
  rw [halphabet, Alphabet.refineAll_trivial h.valid.separate_labels, hcarve, h.alphabet_eq]

end Redrawn

/-! ## Copies -/

theorem Redrawn.copies (h : Redrawn d c) (hthrifty : d.Thrifty) : d.Copies c where
  size := congrArg Chart.size h.chart
  state q s hs := by
    rw [state_eq_ok_iff] at hs
    have hq : q < c.chart.size := by
      rw [h.chart]
      exact (Array.getElem?_eq_some_iff.1 hs).1
    obtain ⟨t, ht⟩ := exists_state hq
    exact ⟨t, state_eq_ok_iff.2 ht, flags_eq hs ht h.chart⟩
  target q x hq := by
    refine ⟨_, _, _, h.source.partition.symbolOf_eq x, h.valid.partition.symbolOf_eq x,
      targetOn?_spec hq x, ?_⟩
    rw [← h.chart]
    exact targetOn?_spec (h.chart ▸ hq) x
  blocks := by
    have hmem : ∀ (a : Alphabet) S, S ∈ a.blocks.map CharClass.chars ↔ S ∈ a.blockSets :=
      fun a S => by simp [Alphabet.blockSets, CharClass.chars, eq_comm]
    refine (List.perm_ext_iff_of_nodup h.valid.partition.nodup_chars
      h.source.partition.nodup_chars).2 fun S => ?_
    rw [hmem, hmem, h.gathers.blockSets_eq, (hthrifty.gathers h.source).blockSets_eq]
  isComplete := by
    rw [Bool.eq_iff_iff, isComplete_iff h.valid, isComplete_iff h.source, h.chart]

end Dfa

/-- A copy is faithful, and it is what a copy of it gives, down to the order of the blocks and the
form in which they are stored. -/
theorem Automaton.Built.copy_faithful {d : Dfa} (h : Automaton.Built (.dfa d)) :
    ∃ c text, d.copy.outcome = .ok c ∧ d.Copies c ∧ c.copy.outcome = .ok c ∧
      c.dump = .ok text := by
  have hd : d.Valid := h.sound.toValid
  obtain ⟨c, hc, hvalid, halphabet, hchart⟩ := hd.copy_spec
  have hredrawn : Dfa.Redrawn d c := ⟨hd, hvalid, halphabet, hchart⟩
  exact ⟨c, _, hc, hredrawn.copies h.spare, hredrawn.copy_eq, Dfa.dump_eq hvalid⟩

namespace Dfa

/-- The edges use the blocks in another order than that of their numbers, leave one block out, and
one of them takes the place of a part of an older one. -/
def shuffled : List Change :=
  [.addState, .add 1 0 (.ofRanges [⟨'a', 'm'⟩] true), .add 0 1 (.ofRanges [⟨'g', 'z'⟩] false),
    .add 1 1 (.single 'x'), .setAccept 1 true]

theorem exists_copy_shuffled : ∃ d, (initial.applyAll shuffled).outcome = .ok d ∧
    Automaton.Built (.dfa d) ∧ ∃ c text, d.copy.outcome = .ok c ∧ d.Copies c ∧
      c.copy.outcome = .ok c ∧ c.dump = .ok text := by
  obtain ⟨d, hd⟩ : ∃ d, (initial.applyAll shuffled).outcome = .ok d :=
    Outcome.exists_ok_of_isOk (by decide +kernel)
  have hbuilt : Automaton.Built (.dfa d) := built_of_applyAll .initial hd
  exact ⟨d, hd, hbuilt, hbuilt.copy_faithful⟩

end Dfa

end RegularLanguages
