import RegularLanguages.Dfa.Printer
import RegularLanguages.Proofs.Dfa.Run
import RegularLanguages.Proofs.Dump.Paragraph
import RegularLanguages.Proofs.Outcome

/-!
# Dumps of deterministic machines

The dump has a paragraph for each state, with its number and roles and, for each of its edges, the
target and the block. The characters that lead from a state to another are those of the classes on
the lines between them, so machines with the same paragraphs have the same chart, whatever numbers
their alphabets give to the blocks.
-/

namespace RegularLanguages

namespace Dfa

/-- What the dump shows of a state. -/
def paragraph (d : Dfa) : Nat × State → Dump.Paragraph
  | (id, s) => ⟨id, s.isStart, s.isAccept,
      s.edges.entries.map fun (symbol, target) => (target, d.alphabet.label symbol)⟩

def paragraphs (d : Dfa) : List Dump.Paragraph := d.numbered.map d.paragraph

variable {d d' : Dfa} {q : Nat} {s : State}

/-! ## The dump consists of the paragraphs -/

theorem mem_numbered : (q, s) ∈ d.numbered ↔ d.states[q]? = some s := by
  rw [numbered, List.mem_map, ← Array.getElem?_toList]
  constructor
  · rintro ⟨⟨s', q'⟩, hmem, heq⟩
    cases heq
    exact List.mem_zipIdx_iff_getElem?.1 hmem
  · intro hs
    exact ⟨(s, q), List.mem_zipIdx_iff_getElem?.2 hs, rfl⟩

theorem stateLines_eq (hd : d.Valid) (hs : d.states[q]? = some s) :
    d.stateLines (q, s) = .ok (d.paragraph (q, s)).text := by
  have hline : ∀ e ∈ s.edges.entries,
      d.edgeLine e = .ok (Dump.edgeText (e.2, d.alphabet.label e.1)) := fun e he => by
    have hlt := ((hd.states q s hs).entry_lt e he).1
    have hinhabited := hd.partition.inhabited _ (Alphabet.label_mem hlt)
    rw [edgeLine, Alphabet.block_eq_label hlt, Logged.ok_bind,
      CharClass.label_eq_text hinhabited]
    rfl
  rw [stateLines, Outcome.mapM_eq_map hline, Logged.ok_bind, Dump.Paragraph.text, paragraph,
    List.flatMap_map, ← List.append_assoc, List.flatMap_def]
  rfl

theorem dump_eq (hd : d.Valid) :
    d.dump = .ok (d.paragraphs.flatMap Dump.Paragraph.text) := by
  have hstate : ∀ e ∈ d.numbered, d.stateLines e = .ok (d.paragraph e).text := fun e he =>
    stateLines_eq hd (mem_numbered.1 he)
  rw [dump, Outcome.mapM_eq_map hstate, Logged.ok_bind, paragraphs, List.flatMap_map,
    List.flatMap_def]
  rfl

theorem canonical_paragraphs (hd : d.Valid) (hblocks : ∀ b ∈ d.alphabet.blocks, b.Canonical) :
    ∀ p ∈ d.paragraphs, p.Canonical := by
  intro p hp e he
  obtain ⟨⟨q, s⟩, hs, rfl⟩ := List.mem_map.1 hp
  obtain ⟨⟨symbol, target⟩, hentry, rfl⟩ := List.mem_map.1 he
  have hlt := ((hd.states q s (mem_numbered.1 hs)).entry_lt _ hentry).1
  exact hblocks _ (Alphabet.label_mem hlt)

/-! ## The paragraphs tell the chart -/

theorem getElem?_paragraphs (d : Dfa) (q : Nat) :
    d.paragraphs[q]? = d.states[q]?.map fun s => d.paragraph (q, s) := by
  simp only [paragraphs, numbered, List.map_map, List.getElem?_map, List.getElem?_zipIdx,
    Array.getElem?_toList, Option.map_map, Nat.zero_add]
  rfl

/-- The classes on the lines to `t` have the characters that lead there. -/
theorem move_eq_some_iff (hd : d.Valid) (hs : d.states[q]? = some s) {x : Char} {t : Nat} :
    d.chart.move q x = some t ↔ ∃ k, (t, k) ∈ (d.paragraph (q, s)).edges ∧ x ∈ k := by
  rw [move_eq hs, (hd.states q s hs).sorted.get?_eq_some_iff]
  constructor
  · intro hentry
    exact ⟨_, List.mem_map.2 ⟨_, hentry, rfl⟩, hd.partition.mem_label.2 rfl⟩
  · rintro ⟨k, hline, hx⟩
    obtain ⟨⟨symbol, target⟩, hentry, heq⟩ := List.mem_map.1 hline
    cases heq
    rw [hd.partition.mem_label.1 hx]
    exact hentry

/-- Two machines with the same paragraphs have a state under the same numbers, and the states under
a number have the same paragraph. -/
theorem states_of_paragraphs_eq (h : d'.paragraphs = d.paragraphs) (q : Nat) :
    (d.states[q]? = none ∧ d'.states[q]? = none) ∨
      ∃ s s', d.states[q]? = some s ∧ d'.states[q]? = some s' ∧
        d'.paragraph (q, s') = d.paragraph (q, s) := by
  have hq : (d'.states[q]?.map fun s => d'.paragraph (q, s)) =
      d.states[q]?.map fun s => d.paragraph (q, s) := by
    rw [← getElem?_paragraphs, ← getElem?_paragraphs, h]
  cases hs : d.states[q]? with
  | none =>
    rw [hs, Option.map_none, Option.map_eq_none_iff] at hq
    exact .inl ⟨rfl, hq⟩
  | some s =>
    rw [hs, Option.map_some, Option.map_eq_some_iff] at hq
    obtain ⟨s', hs', heq⟩ := hq
    exact .inr ⟨s, s', rfl, hs', heq⟩

theorem chart_eq_of_paragraphs_eq (hd : d.Valid) (hd' : d'.Valid)
    (h : d'.paragraphs = d.paragraphs) : d'.chart = d.chart := by
  have hsize : d'.chart.size = d.chart.size := by
    have hlength := congrArg List.length h
    simpa [paragraphs, numbered, chart] using hlength
  refine Chart.eq_of_iff hsize (fun q => ?_) (fun q => ?_) fun q x => ?_
  · rcases states_of_paragraphs_eq h q with ⟨hs, hs'⟩ | ⟨s, s', hs, hs', heq⟩
    · simp [chart, Has, hs, hs']
    · have hstart : s'.isStart = s.isStart := congrArg Dump.Paragraph.isStart heq
      rw [start_iff hs, start_iff hs', hstart]
  · rcases states_of_paragraphs_eq h q with ⟨hs, hs'⟩ | ⟨s, s', hs, hs', heq⟩
    · simp [chart, Has, hs, hs']
    · have haccept : s'.isAccept = s.isAccept := congrArg Dump.Paragraph.isAccept heq
      rw [accept_iff hs, accept_iff hs', haccept]
  · rcases states_of_paragraphs_eq h q with ⟨hs, hs'⟩ | ⟨s, s', hs, hs', heq⟩
    · simp [chart, hs, hs']
    · refine Option.ext fun t => ?_
      rw [move_eq_some_iff hd hs, move_eq_some_iff hd' hs', heq]

end Dfa

end RegularLanguages
