import RegularLanguages.Nfa.Printer
import RegularLanguages.Proofs.CharClass.Extremes
import RegularLanguages.Proofs.Dump.Paragraph
import RegularLanguages.Proofs.Nfa.Run

/-!
# Dumps of nondeterministic machines

The dump has a paragraph for each state that is there. An edge that reads nothing is shown with the
text of a class, namely that of the lone character `ε`; so the paragraphs tell what a state reads on
every other character, and of `ε` only whether it leads somewhere on this character or on nothing.
-/

namespace RegularLanguages

/-- The class that is shown as the label of an edge that reads nothing. -/
def Dump.epsilonClass : CharClass := .single 'ε'

theorem Dump.text_epsilonClass : epsilonClass.text = epsilonLabel := by decide

theorem Dump.canonical_epsilonClass : epsilonClass.Canonical :=
  CharClass.canonical_ofRange (Char.le_refl _) (CharRange.single_ne_full _)

theorem Dump.mem_epsilonClass {c : Char} : c ∈ epsilonClass ↔ c = 'ε' := CharClass.mem_single

namespace Nfa

/-- The lines of the edges on one symbol, and those of the edges that read nothing. -/
def classLines (m : Nfa) : Nat × List Nat → List (Nat × CharClass)
  | (symbol, targets) => targets.map fun t => (t, m.alphabet.label symbol)

def epsilonLines (s : State) : List (Nat × CharClass) :=
  s.epsilon.map fun t => (t, Dump.epsilonClass)

/-- What the dump shows of a state. -/
def paragraph (m : Nfa) : Nat × State → Dump.Paragraph
  | (id, s) => ⟨id, s.isStart, s.isAccept,
      s.edges.entries.flatMap m.classLines ++ epsilonLines s⟩

def paragraphs (m : Nfa) : List Dump.Paragraph := m.states.map m.paragraph

variable {m : Nfa} {u : Nat} {s : State}

/-! ## The dump consists of the paragraphs -/

theorem symbolLines_eq (hm : m.Valid) (hs : m.state? u = some s) {e : Nat × List Nat}
    (he : e ∈ s.edges.entries) :
    m.symbolLines e = .ok ((m.classLines e).flatMap Dump.edgeText) := by
  obtain ⟨symbol, targets⟩ := e
  have hlt : symbol < m.alphabet.size := (hm.states u s hs).symbol_lt _ he
  have hinhabited := hm.partition.inhabited _ (Alphabet.label_mem hlt)
  rw [symbolLines, Alphabet.block_eq_label hlt, Logged.ok_bind, CharClass.label_eq_text hinhabited,
    classLines, List.flatMap_map]
  rfl

theorem stateLines_eq (hm : m.Valid) (hs : m.state? u = some s) :
    m.stateLines (u, s) = .ok (m.paragraph (u, s)).text := by
  have hlines : ∀ e ∈ s.edges.entries,
      m.symbolLines e = .ok ((m.classLines e).flatMap Dump.edgeText) := fun e he =>
    symbolLines_eq hm hs he
  have hepsilon : (epsilonLines s).flatMap Dump.edgeText =
      s.epsilon.flatMap (Dump.edge · Dump.epsilonLabel) := by
    rw [epsilonLines, List.flatMap_map, ← Dump.text_epsilonClass]
    rfl
  rw [stateLines, Outcome.mapM_eq_map hlines, Logged.ok_bind, Dump.Paragraph.text, paragraph,
    List.flatMap_append, List.flatMap_assoc, hepsilon, ← List.flatMap_def]
  simp only [Logged.pure_eq_ok, List.append_assoc]

theorem dump_eq (hm : m.Valid) :
    m.dump = .ok (m.paragraphs.flatMap Dump.Paragraph.text) := by
  have hstate : ∀ e ∈ m.states, m.stateLines e = .ok (m.paragraph e).text := fun e he =>
    stateLines_eq hm (mem_states.1 he)
  rw [dump, Outcome.mapM_eq_map hstate, Logged.ok_bind, paragraphs, List.flatMap_map,
    List.flatMap_def]
  rfl

theorem mem_edges_paragraph {t : Nat} {k : CharClass} : (t, k) ∈ (m.paragraph (u, s)).edges ↔
    (∃ symbol targets, (symbol, targets) ∈ s.edges.entries ∧ t ∈ targets ∧
      k = m.alphabet.label symbol) ∨ (t ∈ s.epsilon ∧ k = Dump.epsilonClass) := by
  simp only [paragraph, List.mem_append, List.mem_flatMap, classLines, epsilonLines, List.mem_map,
    Prod.mk.injEq]
  constructor
  · rintro (⟨⟨symbol, targets⟩, hentry, _, ht, rfl, rfl⟩ | ⟨_, ht, rfl, rfl⟩)
    · exact .inl ⟨symbol, targets, hentry, ht, rfl⟩
    · exact .inr ⟨ht, rfl⟩
  · rintro (⟨symbol, targets, hentry, ht, rfl⟩ | ⟨ht, rfl⟩)
    · exact .inl ⟨(symbol, targets), hentry, t, ht, rfl, rfl⟩
    · exact .inr ⟨t, ht, rfl, rfl⟩

theorem canonical_paragraphs (hm : m.Valid) (hblocks : ∀ b ∈ m.alphabet.blocks, b.Canonical) :
    ∀ p ∈ m.paragraphs, p.Canonical := by
  rintro p hp ⟨t, k⟩ he
  obtain ⟨⟨u, s⟩, hs, rfl⟩ := List.mem_map.1 hp
  rcases mem_edges_paragraph.1 he with ⟨symbol, targets, hentry, -, rfl⟩ | ⟨-, rfl⟩
  · have hlt := (hm.states u s (mem_states.1 hs)).symbol_lt _ hentry
    exact hblocks _ (Alphabet.label_mem hlt)
  · exact Dump.canonical_epsilonClass

/-! ## What the paragraphs tell -/

/-- The dump shows an edge from `u` to `t` on `k`. -/
def Shows (m : Nfa) (u t : Nat) (k : CharClass) : Prop :=
  ∃ s, m.state? u = some s ∧ (t, k) ∈ (m.paragraph (u, s)).edges

variable {m' : Nfa} {t : Nat} {k : CharClass}

/-- A line stands for an edge on the block, or for one that reads nothing. -/
theorem shows_iff (hm : m.Valid) : m.Shows u t k ↔
    (∃ c, m.graph.edge u (some c) t ∧ k = m.alphabet.label (m.alphabet.index c)) ∨
      (m.graph.edge u none t ∧ k = Dump.epsilonClass) := by
  constructor
  · rintro ⟨s, hs, hline⟩
    have hvalid := hm.states u s hs
    rcases mem_edges_paragraph.1 hline with ⟨symbol, targets, hentry, ht, hk⟩ | ⟨ht, hk⟩
    · obtain ⟨c, rfl⟩ := hm.partition.exists_index_eq (hvalid.symbol_lt _ hentry)
      have hedge := (edge_some_iff hs).2 (hvalid.mem_targetsOn.2 ⟨targets, hentry, ht⟩)
      exact .inl ⟨c, hedge, hk⟩
    · exact .inr ⟨(edge_none_iff hs).2 ht, hk⟩
  · rintro (⟨c, ⟨s, hs, ht⟩, hk⟩ | ⟨⟨s, hs, ht⟩, hk⟩)
    · obtain ⟨targets, hentry, ht⟩ := State.mem_targetsOn_of_mem ht
      exact ⟨s, hs, mem_edges_paragraph.2 (.inl ⟨_, targets, hentry, ht, hk⟩)⟩
    · exact ⟨s, hs, mem_edges_paragraph.2 (.inr ⟨ht, hk⟩)⟩

/-- What leads to `t` on a character is shown on a class with the character. -/
theorem exists_shows (hm : m.Valid) {c : Char} (h : m.graph.edge u (some c) t) :
    m.Shows u t (m.alphabet.label (m.alphabet.index c)) ∧
      c ∈ m.alphabet.label (m.alphabet.index c) :=
  ⟨(shows_iff hm).2 (.inl ⟨c, h, rfl⟩), hm.partition.mem_label.2 rfl⟩

theorem edge_of_shows (hm : m.Valid) {c : Char} (h : m.Shows u t k) (hc : c ∈ k) :
    m.graph.edge u (some c) t ∨ (m.graph.edge u none t ∧ k = Dump.epsilonClass) := by
  rcases (shows_iff hm).1 h with ⟨d, hedge, rfl⟩ | hnone
  · refine .inl ?_
    obtain ⟨s, hs, ht⟩ := hedge
    have hindex : m.alphabet.index c = m.alphabet.index d := hm.partition.mem_label.1 hc
    exact (edge_some_iff hs).2 (hindex ▸ ht)
  · exact .inr hnone

/-- A state is in its paragraph, by its number. -/
theorem exists_state_of_paragraphs_eq (h : m'.paragraphs = m.paragraphs)
    (hs : m.state? u = some s) :
    ∃ s', m'.state? u = some s' ∧ m'.paragraph (u, s') = m.paragraph (u, s) := by
  have hmem : m.paragraph (u, s) ∈ m'.paragraphs := h ▸ List.mem_map.2 ⟨_, mem_states.2 hs, rfl⟩
  obtain ⟨⟨u', s'⟩, hs', heq⟩ := List.mem_map.1 hmem
  obtain rfl : u' = u := congrArg Dump.Paragraph.id heq
  exact ⟨s', mem_states.1 hs', heq⟩

theorem Shows.of_paragraphs_eq (h : m'.paragraphs = m.paragraphs) (hshows : m.Shows u t k) :
    m'.Shows u t k := by
  obtain ⟨s, hs, hline⟩ := hshows
  obtain ⟨s', hs', heq⟩ := exists_state_of_paragraphs_eq h hs
  exact ⟨s', hs', heq ▸ hline⟩

end Nfa

end RegularLanguages
