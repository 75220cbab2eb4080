import RegularLanguages.Proofs.Graph.Fragment
import RegularLanguages.Proofs.Nfa.Addition
import RegularLanguages.Proofs.Nfa.Run
import RegularLanguages.Proofs.Pattern.Language

/-!
# The machine of a pattern accepts what the pattern matches

Building a pattern never faults and adds a fragment for the language of the pattern to the graph of
the machine, whatever machine it began with. Of the finished machine the fragment is all there is,
so that the walks from its entry to its exit are the accepted texts.
-/

open Computability

namespace RegularLanguages

namespace Nfa

variable {m : Nfa} {u v : Nat}

theorem Valid.lt_of_edge (h : m.Valid) (u : Nat) (a : Option Char) (v : Nat)
    (he : m.graph.edge u a v) : u < m.graph.next := lt_of_vertex (h.vertex_of_edge he).1

theorem addState_fst (m : Nfa) : m.addState.1 = m.graph.next := rfl

theorem vertex_addState (m : Nfa) : m.addState.2.graph.vertex m.graph.next := by
  rw [graph_addState]
  exact .inl rfl

theorem link_spec (h : m.Valid) (hu : m.graph.vertex u) (hv : m.graph.vertex v) :
    ∃ m', (m.add u .epsilon v).outcome = .ok m' ∧ m'.Valid ∧ m'.graph = m.graph.link u v ∧
      m'.graph.vertex = m.graph.vertex := by
  obtain ⟨m', hm', hvalid, hgraph⟩ := add_spec h hu hv .epsilon
  exact ⟨m', hm', hvalid, hgraph, by rw [hgraph]; rfl⟩

end Nfa

namespace Fragment

variable {m m₁ m₂ : Nfa} {f f₁ f₂ : Fragment} {L L₁ L₂ : Language Char}

theorem gap_eq (m : Nfa) :
    gap m = (⟨m.graph.next, m.graph.next + 1⟩, m.addState.2.addState.2) := by
  simp [gap, Nfa.addState, Nfa.graph]

theorem language_literal (k : CharClass) : (Pattern.literal k).language =
    {w | ∃ a, (Label.chars k).Reads a ∧ w = a.toList} := by
  ext w
  rw [Pattern.mem_language_literal]
  constructor
  · rintro ⟨c, hc, rfl⟩
    exact ⟨some c, ⟨c, hc, rfl⟩, rfl⟩
  · rintro ⟨_, ⟨c, hc, rfl⟩, rfl⟩
    exact ⟨c, hc, rfl⟩

theorem point_spec (hm : m.Valid) :
    (point m).2.Valid ∧ Graph.Built m.graph (point m).2.graph (point m).1 1 := by
  refine ⟨hm.addState, ?_⟩
  show Graph.Built m.graph m.addState.2.graph _ 1
  rw [Nfa.graph_addState]
  exact Graph.built_point hm.lt_of_edge

theorem gap_spec (hm : m.Valid) :
    (gap m).2.Valid ∧ Graph.Built m.graph (gap m).2.graph (gap m).1 0 := by
  rw [gap_eq, Nfa.graph_addState, Nfa.graph_addState]
  exact ⟨hm.addState.addState, Graph.built_gap hm.lt_of_edge⟩

theorem literal_spec (hm : m.Valid) (k : CharClass) :
    ∃ m', ((gap m).2.add (gap m).1.entry (.chars k) (gap m).1.exit).outcome = .ok m' ∧ m'.Valid ∧
      Graph.Built m.graph m'.graph (gap m).1 (Pattern.literal k).language := by
  obtain ⟨hv, hgap⟩ := gap_spec hm
  obtain ⟨m', hm', hv', hg'⟩ := Nfa.add_spec hv hgap.vertex_entry hgap.vertex_exit (.chars k)
  refine ⟨m', hm', hv', ?_⟩
  rw [language_literal, hg', gap_eq, Nfa.graph_addState, Nfa.graph_addState]
  exact Graph.built_edge hm.lt_of_edge (.chars k)

/-! ## One node around those below it -/

theorem build_star {p : Pattern} (hf : (build p m.addState.2).outcome = .ok (f, m₁))
    (hm₁ : m₁.Valid) (hb : Graph.Built m.addState.2.graph m₁.graph f L) :
    ∃ m', (build (.star p) m).outcome = .ok (⟨m.graph.next, m.graph.next⟩, m') ∧ m'.Valid ∧
      m'.graph = (m₁.graph.link m.graph.next f.entry).link f.exit m.graph.next := by
  have hhub : m₁.graph.vertex m.graph.next := (hb.vertex _).2 (.inl m.vertex_addState)
  obtain ⟨m₂, hm₂, hv₂, hg₂, hs₂⟩ := Nfa.link_spec hm₁ hhub hb.vertex_entry
  obtain ⟨m₃, hm₃, hv₃, hg₃, -⟩ := Nfa.link_spec hv₂ (hs₂ ▸ hb.vertex_exit) (hs₂ ▸ hhub)
  refine ⟨m₃, ?_, hv₃, by rw [hg₃, hg₂]⟩
  rw [build]
  simp [hf, Nfa.addState_fst, hm₂, hm₃]

theorem build_alternation {p q : Pattern} (hf₁ : (build p m.addState.2).outcome = .ok (f₁, m₁))
    (hf₂ : (build q m₁).outcome = .ok (f₂, m₂)) (hm₂ : m₂.Valid)
    (hb₁ : Graph.Built m.addState.2.graph m₁.graph f₁ L₁)
    (hb₂ : Graph.Built m₁.graph m₂.graph f₂ L₂) :
    ∃ m', (build (.alternation p q) m).outcome = .ok (⟨m.graph.next, m₂.graph.next⟩, m') ∧
      m'.Valid ∧ m'.graph = m₂.graph.fork m.graph.next f₁ f₂ := by
  have hvertex {u : Nat} (hu : m₂.graph.vertex u) : m₂.addState.2.graph.vertex u := by
    rw [Nfa.graph_addState]
    exact .inr hu
  have hvertex₁ {u : Nat} (hu : m₁.graph.vertex u) : m₂.addState.2.graph.vertex u :=
    hvertex ((hb₂.vertex u).2 (.inl hu))
  have hentry := hvertex₁ ((hb₁.vertex _).2 (.inl m.vertex_addState))
  have hexit := m₂.vertex_addState
  obtain ⟨m₃, hm₃, hv₃, hg₃, hs₃⟩ := Nfa.link_spec hm₂.addState hentry (hvertex₁ hb₁.vertex_entry)
  obtain ⟨m₄, hm₄, hv₄, hg₄, hs₄⟩ := Nfa.link_spec hv₃ (hs₃ ▸ hentry)
    (hs₃ ▸ hvertex hb₂.vertex_entry)
  rw [hs₃] at hs₄
  obtain ⟨m₅, hm₅, hv₅, hg₅, hs₅⟩ := Nfa.link_spec hv₄ (hs₄ ▸ hvertex₁ hb₁.vertex_exit)
    (hs₄ ▸ hexit)
  rw [hs₄] at hs₅
  obtain ⟨m₆, hm₆, hv₆, hg₆, -⟩ := Nfa.link_spec hv₅ (hs₅ ▸ hvertex hb₂.vertex_exit)
    (hs₅ ▸ hexit)
  refine ⟨m₆, ?_, hv₆, by rw [hg₆, hg₅, hg₄, hg₃, Nfa.graph_addState]; rfl⟩
  rw [build]
  simp [hf₁, hf₂, Nfa.addState_fst, hm₃, hm₄, hm₅, hm₆]

/-- The edge that puts a fragment after another one. -/
theorem append_spec {g : Graph} (hb : Graph.Built g m.graph f L) (hm₁ : m₁.Valid)
    (hb₁ : Graph.Built m.graph m₁.graph f₁ L₁) :
    ∃ m', (m₁.add f.exit .epsilon f₁.entry).outcome = .ok m' ∧ m'.Valid ∧
      m'.graph = m₁.graph.link f.exit f₁.entry ∧
      Graph.Built g m'.graph ⟨f.entry, f₁.exit⟩ (L * L₁) := by
  obtain ⟨m', hm', hv', hg', -⟩ := Nfa.link_spec hm₁
    ((hb₁.vertex _).2 (.inl hb.vertex_exit)) hb₁.vertex_entry
  exact ⟨m', hm', hv', hg', hg' ▸ hb.append hb₁⟩

/-! ## Patterns -/

mutual

theorem build_spec : (p : Pattern) → {m : Nfa} → m.Valid → ∃ f m',
    (build p m).outcome = .ok (f, m') ∧ m'.Valid ∧ Graph.Built m.graph m'.graph f p.language
  | .literal k, m, hm => by
    obtain ⟨m', hm', hspec⟩ := literal_spec hm k
    exact ⟨(gap m).1, m', by simp [build, hm'], hspec⟩
  | .concat [], m, hm => by
    rw [Pattern.language_concat]
    exact ⟨_, _, by rw [build]; rfl, point_spec hm⟩
  | .concat (p :: rest), m, hm => by
    obtain ⟨f, m₁, hf, hm₁, hb⟩ := build_spec p hm
    obtain ⟨f', m', hf', hm', hb'⟩ := buildAfter_spec rest hm₁ hb
    refine ⟨f', m', by simp [build, hf, hf'], hm', ?_⟩
    rw [Pattern.language_concat, List.map_cons, List.prod_cons]
    exact hb'
  | .alternation p q, m, hm => by
    obtain ⟨f₁, m₁, hf₁, hm₁, hb₁⟩ := build_spec p hm.addState
    obtain ⟨f₂, m₂, hf₂, hm₂, hb₂⟩ := build_spec q hm₁
    obtain ⟨m', hm', hv', hg'⟩ := build_alternation hf₁ hf₂ hm₂ hb₁ hb₂
    rw [Nfa.graph_addState] at hb₁
    refine ⟨_, m', hm', hv', ?_⟩
    rw [hg', Pattern.language_alternation]
    exact hb₁.fork hm.lt_of_edge hb₂
  | .star p, m, hm => by
    obtain ⟨f, m₁, hf, hm₁, hb⟩ := build_spec p hm.addState
    obtain ⟨m', hm', hv', hg'⟩ := build_star hf hm₁ hb
    rw [Nfa.graph_addState] at hb
    refine ⟨_, m', hm', hv', ?_⟩
    rw [hg', Pattern.language_star]
    exact hb.loop hm.lt_of_edge
  | .empty, m, hm => by
    rw [Pattern.language_empty]
    exact ⟨_, _, by rw [build]; rfl, point_spec hm⟩
  | .null, m, hm => by
    rw [Pattern.language_null]
    exact ⟨_, _, by rw [build]; rfl, gap_spec hm⟩

theorem buildAfter_spec : (ps : List Pattern) → {m : Nfa} → {g : Graph} → {f : Fragment} →
    {L : Language Char} → m.Valid → Graph.Built g m.graph f L → ∃ f' m',
    (buildAfter ps f m).outcome = .ok (f', m') ∧ m'.Valid ∧
      Graph.Built g m'.graph f' (L * (ps.map Pattern.language).prod)
  | [], m, g, f, L, hm, hb => by
    refine ⟨f, m, by rw [buildAfter]; rfl, hm, ?_⟩
    rw [List.map_nil, List.prod_nil, mul_one]
    exact hb
  | p :: rest, m, g, f, L, hm, hb => by
    obtain ⟨f₁, m₁, hf₁, hm₁, hb₁⟩ := build_spec p hm
    obtain ⟨m₂, hm₂, hv₂, -, hb₂⟩ := append_spec hb hm₁ hb₁
    obtain ⟨f', m', hf', hm', hb'⟩ := buildAfter_spec rest hv₂ hb₂
    refine ⟨f', m', by simp [buildAfter, hf₁, hm₂, hf'], hm', ?_⟩
    rw [List.map_cons, List.prod_cons, ← mul_assoc]
    exact hb'

end

theorem of_build {p : Pattern} (hm : m.Valid) (h : (build p m).outcome = .ok (f, m₁)) :
    m₁.Valid ∧ Graph.Built m.graph m₁.graph f p.language := by
  obtain ⟨f₀, m₀, h₀, hspec⟩ := build_spec p hm
  cases h₀.symm.trans h
  exact hspec

end Fragment

namespace Nfa

/-- The machine of a pattern is its fragment between a start and an accepting state. -/
theorem exists_ofPattern (p : Pattern) : ∃ f m m', (Fragment.build p .empty).outcome = .ok (f, m) ∧
    (ofPattern p).outcome = .ok m' ∧ m'.Valid ∧
      m'.graph = (m.graph.setStart f.entry true).setAccept f.exit true := by
  obtain ⟨f, m, hm, hvalid, hb⟩ := Fragment.build_spec p valid_empty
  obtain ⟨m₁, hm₁, hv₁, hg₁⟩ := setStart_spec hvalid hb.vertex_entry true
  have hexit : m₁.graph.vertex f.exit := by
    rw [hg₁]
    exact hb.vertex_exit
  obtain ⟨m₂, hm₂, hv₂, hg₂⟩ := setAccept_spec hv₁ hexit true
  exact ⟨f, m, m₂, hm, by simp [ofPattern, hm, hm₁, hm₂], hv₂, by rw [hg₂, hg₁]⟩

theorem ofPattern_spec (p : Pattern) :
    ∃ m, (ofPattern p).outcome = .ok m ∧ m.Valid ∧ m.graph.language = p.language := by
  obtain ⟨f, m, m', hf, hm', hvalid, hgraph⟩ := exists_ofPattern p
  obtain ⟨-, hb⟩ := Fragment.of_build valid_empty hf
  rw [graph_empty] at hb
  exact ⟨m', hm', hvalid, by rw [hgraph, hb.language]⟩

/-- The machine of a pattern accepts exactly the texts that the pattern matches. -/
theorem accepts?_ofPattern (p : Pattern) (w : List Char) :
    ∃ m b, (ofPattern p).outcome = .ok m ∧ m.accepts? w = .ok b ∧ (b = true ↔ w ∈ p.language) := by
  obtain ⟨m, hm, hvalid, hlanguage⟩ := ofPattern_spec p
  obtain ⟨b, hb, hiff⟩ := accepts?_spec hvalid w
  exact ⟨m, b, hm, hb, by rw [hiff, hlanguage]⟩

end Nfa

end RegularLanguages
