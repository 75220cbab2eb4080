import RegularLanguages.Proofs.Automaton.Blocks
import RegularLanguages.Proofs.Nfa.Dump

/-!
# Nondeterministic machines with the same dump

The dump can be read back, up to one thing: an edge on the lone character `ε` is shown in the same
way as an edge that reads nothing. Machines with the same dump have the same states in the same
roles and the same edges on all other characters; where neither has an edge on a block that is only
`ε`, all edges are the same. Without this there are machines with the same dump that accept
different texts.
-/

namespace RegularLanguages

/-- The language is that of the edges between starts and accepting vertices. -/
theorem Graph.language_eq_of_iff {g h : Graph} (hstart : ∀ u, g.start u ↔ h.start u)
    (haccept : ∀ u, g.accept u ↔ h.accept u) (hedge : ∀ u a v, g.edge u a v ↔ h.edge u a v) :
    g.language = h.language := by
  ext w
  rw [mem_language, mem_language]
  refine exists_congr fun u => exists_congr fun v => ?_
  rw [hstart, haccept]
  refine and_congr_right fun _ => and_congr_right fun _ => ?_
  exact ⟨.mono fun u a v => (hedge u a v).1, .mono fun u a v => (hedge u a v).2⟩

namespace Nfa

/-- An edge that reads nothing leads from `u` to `t`. -/
def Skips (m : Nfa) (u t : Nat) : Prop := ∃ s, m.state u = .ok s ∧ t ∈ s.epsilon

/-- An edge leads from `u` on `c` to `t`. -/
def Goes (m : Nfa) (u : Nat) (c : Char) (t : Nat) : Prop :=
  ∃ symbol targets, m.alphabet.symbolOf c = .ok symbol ∧ m.targetsOn u symbol = .ok targets ∧
    t ∈ targets

/-- The block of the character `ε`. -/
def blockOfEpsilon (m : Nfa) : Except Fault CharClass := do
  m.alphabet.block (← m.alphabet.symbolOf 'ε')

/-- An edge leads from `u` to `t` on a block that is the lone character `ε`. -/
def GoesAlone (m : Nfa) (u t : Nat) : Prop :=
  m.Goes u 'ε' t ∧ m.blockOfEpsilon = .ok (.single 'ε')

/-- `m'` has the states of `m` in the same roles and the same edges, as far as `ε` is no matter. -/
structure Resembles (m m' : Nfa) : Prop where
  live : ∀ u, (∃ s, m.state u = .ok s) ↔ ∃ s, m'.state u = .ok s
  state : ∀ u s s', m.state u = .ok s → m'.state u = .ok s' →
    s'.isStart = s.isStart ∧ s'.isAccept = s.isAccept
  goes : ∀ u c t, c ≠ 'ε' → (m.Goes u c t ↔ m'.Goes u c t)
  /-- Of `ε` and nothing the dump shows that it is one of them. -/
  either : ∀ u t, m.Skips u t ∨ m.Goes u 'ε' t ↔ m'.Skips u t ∨ m'.Goes u 'ε' t
  clear : ∀ u t, ¬m.GoesAlone u t → ¬m'.GoesAlone u t →
    (m.Skips u t ↔ m'.Skips u t) ∧ (m.Goes u 'ε' t ↔ m'.Goes u 'ε' t)
  accepts : (∀ u t, ¬m.GoesAlone u t) → (∀ u t, ¬m'.GoesAlone u t) →
    ∀ w, ∃ b, m.accepts? w = .ok b ∧ m'.accepts? w = .ok b

variable {m m' : Nfa} {u t : Nat} {c : Char}

theorem skips_iff : m.Skips u t ↔ m.graph.edge u none t :=
  exists_congr fun _ => and_congr_left fun _ => state_eq_ok_iff

theorem goes_iff (hm : m.Valid) : m.Goes u c t ↔ m.graph.edge u (some c) t := by
  constructor
  · rintro ⟨symbol, targets, hsymbol, htargets, ht⟩
    cases (hm.partition.symbolOf_eq c).symm.trans hsymbol
    obtain ⟨s, hs, heq⟩ := Logged.bind_eq_ok_iff.1 htargets
    cases heq
    exact ⟨s, state_eq_ok_iff.1 hs, ht⟩
  · rintro ⟨s, hs, ht⟩
    refine ⟨_, _, hm.partition.symbolOf_eq c, ?_, ht⟩
    rw [targetsOn, state_eq_ok_iff.2 hs]
    rfl

theorem goesAlone_iff (hm : m.Valid) : m.GoesAlone u t ↔
    m.graph.edge u (some 'ε') t ∧ m.alphabet.label (m.alphabet.index 'ε') = Dump.epsilonClass := by
  refine and_congr (goes_iff hm) ?_
  rw [blockOfEpsilon, hm.partition.symbolOf_eq, Logged.ok_bind,
    Alphabet.block_eq_label (hm.partition.index_lt 'ε'), Except.ok.injEq]
  rfl

/-! ## What one dump tells of the other machine -/

section Transfer

variable (hm : m.Valid) (hm' : m'.Valid) (h : m'.paragraphs = m.paragraphs)
include hm hm' h

theorem goes_of_paragraphs_eq (hedge : m.graph.edge u (some c) t) :
    m'.graph.edge u (some c) t ∨
      (c = 'ε' ∧ m'.graph.edge u none t ∧
        m.alphabet.label (m.alphabet.index 'ε') = Dump.epsilonClass) := by
  obtain ⟨hshows, hc⟩ := exists_shows hm hedge
  rcases edge_of_shows hm' (hshows.of_paragraphs_eq h) hc with hedge' | ⟨hnone, hlabel⟩
  · exact .inl hedge'
  · rw [hlabel, Dump.mem_epsilonClass] at hc
    exact .inr ⟨hc, hnone, hc ▸ hlabel⟩

theorem skips_of_paragraphs_eq (hedge : m.graph.edge u none t) :
    m'.graph.edge u none t ∨
      (m'.graph.edge u (some 'ε') t ∧
        m'.alphabet.label (m'.alphabet.index 'ε') = Dump.epsilonClass) := by
  have hshows : m.Shows u t Dump.epsilonClass := (shows_iff hm).2 (.inr ⟨hedge, rfl⟩)
  rcases (shows_iff hm').1 (hshows.of_paragraphs_eq h) with ⟨c, hedge', hlabel⟩ | ⟨hnone, -⟩
  · -- the class of the line is the block of `ε`, so this is an edge on `ε`
    have hmem : 'ε' ∈ m'.alphabet.label (m'.alphabet.index c) := by
      rw [← hlabel, Dump.mem_epsilonClass]
    have hindex := hm'.partition.mem_label.1 hmem
    obtain ⟨s, hs, ht⟩ := hedge'
    rw [hindex]
    exact .inr ⟨(edge_some_iff hs).2 (hindex.symm ▸ ht), hlabel.symm⟩
  · exact .inl hnone

theorem either_of_paragraphs_eq
    (hedge : m.graph.edge u none t ∨ m.graph.edge u (some 'ε') t) :
    m'.graph.edge u none t ∨ m'.graph.edge u (some 'ε') t := by
  rcases hedge with hnone | hsome
  · exact (skips_of_paragraphs_eq hm hm' h hnone).imp_right And.left
  · rcases goes_of_paragraphs_eq hm hm' h hsome with hedge' | ⟨-, hnone, -⟩
    · exact .inr hedge'
    · exact .inl hnone

theorem clear_of_paragraphs_eq (hclear : ¬m.GoesAlone u t) (hclear' : ¬m'.GoesAlone u t) :
    (m.graph.edge u none t → m'.graph.edge u none t) ∧
      (m.graph.edge u (some 'ε') t → m'.graph.edge u (some 'ε') t) := by
  rw [goesAlone_iff hm] at hclear
  rw [goesAlone_iff hm'] at hclear'
  constructor
  · intro hedge
    exact (skips_of_paragraphs_eq hm hm' h hedge).resolve_right hclear'
  · intro hedge
    refine (goes_of_paragraphs_eq hm hm' h hedge).resolve_right ?_
    rintro ⟨-, -, hlabel⟩
    exact hclear ⟨hedge, hlabel⟩

end Transfer

/-- A property of states that their paragraphs show. -/
theorem has_of_paragraphs_eq (h : m'.paragraphs = m.paragraphs) {P : State → Prop}
    (hP : ∀ s s', m'.paragraph (u, s') = m.paragraph (u, s) → P s → P s') (hhas : m.Has u P) :
    m'.Has u P := by
  obtain ⟨s, hs, hPs⟩ := hhas
  obtain ⟨s', hs', heq⟩ := exists_state_of_paragraphs_eq h hs
  exact ⟨s', hs', hP s s' heq hPs⟩

theorem has_iff_of_paragraphs_eq (h : m'.paragraphs = m.paragraphs) {P : State → Prop}
    (hP : ∀ s s', m'.paragraph (u, s') = m.paragraph (u, s) → (P s ↔ P s')) :
    m.Has u P ↔ m'.Has u P :=
  ⟨has_of_paragraphs_eq h fun s s' heq => (hP s s' heq).1,
    has_of_paragraphs_eq h.symm fun s' s heq => (hP s s' heq.symm).2⟩

/-! ## Both machines -/

section Both

variable (hm : m.Valid) (hm' : m'.Valid) (h : m'.paragraphs = m.paragraphs)
include hm hm' h

theorem clear_iff_of_paragraphs_eq (hclear : ¬m.GoesAlone u t) (hclear' : ¬m'.GoesAlone u t) :
    (m.graph.edge u none t ↔ m'.graph.edge u none t) ∧
      (m.graph.edge u (some 'ε') t ↔ m'.graph.edge u (some 'ε') t) := by
  obtain ⟨hskips, hgoes⟩ := clear_of_paragraphs_eq hm hm' h hclear hclear'
  obtain ⟨hskips', hgoes'⟩ := clear_of_paragraphs_eq hm' hm h.symm hclear' hclear
  exact ⟨⟨hskips, hskips'⟩, ⟨hgoes, hgoes'⟩⟩

theorem goes_iff_of_paragraphs_eq (hc : c ≠ 'ε') :
    m.graph.edge u (some c) t ↔ m'.graph.edge u (some c) t := by
  constructor
  · intro hedge
    exact (goes_of_paragraphs_eq hm hm' h hedge).resolve_right fun halone => hc halone.1
  · intro hedge
    exact (goes_of_paragraphs_eq hm' hm h.symm hedge).resolve_right fun halone => hc halone.1

/-- Where no edge is on `ε` alone, the graphs have the same edges. -/
theorem language_eq_of_paragraphs_eq (hclear : ∀ u t, ¬m.GoesAlone u t)
    (hclear' : ∀ u t, ¬m'.GoesAlone u t) : m.graph.language = m'.graph.language := by
  refine Graph.language_eq_of_iff (fun u => ?_) (fun u => ?_) fun u a t => ?_
  · refine has_iff_of_paragraphs_eq h fun s s' heq => ?_
    have hstart : s'.isStart = s.isStart := congrArg Dump.Paragraph.isStart heq
    rw [hstart]
  · refine has_iff_of_paragraphs_eq h fun s s' heq => ?_
    have haccept : s'.isAccept = s.isAccept := congrArg Dump.Paragraph.isAccept heq
    rw [haccept]
  · obtain ⟨hskips, hgoes⟩ := clear_iff_of_paragraphs_eq hm hm' h (hclear u t) (hclear' u t)
    cases a with
    | none => exact hskips
    | some c =>
      by_cases hc : c = 'ε'
      · exact hc ▸ hgoes
      · exact goes_iff_of_paragraphs_eq hm hm' h hc

theorem Valid.resembles : m.Resembles m' where
  live u := by
    simp only [state_eq_ok_iff]
    constructor
    · rintro ⟨s, hs⟩
      obtain ⟨s', hs', -⟩ := exists_state_of_paragraphs_eq h hs
      exact ⟨s', hs'⟩
    · rintro ⟨s', hs'⟩
      obtain ⟨s, hs, -⟩ := exists_state_of_paragraphs_eq h.symm hs'
      exact ⟨s, hs⟩
  state u s s' hs hs' := by
    rw [state_eq_ok_iff] at hs hs'
    obtain ⟨s₁, hs₁, heq⟩ := exists_state_of_paragraphs_eq h hs
    cases hs'.symm.trans hs₁
    exact ⟨congrArg Dump.Paragraph.isStart heq, congrArg Dump.Paragraph.isAccept heq⟩
  goes u c t hc := by
    rw [goes_iff hm, goes_iff hm']
    exact goes_iff_of_paragraphs_eq hm hm' h hc
  either u t := by
    rw [skips_iff, skips_iff, goes_iff hm, goes_iff hm']
    exact ⟨either_of_paragraphs_eq hm hm' h, either_of_paragraphs_eq hm' hm h.symm⟩
  clear u t hclear hclear' := by
    rw [skips_iff, skips_iff, goes_iff hm, goes_iff hm']
    exact clear_iff_of_paragraphs_eq hm hm' h hclear hclear'
  accepts hclear hclear' w := by
    refine Outcome.same_answer (accepts?_spec hm w) (accepts?_spec hm' w) ?_
    rw [language_eq_of_paragraphs_eq hm hm' h hclear hclear']

end Both

end Nfa

/-- Every machine has a dump, and a machine with the same dump resembles it. -/
theorem Automaton.Built.dump_determines_upToEpsilon {m m' : Nfa} (h : Automaton.Built (.nfa m))
    (h' : Automaton.Built (.nfa m')) :
    ∃ text, m.dump = .ok text ∧ (m'.dump = .ok text → m.Resembles m') := by
  have hm : m.Valid := h.sound
  have hm' : m'.Valid := h'.sound
  refine ⟨_, Nfa.dump_eq hm, fun hsame => hm.resembles hm' ?_⟩
  rw [Nfa.dump_eq hm', Except.ok.injEq] at hsame
  exact Dump.paragraphs_inj (Nfa.canonical_paragraphs hm' h'.refined.canonical)
    (Nfa.canonical_paragraphs hm h.refined.canonical) hsame

namespace Nfa

variable {m : Nfa}

/-! ## Examples -/

/-- Changes that lead to machines with the same dump. -/
theorem exists_same_dump (cs cs' : List Change) (hok : (empty.applyAll cs).outcome.isOk = true)
    (hok' : (empty.applyAll cs').outcome.isOk = true)
    (hsame : ((empty.applyAll cs).outcome >>= dump).toOption =
      ((empty.applyAll cs').outcome >>= dump).toOption) :
    ∃ m m' text, (empty.applyAll cs).outcome = .ok m ∧ (empty.applyAll cs').outcome = .ok m' ∧
      Automaton.Built (.nfa m) ∧ Automaton.Built (.nfa m') ∧ m.dump = .ok text ∧
        m'.dump = .ok text := by
  obtain ⟨m, hm⟩ := Outcome.exists_ok_of_isOk hok
  obtain ⟨m', hm'⟩ := Outcome.exists_ok_of_isOk hok'
  have hbuilt : Automaton.Built (.nfa m) := built_of_applyAll .empty hm
  have htext := dump_eq hbuilt.sound
  rw [hm, hm', Logged.ok_bind, Logged.ok_bind, htext] at hsame
  exact ⟨m, m', _, hm, hm', hbuilt, built_of_applyAll .empty hm', htext,
    Outcome.eq_ok_of_toOption hsame.symm⟩

/-- An edge on a block with other characters than `ε` is told from one that reads nothing. -/
theorem not_goesAlone (h : m.blockOfEpsilon.toOption.any (·.contains 'a') = true) (u t : Nat) :
    ¬m.GoesAlone u t := by
  rintro ⟨-, hblock⟩
  rw [hblock] at h
  exact absurd h (by decide)

/-- An edge on a blank and a line break, one that reads nothing, and one back. -/
def ruled : List Change :=
  [.addState, .addState, .setStart 0 true, .setAccept 1 true,
    .add 0 (.chars (.ofRanges [⟨'\n', '\n'⟩, ⟨' ', ' '⟩] false)) 1, .add 0 .epsilon 1,
    .add 1 (.chars (.single 'x')) 0]

/-- The same edges in another order, and a state that is deleted at the end. -/
def reruled : List Change :=
  [.addState, .addState, .addState, .add 1 (.chars (.single 'x')) 0, .add 0 .epsilon 1,
    .add 2 .epsilon 0, .add 0 (.chars (.ofRanges [⟨'\n', '\n'⟩, ⟨' ', ' '⟩] false)) 1,
    .setStart 0 true, .setAccept 1 true, .delete 2]

theorem exists_resembles_ruled : ∃ m m' text, (empty.applyAll ruled).outcome = .ok m ∧
    (empty.applyAll reruled).outcome = .ok m' ∧ Automaton.Built (.nfa m) ∧
      Automaton.Built (.nfa m') ∧ m.dump = .ok text ∧ m'.dump = .ok text ∧ m.Resembles m' ∧
        ∀ w, ∃ b, m.accepts? w = .ok b ∧ m'.accepts? w = .ok b := by
  obtain ⟨m, m', text, hm, hm', hbuilt, hbuilt', htext, htext'⟩ :=
    exists_same_dump ruled reruled (by decide +kernel) (by decide +kernel)
      (by decide +kernel)
  obtain ⟨text', htext₁, hresembles⟩ := hbuilt.dump_determines_upToEpsilon hbuilt'
  cases htext.symm.trans htext₁
  have hblock : ((empty.applyAll ruled).outcome >>= blockOfEpsilon).toOption.any
      (·.contains 'a') = true := by decide +kernel
  have hblock' : ((empty.applyAll reruled).outcome >>= blockOfEpsilon).toOption.any
      (·.contains 'a') = true := by decide +kernel
  rw [hm, Logged.ok_bind] at hblock
  rw [hm', Logged.ok_bind] at hblock'
  have hsame := hresembles htext'
  exact ⟨m, m', text, hm, hm', hbuilt, hbuilt', htext, htext', hsame,
    hsame.accepts (not_goesAlone hblock) (not_goesAlone hblock')⟩

/-- An edge that reads nothing, from the start to an accepting state. -/
def skipping : List Change :=
  [.addState, .addState, .setStart 0 true, .setAccept 1 true, .add 0 .epsilon 1]

/-- The same with an edge that reads the character `ε`. -/
def reading : List Change :=
  [.addState, .addState, .setStart 0 true, .setAccept 1 true, .add 0 (.chars (.single 'ε')) 1]

/-- The dump does not tell an edge on `ε` alone from one that reads nothing. -/
theorem exists_same_dump_skipping : ∃ m m' text, (empty.applyAll skipping).outcome = .ok m ∧
    (empty.applyAll reading).outcome = .ok m' ∧ Automaton.Built (.nfa m) ∧
      Automaton.Built (.nfa m') ∧ m.dump = .ok text ∧ m'.dump = .ok text ∧
        m.accepts? [] = .ok true ∧ m'.accepts? [] = .ok false := by
  obtain ⟨m, m', text, hm, hm', hbuilt, hbuilt', htext, htext'⟩ :=
    exists_same_dump skipping reading (by decide +kernel) (by decide +kernel)
      (by decide +kernel)
  have haccepts : ((empty.applyAll skipping).outcome >>= (·.accepts? [])).toOption = some true := by
    decide +kernel
  have hrejects : ((empty.applyAll reading).outcome >>= (·.accepts? [])).toOption = some false := by
    decide +kernel
  rw [hm, Logged.ok_bind] at haccepts
  rw [hm', Logged.ok_bind] at hrejects
  exact ⟨m, m', text, hm, hm', hbuilt, hbuilt', htext, htext',
    Outcome.eq_ok_of_toOption haccepts, Outcome.eq_ok_of_toOption hrejects⟩

end Nfa

end RegularLanguages
