import RegularLanguages.Proofs.Automaton.Blocks
import RegularLanguages.Proofs.Dfa.Recopy

/-!
# Machines with the same dump

The blocks of a machine that the operations build are inhabited and stored canonically, so the dump
can be read back. Machines with the same dump therefore have the same states in the same roles and
lead to the same states on each character, though their alphabets may differ.
-/

namespace RegularLanguages

namespace Dfa

/-- `d'` has the states of `d` in the same roles, and they lead to the same states. -/
structure Resembles (d d' : Dfa) : Prop where
  size : d'.size = d.size
  state : ∀ q s, d.state q = .ok s →
    ∃ s', d'.state q = .ok s' ∧ s'.isStart = s.isStart ∧ s'.isAccept = s.isAccept
  target : ∀ q x, q < d.size → ∃ a b o, d.alphabet.symbolOf x = .ok a ∧
    d'.alphabet.symbolOf x = .ok b ∧ d.targetOn? q a = .ok o ∧ d'.targetOn? q b = .ok o
  accepts : ∀ w, ∃ b, d.accepts? w = .ok b ∧ d'.accepts? w = .ok b

variable {d d' : Dfa}

theorem Proper.resembles (hd : d.Proper) (hd' : d'.Proper) (h : d'.chart = d.chart) :
    d.Resembles d' where
  size := congrArg Chart.size h
  state q s hs := by
    rw [state_eq_ok_iff] at hs
    have hq : q < d'.chart.size := by
      rw [h]
      exact (Array.getElem?_eq_some_iff.1 hs).1
    obtain ⟨s', hs'⟩ := exists_state hq
    exact ⟨s', state_eq_ok_iff.2 hs', flags_eq hs hs' h⟩
  target q x hq := by
    refine ⟨_, _, _, hd.partition.symbolOf_eq x, hd'.partition.symbolOf_eq x,
      targetOn?_spec hq x, ?_⟩
    rw [← h]
    exact targetOn?_spec (h ▸ hq) x
  accepts w := by
    refine Outcome.same_answer (hd.accepts?_spec w) (hd'.accepts?_spec w) ?_
    rw [h]

end Dfa

/-- Every machine has a dump, and a machine with the same dump resembles it. -/
theorem Automaton.Built.dump_determines {d d' : Dfa} (h : Automaton.Built (.dfa d))
    (h' : Automaton.Built (.dfa d')) :
    ∃ text, d.dump = .ok text ∧ (d'.dump = .ok text → d.Resembles d') := by
  have hd : d.Proper := h.sound
  have hd' : d'.Proper := h'.sound
  refine ⟨_, Dfa.dump_eq hd.toValid, fun hsame => hd.resembles hd' ?_⟩
  rw [Dfa.dump_eq hd'.toValid, Except.ok.injEq] at hsame
  exact Dfa.chart_eq_of_paragraphs_eq hd.toValid hd'.toValid <| Dump.paragraphs_inj
    (Dfa.canonical_paragraphs hd'.toValid h'.refined.canonical)
    (Dfa.canonical_paragraphs hd.toValid h.refined.canonical) hsame

namespace Dfa

/-- A blank, a line break and the end of an arrow. -/
def blanks : CharClass := .ofRanges [⟨'\n', '\n'⟩, ⟨' ', ' '⟩, ⟨'>', '>'⟩] false

/-- Two states that lead to each other, one on `blanks` and one on all digits but the first two. -/
def jagged : List Change :=
  [.addState, .add 0 1 blanks, .setAccept 1 true, .add 1 0 (.ofRanges [⟨'2', '9'⟩] false)]

/-- The edges in the other order, and one of them in place of another, so that the blocks have other
numbers. -/
def rejagged : List Change :=
  [.addState, .add 1 1 (.ofRanges [⟨'2', '9'⟩] false), .add 1 0 (.ofRanges [⟨'2', '9'⟩] false),
    .setAccept 1 true, .add 0 1 blanks]

theorem exists_resembles_jagged : ∃ d d', (initial.applyAll jagged).outcome = .ok d ∧
    (initial.applyAll rejagged).outcome = .ok d' ∧ Automaton.Built (.dfa d) ∧
      Automaton.Built (.dfa d') ∧ d.alphabet.symbolOf ' ' = .ok 0 ∧
      d'.alphabet.symbolOf ' ' = .ok 1 ∧ ∃ text, d.dump = .ok text ∧ d'.dump = .ok text ∧
        d.Resembles d' := by
  obtain ⟨d, hd⟩ : ∃ d, (initial.applyAll jagged).outcome = .ok d :=
    Outcome.exists_ok_of_isOk (by decide +kernel)
  obtain ⟨d', hd'⟩ : ∃ d', (initial.applyAll rejagged).outcome = .ok d' :=
    Outcome.exists_ok_of_isOk (by decide +kernel)
  have hblank : ((initial.applyAll jagged).outcome >>= (·.alphabet.symbolOf ' ')).toOption =
      some 0 := by decide +kernel
  have hblank' : ((initial.applyAll rejagged).outcome >>= (·.alphabet.symbolOf ' ')).toOption =
      some 1 := by decide +kernel
  have hsame : ((initial.applyAll jagged).outcome >>= dump).toOption =
      ((initial.applyAll rejagged).outcome >>= dump).toOption := by decide +kernel
  rw [hd, Logged.ok_bind] at hblank hsame
  rw [hd', Logged.ok_bind] at hblank' hsame
  have hbuilt : Automaton.Built (.dfa d) := built_of_applyAll .initial hd
  have hbuilt' : Automaton.Built (.dfa d') := built_of_applyAll .initial hd'
  obtain ⟨text, htext, hresembles⟩ := hbuilt.dump_determines hbuilt'
  have htext' : d'.dump = .ok text := by
    rw [htext] at hsame
    exact Outcome.eq_ok_of_toOption hsame.symm
  exact ⟨d, d', hd, hd', hbuilt, hbuilt', Outcome.eq_ok_of_toOption hblank,
    Outcome.eq_ok_of_toOption hblank', text, htext, htext', hresembles htext'⟩

end Dfa

end RegularLanguages
