import RegularLanguages.Proofs.Dfa.Change
import RegularLanguages.Proofs.Dfa.Copy
import RegularLanguages.Proofs.Dfa.OfNfa
import RegularLanguages.Proofs.Nfa.OfDfa
import RegularLanguages.Proofs.Nfa.OfPattern

/-!
# Machines that the operations build

A machine of either kind is `Built` if some sequence of operations gives it, conversions between the
two kinds included. The operations keep a nondeterministic machine valid, and a deterministic one
valid with its first state as the only start.
-/

namespace RegularLanguages

/-- A machine of either kind. -/
inductive Automaton where
  | nfa (m : Nfa)
  | dfa (d : Dfa)

/-- The machine is the result of operations that went through: changes of the machines at the
beginning, copies, complements and conversions of any of them. -/
inductive Automaton.Built : Automaton → Prop where
  | empty : Built (.nfa .empty)
  | initial : Built (.dfa .initial)
  | changeNfa {m m' : Nfa} {c : Nfa.Change} :
      Built (.nfa m) → (c.apply m).outcome = .ok m' → Built (.nfa m')
  | changeDfa {d d' : Dfa} {c : Dfa.Change} :
      Built (.dfa d) → (c.apply d).outcome = .ok d' → Built (.dfa d')
  | copy {d d' : Dfa} : Built (.dfa d) → d.copy.outcome = .ok d' → Built (.dfa d')
  | complement {d d' : Dfa} : Built (.dfa d) → d.complement.outcome = .ok d' → Built (.dfa d')
  | ofPattern {p : Pattern} {m : Nfa} : (Nfa.ofPattern p).outcome = .ok m → Built (.nfa m)
  | toNfa {d : Dfa} {m : Nfa} : Built (.dfa d) → d.toNfa.outcome = .ok m → Built (.nfa m)
  | toDfa {m : Nfa} {d : Dfa} : Built (.nfa m) → m.toDfa.outcome = .ok d → Built (.dfa d)

def Automaton.Sound : Automaton → Prop
  | .nfa m => m.Valid
  | .dfa d => d.Proper

theorem Automaton.Built.sound {a : Automaton} (h : a.Built) : a.Sound := by
  induction h with
  | empty => exact Nfa.valid_empty
  | initial => exact Dfa.proper_initial
  | changeNfa _ hc ih => exact (Nfa.apply_spec ih hc).1
  | changeDfa _ hc ih => exact ih.apply hc
  | copy _ hd ih => exact (Outcome.of_exists_ok ih.copy_spec hd).1
  | complement _ hd ih => exact (Outcome.of_exists_ok ih.complement_spec hd).1
  | ofPattern hm => exact (Outcome.of_exists_ok (Nfa.ofPattern_spec _) hm).1
  | toNfa _ hm ih => exact (Outcome.of_exists_ok ih.toNfa_spec hm).1
  | toDfa _ hd ih => exact (Outcome.of_exists_ok (Nfa.toDfa_spec ih) hd).1

theorem Nfa.built_of_applyAll {m m' : Nfa} (h : Automaton.Built (.nfa m)) {cs : List Nfa.Change}
    (hm : (m.applyAll cs).outcome = .ok m') : Automaton.Built (.nfa m') := by
  induction cs generalizing m with
  | nil =>
    cases hm
    exact h
  | cons c rest ih =>
    rw [outcome_applyAll_cons] at hm
    obtain ⟨m₁, hm₁, hrest⟩ := Logged.bind_eq_ok_iff.1 hm
    exact ih (.changeNfa h hm₁) hrest

theorem Dfa.built_of_applyAll {d d' : Dfa} (h : Automaton.Built (.dfa d)) {cs : List Dfa.Change}
    (hd : (d.applyAll cs).outcome = .ok d') : Automaton.Built (.dfa d') := by
  induction cs generalizing d with
  | nil =>
    cases hd
    exact h
  | cons c rest ih =>
    rw [applyAll, Outcome.outcome_foldlM_cons] at hd
    obtain ⟨d₁, hd₁, hrest⟩ := Logged.bind_eq_ok_iff.1 hd
    exact ih (.changeDfa h hd₁) hrest

end RegularLanguages
