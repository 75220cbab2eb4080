import RegularLanguages.Proofs.Dfa.Thrift

/-!
# Alphabets of built machines

Whatever operations build a machine, its alphabet is the trivial one refined for some classes: no
operation joins blocks or makes them in another way. So every block is a result of the sweep, and
stored canonically, even if the classes that the operations were given were not.
-/

namespace RegularLanguages

namespace Alphabet

/-- The trivial alphabet, refined for some classes. -/
def Refined (a : Alphabet) : Prop := ∃ ks, a = trivial.refineAll ks

variable {a : Alphabet} {b k : CharClass}

theorem refined_trivial : trivial.Refined := ⟨[], rfl⟩

theorem Refined.refine (h : a.Refined) (k : CharClass) : (a.refine k).1.Refined := by
  obtain ⟨ks, rfl⟩ := h
  exact ⟨ks ++ [k], (refineAll_append trivial ks [k]).symm⟩

theorem canonical_of_mem_divide (hb : b.Canonical) {piece : CharClass}
    (hpiece : piece ∈ divide k b) : piece.Canonical := by
  rcases divide_cases k b with ⟨hdivide, -⟩ | ⟨hdivide, -⟩
  · rw [hdivide, List.mem_singleton] at hpiece
    exact hpiece ▸ hb
  · rw [hdivide, List.mem_pair] at hpiece
    rcases hpiece with rfl | rfl
    · exact CharClass.canonical_combine ..
    · exact CharClass.canonical_combine ..

theorem canonical_refineAll {ks : List CharClass} (ha : ∀ b ∈ a.blocks, b.Canonical) :
    ∀ b ∈ (a.refineAll ks).blocks, b.Canonical := by
  induction ks generalizing a with
  | nil => exact ha
  | cons k rest ih =>
    refine ih fun piece hpiece => ?_
    rw [blocks_refine] at hpiece
    obtain ⟨b, hb, hmem⟩ := List.mem_flatMap.1 hpiece
    exact canonical_of_mem_divide (ha b hb) hmem

theorem Refined.canonical (h : a.Refined) : ∀ b ∈ a.blocks, b.Canonical := by
  obtain ⟨ks, rfl⟩ := h
  refine canonical_refineAll fun b hb => ?_
  rw [List.mem_singleton.1 hb]
  exact CharClass.canonical_universal

end Alphabet

/-! ## Nondeterministic machines -/

namespace Nfa

variable {m m' : Nfa}

theorem refined_add (h : m.alphabet.Refined) {source target : Nat} {label : Label}
    (hm : (m.add source label target).outcome = .ok m') : m'.alphabet.Refined := by
  simp only [add, Logged.outcome_bind, Logged.outcome_liftM] at hm
  obtain ⟨_, -, hm⟩ := Logged.bind_eq_ok_iff.1 hm
  obtain ⟨_, -, hm⟩ := Logged.bind_eq_ok_iff.1 hm
  cases label with
  | epsilon =>
    cases hm
    exact h
  | chars k =>
    by_cases hk : k.isEmpty = true
    · simp only [hk, if_true] at hm
      cases hm
      exact h
    · simp only [hk, if_false, Logged.outcome_bind, outcome_express, Bool.false_eq_true] at hm
      cases hm
      simp only [alphabet_modify]
      split
      · exact h
      · exact h.refine k

theorem refined_apply (h : m.alphabet.Refined) {c : Change} (hm : (c.apply m).outcome = .ok m') :
    m'.alphabet.Refined := by
  cases c with
  | addState =>
    cases hm
    exact h
  | add source label target => exact refined_add h hm
  | setStart id value =>
    obtain ⟨_, -, heq⟩ := Logged.bind_eq_ok_iff.1 hm
    cases heq
    exact h
  | setAccept id value =>
    obtain ⟨_, -, heq⟩ := Logged.bind_eq_ok_iff.1 hm
    cases heq
    exact h
  | delete id =>
    cases hm
    unfold delete
    split
    · exact h
    · simp only [alphabet_foldl_modify]
      exact h

end Nfa

/-! ## Machines of patterns -/

namespace Fragment

variable {f f' : Fragment} {m m' : Nfa} {P : Nfa → Prop}

mutual

/-- What changes keep, building a fragment keeps. -/
theorem keeps_build
    (hP : ∀ (m m' : Nfa) (c : Nfa.Change), P m → (c.apply m).outcome = .ok m' → P m') :
    (p : Pattern) → {f : Fragment} → {m m' : Nfa} → P m →
      (build p m).outcome = .ok (f, m') → P m'
  | .literal k, f, m, m', hm, h => by
    simp only [build, gap, Logged.outcome_bind] at h
    obtain ⟨m₁, hm₁, heq⟩ := Logged.bind_eq_ok_iff.1 h
    cases heq
    exact hP _ _ (.add _ _ _) (hP _ _ .addState (hP _ _ .addState hm rfl) rfl) hm₁
  | .concat [], f, m, m', hm, h => by
    cases h
    exact hP _ _ .addState hm rfl
  | .concat (p :: rest), f, m, m', hm, h => by
    simp only [build, Logged.outcome_bind] at h
    obtain ⟨⟨f₁, m₁⟩, hm₁, hrest⟩ := Logged.bind_eq_ok_iff.1 h
    exact keeps_buildAfter hP rest (keeps_build hP p hm hm₁) hrest
  | .alternation p q, f, m, m', hm, h => by
    simp only [build, Logged.outcome_bind] at h
    obtain ⟨⟨f₁, m₁⟩, hm₁, h⟩ := Logged.bind_eq_ok_iff.1 h
    obtain ⟨⟨f₂, m₂⟩, hm₂, h⟩ := Logged.bind_eq_ok_iff.1 h
    obtain ⟨m₃, hm₃, h⟩ := Logged.bind_eq_ok_iff.1 h
    obtain ⟨m₄, hm₄, h⟩ := Logged.bind_eq_ok_iff.1 h
    obtain ⟨m₅, hm₅, h⟩ := Logged.bind_eq_ok_iff.1 h
    obtain ⟨m₆, hm₆, heq⟩ := Logged.bind_eq_ok_iff.1 h
    cases heq
    have h₁ := keeps_build hP p (hP _ _ .addState hm rfl) hm₁
    have h₂ := hP _ _ .addState (keeps_build hP q h₁ hm₂) rfl
    have h₄ := hP _ _ (.add _ _ _) (hP _ _ (.add _ _ _) h₂ hm₃) hm₄
    exact hP _ _ (.add _ _ _) (hP _ _ (.add _ _ _) h₄ hm₅) hm₆
  | .star p, f, m, m', hm, h => by
    simp only [build, Logged.outcome_bind] at h
    obtain ⟨⟨f₁, m₁⟩, hm₁, h⟩ := Logged.bind_eq_ok_iff.1 h
    obtain ⟨m₂, hm₂, h⟩ := Logged.bind_eq_ok_iff.1 h
    obtain ⟨m₃, hm₃, heq⟩ := Logged.bind_eq_ok_iff.1 h
    cases heq
    have h₁ := keeps_build hP p (hP _ _ .addState hm rfl) hm₁
    exact hP _ _ (.add _ _ _) (hP _ _ (.add _ _ _) h₁ hm₂) hm₃
  | .empty, f, m, m', hm, h => by
    cases h
    exact hP _ _ .addState hm rfl
  | .null, f, m, m', hm, h => by
    cases h
    exact hP _ _ .addState (hP _ _ .addState hm rfl) rfl

theorem keeps_buildAfter
    (hP : ∀ (m m' : Nfa) (c : Nfa.Change), P m → (c.apply m).outcome = .ok m' → P m') :
    (ps : List Pattern) → {f f' : Fragment} → {m m' : Nfa} → P m →
      (buildAfter ps f m).outcome = .ok (f', m') → P m'
  | [], f, f', m, m', hm, h => by
    cases h
    exact hm
  | p :: rest, f, f', m, m', hm, h => by
    simp only [buildAfter, Logged.outcome_bind] at h
    obtain ⟨⟨f₁, m₁⟩, hm₁, h⟩ := Logged.bind_eq_ok_iff.1 h
    obtain ⟨m₂, hm₂, hrest⟩ := Logged.bind_eq_ok_iff.1 h
    have h₁ := hP _ _ (.add _ _ _) (keeps_build hP p hm hm₁) hm₂
    exact keeps_buildAfter hP rest h₁ hrest

end

end Fragment

namespace Nfa

variable {m : Nfa}

theorem refined_ofPattern {p : Pattern} (hm : (ofPattern p).outcome = .ok m) :
    m.alphabet.Refined := by
  have hP : ∀ (m m' : Nfa) (c : Change), m.alphabet.Refined → (c.apply m).outcome = .ok m' →
      m'.alphabet.Refined := fun _ _ _ h hc => refined_apply h hc
  simp only [ofPattern, Logged.outcome_bind, Logged.outcome_liftM] at hm
  obtain ⟨⟨f, m₁⟩, hm₁, hm⟩ := Logged.bind_eq_ok_iff.1 hm
  obtain ⟨m₂, hm₂, hm⟩ := Logged.bind_eq_ok_iff.1 hm
  obtain ⟨m₃, hm₃, heq⟩ := Logged.bind_eq_ok_iff.1 hm
  cases heq
  have h₁ : m₁.alphabet.Refined := Fragment.keeps_build hP p Alphabet.refined_trivial hm₁
  exact hP _ _ (.setAccept _ true) (hP _ _ (.setStart _ true) h₁ hm₂) hm₃

end Nfa

namespace Dfa

variable {d d' : Dfa} {m : Nfa}

/-! ## Deterministic machines -/

theorem refined_embedState {e : Nat × State} {m' : Nfa} (h : m.alphabet.Refined)
    (hm : (d.embedState m e).outcome = .ok m') : m'.alphabet.Refined := by
  obtain ⟨id, s⟩ := e
  simp only [embedState, Logged.outcome_bind, Logged.outcome_liftM] at hm
  obtain ⟨m₁, hm₁, hm⟩ := Logged.bind_eq_ok_iff.1 hm
  obtain ⟨m₂, hm₂, hm⟩ := Logged.bind_eq_ok_iff.1 hm
  have h₁ := Nfa.refined_apply (c := .setStart id s.isStart) h hm₁
  have h₂ := Nfa.refined_apply (c := .setAccept id s.isAccept) h₁ hm₂
  refine Outcome.foldlM_invariant (P := fun m : Nfa => m.alphabet.Refined)
    (fun m e m' hm hedge => ?_) h₂ hm
  simp only [Logged.outcome_bind, Logged.outcome_liftM] at hedge
  obtain ⟨k, -, hadd⟩ := Logged.bind_eq_ok_iff.1 hedge
  exact Nfa.refined_add hm hadd

theorem refined_toNfa (hm : d.toNfa.outcome = .ok m) : m.alphabet.Refined := by
  simp only [toNfa, Logged.outcome_bind] at hm
  obtain ⟨m₁, hm₁, heq⟩ := Logged.bind_eq_ok_iff.1 hm
  cases heq
  exact Outcome.foldlM_invariant (P := fun m : Nfa => m.alphabet.Refined)
    (fun _ _ _ h hstate => refined_embedState h hstate) Alphabet.refined_trivial hm₁

theorem refined_apply (hd : d.Valid) (h : d.alphabet.Refined) {c : Change}
    (hc : (c.apply d).outcome = .ok d') : d'.alphabet.Refined := by
  cases c with
  | addState =>
    cases hc
    exact h
  | add source target k =>
    obtain ⟨-, halphabet, -⟩ := add_spec_of_eq_ok hd hc
    exact halphabet ▸ h.refine k
  | setAccept id value =>
    obtain ⟨_, -, heq⟩ := Logged.bind_eq_ok_iff.1 hc
    cases heq
    exact h
  | complete =>
    cases hc
    rw [complete_eq]
    split
    · exact h
    · exact h

theorem refined_copy (hd : d.Valid) (hd' : d.copy.outcome = .ok d') : d'.alphabet.Refined :=
  ⟨d.labels, (Outcome.of_exists_ok hd.copy_spec hd').2.1⟩

end Dfa

def Automaton.alphabet : Automaton → Alphabet
  | .nfa m => m.alphabet
  | .dfa d => d.alphabet

theorem Automaton.Built.refined {a : Automaton} (h : a.Built) : a.alphabet.Refined := by
  induction h with
  | empty => exact Alphabet.refined_trivial
  | initial => exact Alphabet.refined_trivial
  | changeNfa _ hc ih => exact Nfa.refined_apply ih hc
  | changeDfa hd hc ih => exact Dfa.refined_apply hd.sound.toValid ih hc
  | copy hd hd' _ => exact Dfa.refined_copy hd.sound.toValid hd'
  | complement hd hd' _ =>
    obtain ⟨c, hc, heq⟩ := Logged.bind_eq_ok_iff.1 (Logged.outcome_bind .. ▸ hd')
    cases heq
    have hvalid := (Outcome.of_exists_ok hd.sound.toValid.copy_spec hc).1
    have hcomplete : c.complete.alphabet.Refined :=
      Dfa.refined_apply (c := .complete) hvalid (Dfa.refined_copy hd.sound.toValid hc) rfl
    exact hcomplete
  | ofPattern hm => exact Nfa.refined_ofPattern hm
  | toNfa _ hm _ => exact Dfa.refined_toNfa hm
  | toDfa _ hd _ =>
    have hboth := Nfa.toDfa_invariant (P := fun d => d.Valid ∧ d.alphabet.Refined)
      ⟨Dfa.valid_initial, Alphabet.refined_trivial⟩
      (fun _ _ _ h hc => ⟨(Dfa.apply_spec h.1 hc).1, Dfa.refined_apply h.1 h.2 hc⟩) hd
    exact hboth.2

end RegularLanguages
