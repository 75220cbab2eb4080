import RegularLanguages.Proofs.Automaton.Built
import RegularLanguages.Proofs.Dfa.LastWriter
import RegularLanguages.Proofs.RegularLanguage.Forms

/-!
# Languages under calls

A `Call` asks one of the languages made so far for something; a copy and a complement come after all
the others. No call changes which texts a language contains, whatever forms it makes the language
derive, so that each place in the list stands for one language forever.
-/

namespace RegularLanguages.RegularLanguage

/-- A language as it is made first. -/
inductive Starting : RegularLanguage → Prop where
  | ofPattern (p : Pattern) : Starting (.ofPattern p)
  | ofNfa {m : Nfa} : Automaton.Built (.nfa m) → Starting (.ofNfa m)
  | ofDfa {d : Dfa} : Automaton.Built (.dfa d) → Starting (.ofDfa d)
  | parse {source : List Char} {l : RegularLanguage} : parse source = .ok l → Starting l

inductive Call.Kind where
  | nfa
  | dfa
  | pattern
  | accepts (w : List Char)
  | copy
  | complement

/-- A call on the language at the place `receiver`. -/
structure Call where
  receiver : Nat
  kind : Call.Kind

/-- What a call makes of its receiver, and the new language if it gives one. -/
def Call.Kind.answer (l : RegularLanguage) :
    Call.Kind → Logged (RegularLanguage × Option RegularLanguage)
  | .nfa => return ((← l.toNfa).2, none)
  | .dfa => return ((← l.toDfa).2, none)
  | .pattern => return ((← l.toPattern).2, none)
  | .accepts w => return ((← l.accepts? w).2, none)
  | .copy => return (l, some (← l.copy))
  | .complement => do
    let (c, l) ← l.complement
    return (l, some c)

/-- The languages after a call; there is nothing to do where there is no receiver. -/
def Call.apply (ls : List RegularLanguage) (c : Call) : Logged (List RegularLanguage) :=
  match ls[c.receiver]? with
  | none => return ls
  | some l => do
    let (l, new) ← c.kind.answer l
    return ls.set c.receiver l ++ new.toList

/-- The languages after the calls. -/
def applyAll (ls : List RegularLanguage) (cs : List Call) : Logged (List RegularLanguage) :=
  cs.foldlM Call.apply ls

/-- The language of the new language of a call whose receiver has the language `L`. -/
def Call.Kind.made? (L : Language Char) : Call.Kind → Option (Language Char)
  | .copy => some L
  | .complement => some Lᶜ
  | _ => none

/-- The languages after a call, of which those before it stay as they are. -/
def Call.extend (Ls : List (Language Char)) (c : Call) : List (Language Char) :=
  Ls ++ (Ls[c.receiver]?.bind fun L => c.kind.made? L).toList

/-! ## One call -/

variable {l : RegularLanguage} {L : Language Char} {ls : List RegularLanguage}
  {Ls : List (Language Char)}

theorem Holds.answer_spec (h : l.Holds L) (k : Call.Kind) :
    ∃ l' new, (k.answer l).outcome = .ok (l', new) ∧ l'.Holds L ∧
      List.Forall₂ Holds new.toList (k.made? L).toList := by
  cases k with
  | nfa =>
    obtain ⟨m, l', hl', -, -, h'⟩ := h.toNfa_spec
    exact ⟨l', none, by simp [Call.Kind.answer, hl'], h', .nil⟩
  | dfa =>
    obtain ⟨d, l', hl', -, -, h'⟩ := h.toDfa_spec
    exact ⟨l', none, by simp [Call.Kind.answer, hl'], h', .nil⟩
  | pattern =>
    obtain ⟨p, l', hl', -, h'⟩ := h.toPattern_spec
    exact ⟨l', none, by simp [Call.Kind.answer, hl'], h', .nil⟩
  | accepts w =>
    obtain ⟨b, l', hl', -, h'⟩ := h.accepts?_spec w
    exact ⟨l', none, by simp [Call.Kind.answer, hl'], h', .nil⟩
  | copy =>
    obtain ⟨c, hc, h'⟩ := h.copy_spec
    exact ⟨l, some c, by simp [Call.Kind.answer, hc], h, .cons h' .nil⟩
  | complement =>
    obtain ⟨c, l', hc, h', h⟩ := h.complement_spec
    exact ⟨l', some c, by simp [Call.Kind.answer, hc], h, .cons h' .nil⟩

/-- A call never faults, and every language keeps its place and its texts. -/
theorem apply_spec (h : List.Forall₂ Holds ls Ls) (c : Call) :
    ∃ ls', (c.apply ls).outcome = .ok ls' ∧ List.Forall₂ Holds ls' (c.extend Ls) := by
  cases hl : ls[c.receiver]? with
  | none =>
    have hL : Ls[c.receiver]? = none :=
      List.getElem?_eq_none (h.length_eq ▸ List.getElem?_eq_none_iff.1 hl)
    exact ⟨ls, by simp [Call.apply, hl], by simpa [Call.extend, hL] using h⟩
  | some l =>
    obtain ⟨L, hL, hlL⟩ := Outcome.exists_of_forall₂ h hl
    obtain ⟨l', new, hanswer, hl', hnew⟩ := hlL.answer_spec c.kind
    refine ⟨ls.set c.receiver l' ++ new.toList, by simp [Call.apply, hl, hanswer], ?_⟩
    rw [Call.extend, hL]
    exact List.rel_append (Outcome.forall₂_set h hL hl') hnew

/-! ## All calls -/

theorem applyAll_spec (h : List.Forall₂ Holds ls Ls) (cs : List Call) :
    ∃ ls', (applyAll ls cs).outcome = .ok ls' ∧
      List.Forall₂ Holds ls' (cs.foldl Call.extend Ls) := by
  induction cs generalizing ls Ls with
  | nil => exact ⟨ls, rfl, h⟩
  | cons c rest ih =>
    obtain ⟨ls₁, hls₁, h₁⟩ := apply_spec h c
    obtain ⟨ls', hls', h'⟩ := ih h₁
    refine ⟨ls', ?_, h'⟩
    rw [applyAll, Outcome.outcome_foldlM_cons, hls₁]
    exact hls'

/-- The languages after the first `n` calls, when `L` is there at the beginning. -/
def meanings (L : Language Char) (cs : List Call) (n : Nat) : List (Language Char) :=
  (cs.take n).foldl Call.extend [L]

/-- The language at the place `i` from when it is there. -/
def meaning (L : Language Char) (cs : List Call) (i : Nat) : Language Char :=
  ((cs.foldl Call.extend [L])[i]?).getD L

section Meanings

variable {cs : List Call} {n i : Nat} {M : Language Char}

theorem isPrefix_foldl_extend (Ls : List (Language Char)) (cs : List Call) :
    Ls <+: cs.foldl Call.extend Ls := by
  induction cs generalizing Ls with
  | nil => exact List.prefix_refl Ls
  | cons c rest ih => exact (List.prefix_append ..).trans (ih (c.extend Ls))

theorem meanings_succ (L : Language Char) (cs : List Call) (n : Nat) :
    meanings L cs (n + 1) = cs[n]?.toList.foldl Call.extend (meanings L cs n) := by
  rw [meanings, List.take_add_one, List.foldl_append, meanings]

theorem isPrefix_meanings (L : Language Char) (cs : List Call) (n : Nat) :
    meanings L cs n <+: cs.foldl Call.extend [L] := by
  have h := isPrefix_foldl_extend (meanings L cs n) (cs.drop n)
  rwa [meanings, ← List.foldl_append, List.take_append_drop] at h

theorem meaning_eq (hM : (meanings L cs n)[i]? = some M) : meaning L cs i = M := by
  obtain ⟨hi, rfl⟩ := List.getElem?_eq_some_iff.1 hM
  rw [meaning, List.prefix_iff_getElem?.1 (isPrefix_meanings L cs n) i hi, Option.getD_some]

/-- A call that makes a language makes one more, after those that are there. -/
theorem meaning_of_made {c : Call} (hc : cs[n]? = some c)
    (hlt : c.receiver < (meanings L cs n).length)
    (hM : c.kind.made? (meaning L cs c.receiver) = some M) :
    (meanings L cs (n + 1)).length = (meanings L cs n).length + 1 ∧
      meaning L cs (meanings L cs n).length = M := by
  have hK := List.getElem?_eq_getElem hlt
  rw [meaning_eq hK] at hM
  have hsucc : meanings L cs (n + 1) = meanings L cs n ++ [M] := by
    rw [meanings_succ, hc, Option.toList_some, List.foldl_cons, List.foldl_nil, Call.extend, hK,
      Option.bind_some, hM, Option.toList_some]
  refine ⟨by rw [hsucc, List.length_append, List.length_singleton], ?_⟩
  apply meaning_eq (n := n + 1)
  rw [hsucc, List.getElem?_concat_length]

end Meanings

/-- Every form that is there accepts the texts of `L`, and so do the language and every form that it
gives when asked for one. -/
structure Represents (l : RegularLanguage) (L : Language Char) : Prop where
  inhabited : l.nfa.isSome ∨ l.dfa.isSome ∨ l.pattern.isSome
  nfa : ∀ m, l.nfa = some m → ∀ w, ∃ b, m.accepts? w = .ok b ∧ (b = true ↔ w ∈ L)
  dfa : ∀ d, l.dfa = some d → ∀ w, ∃ b, d.accepts? w = .ok b ∧ (b = true ↔ w ∈ L)
  pattern : ∀ p, l.pattern = some p → p.language = L
  accepts : ∀ w, ∃ b l', (l.accepts? w).outcome = .ok (b, l') ∧ (b = true ↔ w ∈ L)
  toNfa : ∃ m l', l.toNfa.outcome = .ok (m, l') ∧
    ∀ w, ∃ b, m.accepts? w = .ok b ∧ (b = true ↔ w ∈ L)
  toDfa : ∃ d l', l.toDfa.outcome = .ok (d, l') ∧
    ∀ w, ∃ b, d.accepts? w = .ok b ∧ (b = true ↔ w ∈ L)
  toPattern : ∃ p l', l.toPattern.outcome = .ok (p, l') ∧ p.language = L

theorem Holds.represents (h : l.Holds L) : l.Represents L where
  inhabited := h.inhabited
  nfa m hm w := by
    obtain ⟨hvalid, rfl⟩ := h.nfa m hm
    exact Nfa.accepts?_spec hvalid w
  dfa d hd w := by
    obtain ⟨hproper, rfl⟩ := h.dfa d hd
    exact hproper.accepts?_spec w
  pattern := h.pattern
  accepts w := by
    obtain ⟨b, l', hb, hiff, -⟩ := h.accepts?_spec w
    exact ⟨b, l', hb, hiff⟩
  toNfa := by
    obtain ⟨m, l', hm, hvalid, rfl, -⟩ := h.toNfa_spec
    exact ⟨m, l', hm, Nfa.accepts?_spec hvalid⟩
  toDfa := by
    obtain ⟨d, l', hd, hproper, rfl, -⟩ := h.toDfa_spec
    exact ⟨d, l', hd, hproper.accepts?_spec⟩
  toPattern := by
    obtain ⟨p, l', hp, hL, -⟩ := h.toPattern_spec
    exact ⟨p, l', hp, hL⟩

/-- The first `n` calls lead to the languages `pools n`, and at each place `i` there is always a
language with the texts `texts i`. -/
structure Agree (l : RegularLanguage) (cs : List Call) (pools : Nat → List RegularLanguage)
    (texts : Nat → Language Char) : Prop where
  reached : ∀ n, (applyAll [l] (cs.take n)).outcome = .ok (pools n)
  represents : ∀ n (i : Nat) l, (pools n)[i]? = some l → l.Represents (texts i)
  kept : ∀ n, (pools n).length ≤ (pools (n + 1)).length
  copied : ∀ n i, cs[n]? = some ⟨i, .copy⟩ → i < (pools n).length →
    (pools (n + 1)).length = (pools n).length + 1 ∧ texts (pools n).length = texts i
  complemented : ∀ n i, cs[n]? = some ⟨i, .complement⟩ → i < (pools n).length →
    (pools (n + 1)).length = (pools n).length + 1 ∧
      ∀ w, w ∈ texts (pools n).length ↔ w ∉ texts i

theorem Starting.holds (h : l.Starting) : ∃ L, l.Holds L := by
  cases h with
  | ofPattern p => exact ⟨_, holds_ofPattern p⟩
  | ofNfa hm => exact ⟨_, holds_ofNfa hm.sound⟩
  | ofDfa hd => exact ⟨_, holds_ofDfa hd.sound⟩
  | @parse source _ hl =>
    rw [RegularLanguage.parse] at hl
    cases hp : Pattern.parse source with
    | error e =>
      rw [hp] at hl
      cases hl
    | ok p =>
      rw [hp] at hl
      cases hl
      exact ⟨_, holds_ofPattern p⟩

/-- All forms of a language agree, whatever calls are made on it and on those made of it. -/
theorem Starting.agree (h : l.Starting) (cs : List Call) :
    ∃ pools texts, Agree l cs pools texts := by
  obtain ⟨L, hL⟩ := h.holds
  have hstart : List.Forall₂ Holds [l] [L] := .cons hL .nil
  choose pools hreached hholds using fun n => applyAll_spec hstart (cs.take n)
  have hlength : ∀ n, (pools n).length = (meanings L cs n).length := fun n => (hholds n).length_eq
  refine ⟨pools, meaning L cs, hreached, fun n i l hl => ?_, fun n => ?_, fun n i hc hlt => ?_,
    fun n i hc hlt => ?_⟩
  · obtain ⟨M, hM, hlM⟩ := Outcome.exists_of_forall₂ (hholds n) hl
    rw [meaning_eq hM]
    exact hlM.represents
  · rw [hlength, hlength, meanings_succ]
    exact (isPrefix_foldl_extend ..).length_le
  · rw [hlength] at hlt ⊢
    rw [hlength]
    exact meaning_of_made hc hlt rfl
  · rw [hlength] at hlt ⊢
    rw [hlength]
    obtain ⟨hlen, htext⟩ := meaning_of_made hc hlt rfl
    exact ⟨hlen, fun w => by rw [htext]; rfl⟩

/-- Copies and complements of copies and complements, with the forms asked for in between. -/
def crossed : List Call :=
  [⟨0, .pattern⟩, ⟨0, .complement⟩, ⟨1, .copy⟩, ⟨2, .nfa⟩, ⟨1, .accepts ['a', 'b']⟩,
    ⟨2, .complement⟩, ⟨3, .pattern⟩, ⟨7, .dfa⟩, ⟨3, .copy⟩, ⟨4, .dfa⟩]

theorem exists_agree_overwritten : ∃ d, (Dfa.initial.applyAll Dfa.overwritten).outcome = .ok d ∧
    (ofDfa d).Starting ∧ ∃ pools texts, Agree (ofDfa d) crossed pools texts := by
  obtain ⟨d, hd⟩ := Dfa.exists_overwritten
  have hstarting : (ofDfa d).Starting := .ofDfa (Dfa.built_of_applyAll .initial hd)
  exact ⟨d, hd, hstarting, hstarting.agree crossed⟩

end RegularLanguages.RegularLanguage
