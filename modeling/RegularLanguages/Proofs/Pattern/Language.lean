import Mathlib.Computability.Language
import Mathlib.Order.CompletePartialOrder
import RegularLanguages.Pattern.Basic
import RegularLanguages.Proofs.CharClass.Pointwise

/-!
# What a pattern matches

`language` reads every tree in the usual way, redundant or not. The reducing constructors stand for
the nodes that they avoid, so that a tree rebuilt through them keeps its language.
-/

open Computability

namespace RegularLanguages.Pattern

mutual

/-- The texts that the pattern matches. -/
def language : Pattern → Language Char
  | literal k => {w | ∃ c ∈ k, w = [c]}
  | concat parts => languageAll parts
  | alternation p q => p.language + q.language
  | star p => p.language∗
  | empty => 1
  | null => 0

/-- The texts that the patterns match one after another. -/
def languageAll : List Pattern → Language Char
  | [] => 1
  | p :: rest => p.language * languageAll rest

end

theorem languageAll_eq_prod (ps : List Pattern) : languageAll ps = (ps.map language).prod := by
  induction ps with
  | nil => rfl
  | cons p rest ih => rw [languageAll, ih, List.map_cons, List.prod_cons]

@[simp] theorem mem_language_literal {k : CharClass} {w : List Char} :
    w ∈ (literal k).language ↔ ∃ c ∈ k, w = [c] := by
  rw [language]
  rfl

@[simp] theorem language_concat (ps : List Pattern) :
    (concat ps).language = (ps.map language).prod := by
  rw [language, languageAll_eq_prod]

@[simp] theorem language_alternation (p q : Pattern) :
    (alternation p q).language = p.language + q.language := by
  rw [language]

@[simp] theorem language_star (p : Pattern) : (star p).language = p.language∗ := by
  rw [language]

@[simp] theorem language_empty : empty.language = 1 := by
  rw [language]

@[simp] theorem language_null : null.language = 0 := by
  rw [language]

/-! ## Reducing constructors -/

@[simp] theorem language_ofClass (k : CharClass) : (ofClass k).language = (literal k).language := by
  unfold ofClass
  split
  · rename_i hk
    ext w
    simp [CharClass.not_mem_of_isEmpty hk]
  · rfl

/-- What flattening makes of the parts stands for their concatenation. -/
theorem prod_language_flatten (ps : List Pattern) :
    (ps.map language).prod = (flatten ps).elim 0 fun flat => (flat.map language).prod := by
  induction ps using flatten.induct with
  | case1 => rfl
  | case2 rest => simp [flatten]
  | case3 rest ih => simp [flatten, ih]
  | case4 inner rest ih =>
    rw [flatten, List.map_cons, List.prod_cons, ih, language_concat]
    cases flatten rest <;> simp
  | case5 p rest hnull hempty hconcat ih =>
    rw [flatten, List.map_cons, List.prod_cons, ih]
    · cases flatten rest <;> simp
    · exact hnull
    · exact hempty
    · exact hconcat

theorem language_ofParts (ps : List Pattern) : (ofParts ps).language = (ps.map language).prod := by
  unfold ofParts
  split <;> simp

@[simp] theorem language_seq (ps : List Pattern) : (seq ps).language = (ps.map language).prod := by
  rw [prod_language_flatten]
  unfold seq
  cases flatten ps with
  | none => exact language_null
  | some flat => exact language_ofParts flat

@[simp] theorem language_alt (p q : Pattern) : (alt p q).language = p.language + q.language := by
  unfold alt
  split <;> simp

@[simp] theorem language_many (p : Pattern) : (many p).language = p.language∗ := by
  unfold many
  split <;> simp

theorem mem_language_foldl_alt {ps : List Pattern} {p : Pattern} {w : List Char} :
    w ∈ (ps.foldl alt p).language ↔ w ∈ p.language ∨ ∃ q ∈ ps, w ∈ q.language := by
  induction ps generalizing p with
  | nil => simp
  | cons q rest ih =>
    rw [List.foldl_cons, ih, language_alt, Language.mem_add, or_assoc]
    simp

/-! ## Whole trees -/

mutual

theorem language_simplify : (p : Pattern) → p.simplify.language = p.language
  | literal k => by rw [simplify, language_ofClass]
  | concat ps => by rw [simplify, language_seq, map_language_simplifyAll ps, language_concat]
  | alternation p q => by
    rw [simplify, language_alt, language_simplify p, language_simplify q, language_alternation]
  | star p => by rw [simplify, language_many, language_simplify p, language_star]
  | empty => by rw [simplify]
  | null => by rw [simplify]

theorem map_language_simplifyAll : (ps : List Pattern) →
    (simplifyAll ps).map language = ps.map language
  | [] => by rw [simplifyAll]
  | p :: rest => by
    rw [simplifyAll, List.map_cons, List.map_cons, language_simplify p,
      map_language_simplifyAll rest]

end

end RegularLanguages.Pattern
