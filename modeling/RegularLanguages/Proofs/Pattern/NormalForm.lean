import RegularLanguages.Proofs.CharClass.Extremes
import RegularLanguages.Proofs.Pattern.Derivation
import RegularLanguages.Proofs.Pattern.Live

/-!
# The normal form of a pattern

In a `Reduced` pattern the reducing constructors have nothing left to do: they give each of its
nodes back. Whatever they make of reduced patterns and `null` is `null` or reduced again, so
that `simplify` reaches the normal form in one pass over the tree.

Of a pattern whose literals are `null` when they should be, nothing is left but `null` if it matches
no text. What is parsed is such a pattern, since brackets are read as canonical classes.
-/

open Computability

namespace RegularLanguages

namespace Pattern

/-- No node of the tree is one that a reducing constructor avoids. -/
structure NormalForm (p : Pattern) : Prop where
  null : Occurs .null p → p = .null
  concat : ∀ ps, Occurs (.concat ps) p → 2 ≤ ps.length ∧ .empty ∉ ps ∧ ∀ qs, .concat qs ∉ ps
  star : ∀ q, Occurs (.star q) p → q ≠ .empty ∧ q ≠ .null

/-- A flat concatenation may have the pattern as a part. -/
def IsPart (p : Pattern) : Prop := p ≠ empty ∧ p ≠ null ∧ ∀ inner, p ≠ concat inner

/-- The reducing constructors leave the tree as it is. -/
inductive Reduced : Pattern → Prop where
  | literal {k : CharClass} : k.isEmpty = false → Reduced (.literal k)
  | concat {ps : List Pattern} :
      2 ≤ ps.length → (∀ p ∈ ps, p.IsPart) → (∀ p ∈ ps, Reduced p) → Reduced (.concat ps)
  | alternation {p q : Pattern} : Reduced p → Reduced q → Reduced (.alternation p q)
  | star {p : Pattern} : p ≠ .empty → Reduced p → Reduced (.star p)
  | empty : Reduced .empty

variable {p q : Pattern} {ps : List Pattern}

theorem Reduced.ne_null (h : p.Reduced) : p ≠ null := by
  rintro rfl
  cases h

theorem Reduced.of_occurs (h : q.Reduced) (hp : Occurs p q) : p.Reduced := by
  induction hp with
  | here => exact h
  | part hmem _ ih =>
    cases h with
    | concat _ _ hparts => exact ih (hparts _ hmem)
  | left _ ih =>
    cases h with
    | alternation hleft _ => exact ih hleft
  | right _ ih =>
    cases h with
    | alternation _ hright => exact ih hright
  | base _ ih =>
    cases h with
    | star _ hbase => exact ih hbase

theorem Reduced.normalForm (h : p.Reduced) : p.NormalForm where
  null hnull := absurd rfl (h.of_occurs hnull).ne_null
  concat ps hps := by
    cases h.of_occurs hps with
    | concat hlength hparts _ =>
      exact ⟨hlength, fun hempty => (hparts _ hempty).1 rfl,
        fun qs hqs => (hparts _ hqs).2.2 qs rfl⟩
  star q hq := by
    cases h.of_occurs hq with
    | star hempty hbase => exact ⟨hempty, hbase.ne_null⟩

theorem normalForm_null : null.NormalForm where
  null _ := rfl
  concat _ h := nomatch h
  star _ h := nomatch h

/-! ## Reduced patterns stay as they are -/

theorem simplifyAll_eq_map (ps : List Pattern) : simplifyAll ps = ps.map simplify := by
  induction ps with
  | nil => rfl
  | cons p rest ih => rw [simplifyAll, ih, List.map_cons]

theorem flatten_eq_self (h : ∀ p ∈ ps, p.IsPart) : flatten ps = some ps := by
  induction ps with
  | nil => rfl
  | cons p rest ih =>
    obtain ⟨⟨hempty, hnull, hconcat⟩, hrest⟩ := List.forall_mem_cons.1 h
    rw [flatten, ih hrest, Option.map_some]
    · exact hnull
    · exact hempty
    · exact hconcat

theorem alt_eq_alternation (hp : p ≠ null) (hq : q ≠ null) : alt p q = alternation p q := by
  unfold alt
  split
  · exact absurd rfl hp
  · exact absurd rfl hq
  · rfl

theorem many_eq_star (hempty : p ≠ empty) (hnull : p ≠ null) : many p = star p := by
  unfold many
  split
  · exact absurd rfl hempty
  · exact absurd rfl hnull
  · rfl

theorem Reduced.simplify_eq (h : p.Reduced) : p.simplify = p := by
  induction h with
  | literal hk => rw [simplify, ofClass, if_neg (Bool.eq_false_iff.1 hk)]
  | @concat ps hlength hparts _ ih =>
    have hsame : ps.map simplify = ps := (List.map_congr_left ih).trans (List.map_id ps)
    rw [simplify, simplifyAll_eq_map, hsame, seq, flatten_eq_self hparts]
    exact ofParts_eq_concat hlength
  | alternation hp hq ihp ihq => rw [simplify, ihp, ihq, alt_eq_alternation hp.ne_null hq.ne_null]
  | star hempty hp ih => rw [simplify, ih, many_eq_star hempty hp.ne_null]
  | empty => rw [simplify]

/-! ## The reducing constructors -/

theorem reduced_of_mem_flatten {flat : List Pattern} (h : ∀ p ∈ ps, p = null ∨ p.Reduced)
    (hflat : flatten ps = some flat) : ∀ q ∈ flat, q.IsPart ∧ q.Reduced := by
  refine forall_mem_of_flatten hflat (fun p hp hempty hnull hconcat => ?_) fun inner hinner q hq => ?_
  · exact ⟨⟨hempty, hnull, hconcat⟩, (h p hp).resolve_left hnull⟩
  · cases (h _ hinner).resolve_left nofun with
    | concat _ hparts hreduced => exact ⟨hparts q hq, hreduced q hq⟩

theorem reduced_ofClass (k : CharClass) : ofClass k = null ∨ (ofClass k).Reduced := by
  unfold ofClass
  split
  · exact .inl rfl
  · rename_i hk
    exact .inr (.literal (Bool.eq_false_iff.2 hk))

theorem reduced_ofParts (h : ∀ p ∈ ps, p.IsPart ∧ p.Reduced) : (ofParts ps).Reduced := by
  match ps with
  | [] => exact .empty
  | [p] => exact (h p (List.mem_singleton_self p)).2
  | p :: q :: rest =>
    exact .concat (Nat.le_add_left ..) (fun r hr => (h r hr).1) fun r hr => (h r hr).2

/-- What is `null` or reduced stays so. -/
theorem closed_reduced : Closed fun p => p = null ∨ p.Reduced where
  empty := .inr .empty
  null := .inl rfl
  seq ps hps := by
    unfold seq
    split
    · exact .inl rfl
    · rename_i flat hflat
      exact .inr (reduced_ofParts (reduced_of_mem_flatten hps hflat))
  alt p q hp hq := by
    by_cases hpnull : p = null
    · subst hpnull
      exact hq
    · by_cases hqnull : q = null
      · subst hqnull
        rwa [alt]
        exact hpnull
      · rw [alt_eq_alternation hpnull hqnull]
        exact .inr (.alternation (hp.resolve_left hpnull) (hq.resolve_left hqnull))
  many p hp := by
    by_cases hempty : p = empty
    · subst hempty
      exact .inr .empty
    · by_cases hnull : p = null
      · subst hnull
        exact .inr .empty
      · rw [many_eq_star hempty hnull]
        exact .inr (.star hempty (hp.resolve_left hnull))

/-- One pass reaches the normal form. -/
theorem reduced_simplify (p : Pattern) : p.simplify = null ∨ p.simplify.Reduced :=
  closed_reduced.simplify p fun k _ => reduced_ofClass k

/-! ## Patterns that match nothing -/

/-- A pattern is simplified to `null` if and only if it matches nothing, provided that the test for
the empty class is exact on its literals. -/
theorem simplify_eq_null_iff (h : ∀ k, Occurs (.literal k) p → (k.isEmpty = true ↔ ∀ c, c ∉ k)) :
    p.simplify = null ↔ ∀ w, w ∉ p.language := by
  rw [eq_null_iff_of_live (live_simplify h), language_simplify]

/-! ## Parsed patterns -/

/-- The pattern may have been parsed: brackets are canonical, a concatenation has two parts or more,
and no node is `null`. -/
inductive Parsed : Pattern → Prop where
  | literal {k : CharClass} : k.Canonical → Parsed (.literal k)
  | concat {ps : List Pattern} : 2 ≤ ps.length → (∀ p ∈ ps, Parsed p) → Parsed (.concat ps)
  | alternation {p q : Pattern} : Parsed p → Parsed q → Parsed (.alternation p q)
  | star {p : Pattern} : Parsed p → Parsed (.star p)
  | empty : Parsed .empty

theorem Parsed.canonical {k : CharClass} (h : p.Parsed) (hk : Occurs (.literal k) p) :
    k.Canonical := by
  induction hk with
  | here =>
    cases h with
    | literal hk => exact hk
  | part hmem _ ih =>
    cases h with
    | concat _ hparts => exact ih (hparts _ hmem)
  | left _ ih =>
    cases h with
    | alternation hleft _ => exact ih hleft
  | right _ ih =>
    cases h with
    | alternation _ hright => exact ih hright
  | base _ ih =>
    cases h with
    | star hbase => exact ih hbase

end Pattern

/-- Whatever is derived from canonical brackets may have been parsed. -/
theorem Derives.parsed {φ : Phrase} {ts : List Token} {p : Pattern} (h : Derives φ ts p)
    (hts : ∀ k, .bracket k ∈ ts → k.Canonical) : p.Parsed := by
  induction h with
  | branch _ ih | onePart _ ih | once _ ih => exact ih hts
  | bar _ _ ih ih' =>
    exact .alternation (ih fun k hmem => hts k (List.mem_append_left _ hmem))
      (ih' fun k hmem => hts k (List.mem_append_right _ (List.mem_cons_of_mem _ hmem)))
  | noPart => exact .empty
  | parts hlength _ ih =>
    refine .concat (by rwa [List.length_map]) fun p hp => ?_
    obtain ⟨i, hi, rfl⟩ := List.mem_map.1 hp
    exact ih i hi fun k hmem => hts k (List.mem_flatMap.2 ⟨i, hi, hmem⟩)
  | zeroOrMore _ ih => exact .star (ih fun k hmem => hts k (List.mem_append_left _ hmem))
  | zeroOrOne _ ih =>
    exact .alternation (ih fun k hmem => hts k (List.mem_append_left _ hmem)) .empty
  | oneOrMore _ ih =>
    have ih := ih fun k hmem => hts k (List.mem_append_left _ hmem)
    refine .concat (Nat.le_refl 2) fun p hp => ?_
    rcases List.mem_pair.1 hp with rfl | rfl
    · exact ih
    · exact .star ih
  | literal c =>
    exact .literal (CharClass.canonical_ofRange (Char.le_refl c) (CharRange.single_ne_full c))
  | dot => exact .literal CharClass.canonical_universal
  | bracket k => exact .literal (hts k (List.mem_singleton_self _))
  | group _ ih =>
    exact ih fun k hmem => hts k (List.mem_cons_of_mem _ (List.mem_append_left _ hmem))

namespace Pattern

theorem parsed_of_parse {source : List Char} {p : Pattern} (h : parse source = .ok p) :
    p.Parsed := by
  rw [parse_eq_ofTokens] at h
  obtain ⟨-, hderives⟩ := ofTokens_eq_ok_iff.1 h
  refine hderives.parsed fun k hmem => ?_
  obtain ⟨⟨t, span⟩, hscan, rfl⟩ := List.mem_map.1 hmem
  exact Cursor.canonical_of_mem_scan (.start source) hscan

theorem canonical_of_parse {source : List Char} {p : Pattern} {k : CharClass}
    (h : parse source = .ok p) (hk : Occurs (.literal k) p) : k.Canonical :=
  (parsed_of_parse h).canonical hk

/-- Simplifying keeps the language, has nothing left to do when it is done again, and reaches the
normal form; what is parsed is simplified to `null` if and only if it matches nothing. -/
theorem simplify_reaches_normalForm (p : Pattern) :
    p.simplify.language = p.language ∧ p.simplify.simplify = p.simplify ∧ p.simplify.NormalForm ∧
      ∀ source, parse source = .ok p → (p.simplify = null ↔ ∀ w, w ∉ p.language) := by
  refine ⟨language_simplify p, ?_, ?_, fun source h => ?_⟩
  · rcases reduced_simplify p with hnull | hreduced
    · rw [hnull, simplify]
    · exact hreduced.simplify_eq
  · rcases reduced_simplify p with hnull | hreduced
    · rw [hnull]
      exact normalForm_null
    · exact hreduced.normalForm
  · exact simplify_eq_null_iff fun k hk => (canonical_of_parse h hk).isEmpty_iff

/-- No text gets past the empty brackets. -/
def dead : Pattern :=
  .concat [.alternation (.literal .empty) (.concat [.literal (.single 'a'), .literal .empty]),
    .star (.literal (.single 'b'))]

theorem simplify_dead : parse "([]|a[])b*".toList = .ok dead ∧
    dead.simplify.language = dead.language ∧ dead.simplify.simplify = dead.simplify ∧
    dead.simplify.NormalForm ∧ dead.simplify = null ∧ ∀ w, w ∉ dead.language := by
  have hparse : parse "([]|a[])b*".toList = .ok dead := by cbv
  have hnull : dead.simplify = null := by cbv
  obtain ⟨hlanguage, hfixed, hnormal, hiff⟩ := simplify_reaches_normalForm dead
  exact ⟨hparse, hlanguage, hfixed, hnormal, hnull, (hiff _ hparse).1 hnull⟩

end Pattern

end RegularLanguages
