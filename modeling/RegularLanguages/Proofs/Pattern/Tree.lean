import RegularLanguages.Proofs.CharClass.Text
import RegularLanguages.Proofs.Pattern.Closed

/-!
# The tree dump shows the tree

The labels of literals stand between quotes that are not escaped, and a label may hold quotes,
blanks and parentheses. Still each node shows where it ends: its name tells what follows, and the
label of a class where it ends itself. So trees with the same dump have the same nodes, and their
literals have the same labels; only a literal of the empty class, which is labelled `∅`, can be
taken for one of the lone character `∅`.
-/

namespace RegularLanguages

theorem CharClass.label_labelled (k : CharClass) : k.labelled.label = k.label := by
  unfold labelled
  split
  · rename_i hk
    rw [isEmpty_iff_eq_empty.1 hk]
    rfl
  · rfl

namespace Pattern

variable {p q : Pattern} {ps qs : List Pattern} {x y : List Char}

mutual

/-- The tree with every literal of the empty class as one of the lone character `∅`. -/
def labelled : Pattern → Pattern
  | literal k => literal k.labelled
  | concat parts => concat (labelledAll parts)
  | alternation p q => alternation p.labelled q.labelled
  | star p => star p.labelled
  | empty => empty
  | null => null

def labelledAll : List Pattern → List Pattern
  | [] => []
  | p :: rest => p.labelled :: labelledAll rest

end

/-- One tree has a literal of the empty class and the other one of the lone character `∅`. -/
def Confusable (p q : Pattern) : Prop :=
  (Occurs (literal .empty) p ∧ Occurs (literal (.single '∅')) q) ∨
    (Occurs (literal (.single '∅')) p ∧ Occurs (literal .empty) q)

/-! ## The characters of a dump -/

theorem tree_literal (k : CharClass) : (literal k).tree =
    '(' :: 'l' :: 'i' :: 't' :: ' ' :: '\'' :: (k.label ++ ['\'', ')']) := by
  have hname : "(lit '".toList = ['(', 'l', 'i', 't', ' ', '\''] := by decide
  have hend : "')".toList = ['\'', ')'] := by decide
  have htree : (literal k).tree = "(lit '".toList ++ k.label ++ "')".toList := rfl
  rw [htree, hname, hend]
  simp only [List.cons_append, List.nil_append]

theorem tree_concat (ps : List Pattern) : (concat ps).tree =
    '(' :: 'c' :: 'o' :: 'n' :: 'c' :: 'a' :: 't' :: (treeAll ps ++ [')']) := by
  have hname : "(concat".toList = ['(', 'c', 'o', 'n', 'c', 'a', 't'] := by decide
  have htree : (concat ps).tree = "(concat".toList ++ treeAll ps ++ [')'] := rfl
  rw [htree, hname]
  simp only [List.cons_append, List.nil_append]

theorem tree_alternation (p q : Pattern) : (alternation p q).tree =
    '(' :: 'a' :: 'l' :: 't' :: ' ' :: (p.tree ++ ' ' :: (q.tree ++ [')'])) := by
  have hname : "(alt ".toList = ['(', 'a', 'l', 't', ' '] := by decide
  have htree : (alternation p q).tree = "(alt ".toList ++ p.tree ++ ' ' :: q.tree ++ [')'] := rfl
  rw [htree, hname]
  simp only [List.append_assoc, List.cons_append, List.nil_append]

theorem tree_star (p : Pattern) : (star p).tree =
    '(' :: 'k' :: 'l' :: 'e' :: 'e' :: 'n' :: 'e' :: ' ' :: (p.tree ++ [')']) := by
  have hname : "(kleene ".toList = ['(', 'k', 'l', 'e', 'e', 'n', 'e', ' '] := by decide
  have htree : (star p).tree = "(kleene ".toList ++ p.tree ++ [')'] := rfl
  rw [htree, hname]
  simp only [List.cons_append, List.nil_append]

theorem tree_empty : empty.tree = ['ε'] := rfl

theorem tree_null : null.tree = ['∅'] := rfl

mutual

/-- A dump shows where it ends and which tree it is, as far as the labels go. -/
theorem tree_append_inj : (p q : Pattern) → {x y : List Char} → p.tree ++ x = q.tree ++ y →
    p.labelled = q.labelled ∧ x = y
  | .literal k, q, x, y, h => by
    cases q with
    | literal l =>
      simp only [tree_literal, List.cons_append, List.append_assoc, List.cons.injEq, true_and] at h
      obtain ⟨hlabel, hxy⟩ := CharClass.label_append_inj h
      rw [labelled, labelled, hlabel]
      exact ⟨rfl, (List.cons.inj (List.cons.inj hxy).2).2⟩
    | _ => simp [tree_literal, tree_concat, tree_alternation, tree_star, tree_empty, tree_null] at h
  | .concat ps, q, x, y, h => by
    cases q with
    | concat qs =>
      simp only [tree_concat, List.cons_append, List.append_assoc, List.cons.injEq, true_and] at h
      obtain ⟨hparts, hxy⟩ := treeAll_append_inj ps qs h
      rw [labelled, labelled, hparts]
      exact ⟨rfl, hxy⟩
    | _ => simp [tree_literal, tree_concat, tree_alternation, tree_star, tree_empty, tree_null] at h
  | .alternation p₁ p₂, q, x, y, h => by
    cases q with
    | alternation q₁ q₂ =>
      simp only [tree_alternation, List.cons_append, List.append_assoc, List.cons.injEq,
        true_and] at h
      obtain ⟨hleft, hrest⟩ := tree_append_inj p₁ q₁ h
      obtain ⟨hright, hxy⟩ := tree_append_inj p₂ q₂ (List.cons.inj hrest).2
      rw [labelled, labelled, hleft, hright]
      exact ⟨rfl, (List.cons.inj hxy).2⟩
    | _ => simp [tree_literal, tree_concat, tree_alternation, tree_star, tree_empty, tree_null] at h
  | .star p, q, x, y, h => by
    cases q with
    | star q =>
      simp only [tree_star, List.cons_append, List.append_assoc, List.cons.injEq, true_and] at h
      obtain ⟨hbase, hxy⟩ := tree_append_inj p q h
      rw [labelled, labelled, hbase]
      exact ⟨rfl, (List.cons.inj hxy).2⟩
    | _ => simp [tree_literal, tree_concat, tree_alternation, tree_star, tree_empty, tree_null] at h
  | .empty, q, x, y, h => by
    cases q with
    | empty => exact ⟨rfl, List.append_cancel_left h⟩
    | _ => simp [tree_literal, tree_concat, tree_alternation, tree_star, tree_empty, tree_null] at h
  | .null, q, x, y, h => by
    cases q with
    | null => exact ⟨rfl, List.append_cancel_left h⟩
    | _ => simp [tree_literal, tree_concat, tree_alternation, tree_star, tree_empty, tree_null] at h

theorem treeAll_append_inj : (ps qs : List Pattern) → {x y : List Char} →
    treeAll ps ++ ')' :: x = treeAll qs ++ ')' :: y → labelledAll ps = labelledAll qs ∧ x = y
  | [], [], x, y, h => ⟨rfl, (List.cons.inj h).2⟩
  | [], q :: qs, x, y, h => by simp [treeAll] at h
  | p :: ps, [], x, y, h => by simp [treeAll] at h
  | p :: ps, q :: qs, x, y, h => by
    simp only [treeAll, List.cons_append, List.append_assoc, List.cons.injEq, true_and] at h
    obtain ⟨hfirst, hrest⟩ := tree_append_inj p q h
    obtain ⟨hparts, hxy⟩ := treeAll_append_inj ps qs hrest
    rw [labelledAll, labelledAll, hfirst, hparts]
    exact ⟨rfl, hxy⟩

end

mutual

theorem tree_labelled : (p : Pattern) → p.labelled.tree = p.tree
  | .literal k => by rw [labelled, tree_literal, tree_literal, CharClass.label_labelled]
  | .concat ps => by rw [labelled, tree_concat, tree_concat, treeAll_labelledAll ps]
  | .alternation p q => by
    rw [labelled, tree_alternation, tree_alternation, tree_labelled p, tree_labelled q]
  | .star p => by rw [labelled, tree_star, tree_star, tree_labelled p]
  | .empty => by rw [labelled]
  | .null => by rw [labelled]

theorem treeAll_labelledAll : (ps : List Pattern) → treeAll (labelledAll ps) = treeAll ps
  | [] => by rw [labelledAll]
  | p :: rest => by
    rw [labelledAll, treeAll, treeAll, tree_labelled p, treeAll_labelledAll rest]

end

theorem tree_eq_iff : p.tree = q.tree ↔ p.labelled = q.labelled := by
  constructor
  · intro h
    exact (tree_append_inj p q (congrArg (· ++ []) h)).1
  · intro h
    rw [← tree_labelled p, h, tree_labelled q]

/-! ## Literals that labels do not tell apart -/

mutual

/-- Trees that only their literals could tell apart. -/
theorem eq_of_labelled_eq : (p q : Pattern) → (∀ k l, Occurs (literal k) p →
    Occurs (literal l) q → k.labelled = l.labelled → k = l) → p.labelled = q.labelled → p = q
  | .literal k, q, hliteral, h => by
    cases q with
    | literal l =>
      simp only [labelled, literal.injEq] at h
      rw [hliteral k l .here .here h]
    | _ => simp [labelled] at h
  | .concat ps, q, hliteral, h => by
    cases q with
    | concat qs =>
      simp only [labelled, concat.injEq] at h
      rw [eq_of_labelledAll_eq ps qs (fun p hp q hq k l hk hl =>
        hliteral k l (.part hp hk) (.part hq hl)) h]
    | _ => simp [labelled] at h
  | .alternation p₁ p₂, q, hliteral, h => by
    cases q with
    | alternation q₁ q₂ =>
      simp only [labelled, alternation.injEq] at h
      rw [eq_of_labelled_eq p₁ q₁ (fun k l hk hl => hliteral k l (.left hk) (.left hl)) h.1,
        eq_of_labelled_eq p₂ q₂ (fun k l hk hl => hliteral k l (.right hk) (.right hl)) h.2]
    | _ => simp [labelled] at h
  | .star p, q, hliteral, h => by
    cases q with
    | star q =>
      simp only [labelled, star.injEq] at h
      rw [eq_of_labelled_eq p q (fun k l hk hl => hliteral k l (.base hk) (.base hl)) h]
    | _ => simp [labelled] at h
  | .empty, q, _, h => by
    cases q with
    | empty => rfl
    | _ => simp [labelled] at h
  | .null, q, _, h => by
    cases q with
    | null => rfl
    | _ => simp [labelled] at h

theorem eq_of_labelledAll_eq : (ps qs : List Pattern) → (∀ p ∈ ps, ∀ q ∈ qs, ∀ k l,
    Occurs (literal k) p → Occurs (literal l) q → k.labelled = l.labelled → k = l) →
    labelledAll ps = labelledAll qs → ps = qs
  | [], [], _, _ => rfl
  | [], _ :: _, _, h => by simp [labelledAll] at h
  | _ :: _, [], _, h => by simp [labelledAll] at h
  | p :: ps, q :: qs, hliteral, h => by
    simp only [labelledAll, List.cons.injEq] at h
    rw [eq_of_labelled_eq p q (hliteral p (List.mem_cons_self ..) q (List.mem_cons_self ..)) h.1,
      eq_of_labelledAll_eq ps qs (fun p hp q hq =>
        hliteral p (List.mem_cons_of_mem _ hp) q (List.mem_cons_of_mem _ hq)) h.2]

end

mutual

theorem sameAs_self : (p : Pattern) → p.sameAs p = true
  | .literal k => by rw [sameAs, CharClass.sameAs_iff]; exact fun _ => .rfl
  | .concat ps => by rw [sameAs, sameAsAll_self ps]
  | .alternation p q => by rw [sameAs, sameAs_self p, sameAs_self q]; rfl
  | .star p => by rw [sameAs, sameAs_self p]
  | .empty => by rw [sameAs]
  | .null => by rw [sameAs]

theorem sameAsAll_self : (ps : List Pattern) → sameAsAll ps ps = true
  | [] => by rw [sameAsAll]
  | p :: rest => by rw [sameAsAll, sameAs_self p, sameAsAll_self rest]; rfl

end

/-- Trees with the same dump are the same, with a literal of the empty class for one of the lone
character `∅`. So they are equal, unless one has a literal of the first kind and the other one of
the second. -/
theorem tree_determines (p q : Pattern) : (p.tree = q.tree ↔ p.labelled = q.labelled) ∧
    (p.tree = q.tree → (p = q ∧ p.sameAs q = true) ∨ p.Confusable q) := by
  refine ⟨tree_eq_iff, fun h => ?_⟩
  by_cases hconfusable : p.Confusable q
  · exact .inr hconfusable
  · have heq : p = q := eq_of_labelled_eq p q (fun k l hk hl hlabel => by
      rcases CharClass.eq_of_labelled_eq hlabel with hkl | ⟨rfl, rfl⟩ | ⟨rfl, rfl⟩
      · exact hkl
      · exact absurd (.inl ⟨hk, hl⟩) hconfusable
      · exact absurd (.inr ⟨hk, hl⟩) hconfusable) (tree_eq_iff.1 h)
    exact .inl ⟨heq, heq ▸ sameAs_self p⟩

/-- Labels that look like the syntax around them, and the star of a class. -/
def quoting (k : CharClass) : Pattern :=
  alternation (concat [literal (.single '\''), literal (.single ')'), literal (.single ' ')])
    (star (literal k))

/-- Quotes, parentheses and blanks in labels do no harm; an empty class does. -/
theorem exists_tree_eq_confusable : ∃ p q : Pattern, parse "'\\) |[]*".toList = .ok p ∧
    parse "'\\) |∅*".toList = .ok q ∧ p.tree = q.tree ∧ p.labelled = q.labelled ∧
    p.Confusable q := by
  have hdump : (quoting .empty).tree = (quoting (.single '∅')).tree := by rfl
  obtain ⟨hlabelled, hdetermines⟩ := tree_determines (quoting .empty) (quoting (.single '∅'))
  refine ⟨quoting .empty, quoting (.single '∅'), by cbv, by cbv, hdump, hlabelled.1 hdump, ?_⟩
  rcases hdetermines hdump with ⟨heq, -⟩ | hconfusable
  · exact absurd heq (by simp [quoting, CharClass.empty, CharClass.single])
  · exact hconfusable

/-- An empty class has the dump of a lone character, but not the same characters. -/
theorem exists_tree_eq_not_sameAs : ∃ p q : Pattern, parse "[]".toList = .ok p ∧
    parse "∅".toList = .ok q ∧ p.tree = q.tree ∧ p.sameAs q = false := by
  refine ⟨literal .empty, literal (.single '∅'), by cbv, by cbv, by rfl, by rfl⟩

end Pattern

end RegularLanguages
