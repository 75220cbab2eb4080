import RegularLanguages.Pattern.Printer
import RegularLanguages.Proofs.Pattern.Grammar

/-!
# Written patterns are read back

What is written for a pattern in a context is an operand, parts or a branch for its language, as the
context asks. So the text of a pattern is read as a pattern with the same language, whatever the
tree is. The tree itself is not kept: a nested node may be read as part of the node around it.
-/

open Computability

namespace RegularLanguages

namespace CharClass

variable {k : CharClass}

theorem mem_ofRanges_parts (k : CharClass) (c : Char) :
    c ∈ ofRanges k.parts k.inverted ↔ c ∈ k :=
  iff_of_eq (congrArg (· = true) (contains_ofRanges k.parts k.inverted c))

theorem operand_bracketText (hk : k.Ordered) :
    Operand k.bracketText (Pattern.literal k).language :=
  operand_literal (Cursor.spells_bracketText hk) (fun _ _ => rfl) (mem_ofRanges_parts k)

/-- A written class is read as a class of the same characters. -/
theorem operand_text (hk : k.Ordered) : Operand k.text (Pattern.literal k).language := by
  rcases k.text_cases with ⟨rfl, htext⟩ | ⟨c, rfl, htext⟩ | ⟨-, -, htext⟩
  · rw [htext]
    exact operand_literal (Cursor.spells_ofChar (by decide) (by decide)) (fun _ _ => rfl)
      fun _ => .rfl
  · rw [htext]
    exact operand_literal (Cursor.spells_literalText c) (fun _ _ => rfl) fun _ => .rfl
  · rw [htext]
    exact operand_bracketText hk

end CharClass

/-! ## Contexts -/

/-- What a text is that is written in a context. -/
def Context.Reads : Context → List Char → Language Char → Prop
  | .operand => Operand
  | .part => Parts
  | .branch => Branch

section

variable {u : List Char} {L : Language Char}

theorem Operand.reads (h : Operand u L) : (context : Context) → context.Reads u L
  | .operand => h
  | .part => h.parts
  | .branch => h.parts.branch

theorem Parts.reads_encloseParts (h : Parts u L) :
    (context : Context) → context.Reads (context.encloseParts u) L
  | .operand => h.branch.enclose
  | .part => h
  | .branch => h.branch

theorem Branch.reads_encloseBranches (h : Branch u L) :
    (context : Context) → context.Reads (context.encloseBranches u) L
  | .operand => h.enclose
  | .part => h.enclose.parts
  | .branch => h

end

namespace Pattern

/-! ## What is written for a node -/

section

variable {p q : Pattern} {ps : List Pattern}

theorem textIn_concat (hlength : 2 ≤ ps.length) (context : Context) :
    (concat ps).textIn context = context.encloseParts (partsText ps) := by
  match ps with
  | [] => cases hlength
  | [_] => exact absurd hlength (Nat.lt_irrefl 1)
  | _ :: _ :: _ =>
    rw [textIn]
    · simp
    · simp

theorem textIn_alternation_empty (p : Pattern) (context : Context) :
    (alternation p empty).textIn context = p.textIn .operand ++ ['?'] := by
  rw [textIn]

theorem textIn_empty_alternation (hq : q ≠ empty) (context : Context) :
    (alternation empty q).textIn context = q.textIn .operand ++ ['?'] := by
  rw [textIn]
  exact hq

theorem textIn_alternation (hp : p ≠ empty) (hq : q ≠ empty) (context : Context) :
    (alternation p q).textIn context =
      context.encloseBranches (p.textIn .branch ++ '|' :: q.textIn .branch) := by
  rw [textIn]
  · exact hq
  · exact hp

/-- The ways in which an alternation is written. An empty right side counts first, so that both sides
empty are written with one operator. -/
theorem sides_cases (p q : Pattern) :
    q = empty ∨ (p = empty ∧ q ≠ empty) ∨ (p ≠ empty ∧ q ≠ empty) := by
  by_cases hq : q = empty
  · exact .inl hq
  · by_cases hp : p = empty
    · exact .inr (.inl ⟨hp, hq⟩)
    · exact .inr (.inr ⟨hp, hq⟩)

end

/-! ## Patterns -/

mutual

/-- Every range in the pattern holds a character. Classes that are made by the operations have no
other ranges. -/
def Ordered : Pattern → Prop
  | literal k => k.Ordered
  | concat parts => OrderedAll parts
  | alternation p q => p.Ordered ∧ q.Ordered
  | star p => p.Ordered
  | empty => True
  | null => True

def OrderedAll : List Pattern → Prop
  | [] => True
  | p :: rest => p.Ordered ∧ OrderedAll rest

end

theorem reads_null (context : Context) : context.Reads "[]".toList 0 := by
  have h := CharClass.operand_bracketText (k := .empty) nofun
  have hnone : (literal .empty).language = 0 := by
    ext w
    simp
  exact (hnone ▸ h).reads context

/-- The empty text, in parentheses where they are needed. -/
theorem reads_empty (context : Context) : context.Reads (context.encloseBranches []) 1 :=
  parts_nil.branch.reads_encloseBranches context

mutual

theorem reads_textIn : (p : Pattern) → p.Ordered → (context : Context) →
    context.Reads (p.textIn context) p.language
  | .literal k, hk, context => by
    rw [textIn]
    exact (CharClass.operand_text hk).reads context
  | .null, _, context => by
    rw [textIn, language_null]
    exact reads_null context
  | .empty, _, context => by
    rw [textIn, language_empty]
    exact reads_empty context
  | .concat [], _, context => by
    rw [textIn, language_concat]
    exact reads_empty context
  | .concat [p], hp, context => by
    rw [textIn, language_concat, List.map_singleton, List.prod_singleton]
    exact reads_textIn p hp.1 context
  | .concat (p :: q :: rest), hps, context => by
    rw [textIn_concat (Nat.le_add_left ..), language_concat]
    exact (parts_partsText (p :: q :: rest) hps).reads_encloseParts context
  | .alternation p q, hpq, context => by
    rw [language_alternation]
    rcases sides_cases p q with rfl | ⟨rfl, hq⟩ | ⟨hp, hq⟩
    · have h : Operand (p.textIn .operand) p.language := reads_textIn p hpq.1 .operand
      rw [textIn_alternation_empty, language_empty]
      exact h.optional.reads context
    · have h : Operand (q.textIn .operand) q.language := reads_textIn q hpq.2 .operand
      rw [textIn_empty_alternation hq, language_empty, add_comm]
      exact h.optional.reads context
    · have h : Branch (p.textIn .branch) p.language := reads_textIn p hpq.1 .branch
      have h' : Branch (q.textIn .branch) q.language := reads_textIn q hpq.2 .branch
      rw [textIn_alternation hp hq]
      exact (h.bar h').reads_encloseBranches context
  | .star p, hp, context => by
    have h : Operand (p.textIn .operand) p.language := reads_textIn p hp .operand
    rw [textIn, language_star]
    exact h.many.reads context

theorem parts_partsText : (ps : List Pattern) → OrderedAll ps →
    Parts (partsText ps) (ps.map language).prod
  | [], _ => parts_nil
  | p :: rest, hps => by
    rw [partsText, List.map_cons, List.prod_cons]
    have h : Parts (p.textIn .part) p.language := reads_textIn p hps.1 .part
    exact h.append (parts_partsText rest hps.2)

end

/-- The text of a pattern is read as a pattern with the same language. -/
theorem exists_parse_text {p : Pattern} (h : p.Ordered) :
    ∃ q, parse p.text = .ok q ∧ q.language = p.language :=
  (reads_textIn p h .branch).parse

/-- Nodes with no part and with one, empty sides of alternations, repetitions of repetitions and of
nothing, and operator characters in and out of brackets. -/
def tangled : Pattern :=
  .concat [
    .concat [.concat [], .star (.star (.literal (.single '|'))), .empty],
    .alternation .empty (.alternation (.literal ⟨[⟨'!', '-'⟩, ⟨'[', '^'⟩], true⟩)
      (.alternation .empty .empty)),
    .star (.concat [.alternation .null (.concat [.literal (.single '.'), .literal .universal])]),
    .alternation (.star (.concat [])) .empty]

theorem exists_parse_tangled : tangled.Ordered ∧
    ∃ q, parse tangled.text = .ok q ∧ q.language = tangled.language := by
  have h : tangled.Ordered := by
    simp only [tangled, Ordered, OrderedAll]
    decide
  exact ⟨h, exists_parse_text h⟩

end Pattern

end RegularLanguages
