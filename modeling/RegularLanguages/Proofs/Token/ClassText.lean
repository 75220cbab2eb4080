import RegularLanguages.Proofs.CharClass.Laws
import RegularLanguages.Proofs.Pattern.Progress
import RegularLanguages.Proofs.Token.Composition

/-!
# The text of a class is one token

Whatever stands behind the text of a class, a read from its start takes this text and no more, and
what it gives stands for the characters of the class. The token shows how the class was stored: a
lone character is read as a literal and the dot as itself. Brackets are read as the canonical class
of their ranges, so a class that comes out of the sweep is read as it was stored.
-/

namespace RegularLanguages

namespace CharClass

open Cursor (Spells)

variable {k : CharClass}

/-- The token stands for the class, and as the class is stored. -/
structure ReadAs (k : CharClass) (t : Token) : Prop where
  /-- In a pattern the token is a literal of a class with the same characters. -/
  denotes : ∃ l, (∀ s span, Progress.read s (t, span) = .ok (s.push (.literal l))) ∧
    ∀ c, l.includes c = k.includes c
  literal : ∀ c, k = .single c → t = .literal c
  dot : k = .universal → t = .dot
  bracket : k ≠ .universal → (∀ c, k ≠ .single c) → ∃ l, t = .bracket l
  stored : k.Swept → ∀ l, t = .bracket l → l = k

theorem readAs_dot : universal.ReadAs .dot where
  denotes := ⟨universal, fun _ _ => rfl, fun _ => rfl⟩
  literal _ h := nomatch h
  dot _ := rfl
  bracket h := absurd rfl h
  stored _ _ h := nomatch h

theorem readAs_literal (c : Char) : (single c).ReadAs (.literal c) where
  denotes := ⟨single c, fun _ _ => rfl, fun _ => rfl⟩
  literal d h := by
    cases h
    rfl
  dot h := nomatch h
  bracket _ h := absurd rfl (h c)
  stored _ _ h := nomatch h

theorem readAs_bracket (hk : k.Made) (huniversal : k ≠ .universal) (hsingle : ∀ c, k ≠ .single c) :
    k.ReadAs (.bracket (.ofRanges k.parts k.inverted)) where
  denotes := by
    have hread : (ofRanges k.parts k.inverted).Made :=
      .ofRanges k.inverted (CharRange.forall_between hk.ordered)
    refine ⟨_, fun _ _ => rfl, fun c => ?_⟩
    rw [hread.includes_eq, hk.includes_eq, contains_ofRanges, contains]
  literal c h := absurd h (hsingle c)
  dot h := absurd h huniversal
  bracket _ _ := ⟨_, rfl⟩
  stored h l hl := by
    cases hl
    exact h.canonical.ofRanges_parts

theorem Made.exists_spells_text (hk : k.Made) : ∃ t, Spells k.text t ∧ k.ReadAs t := by
  rcases k.text_cases with ⟨rfl, htext⟩ | ⟨c, rfl, htext⟩ | ⟨huniversal, hsingle, htext⟩
  · rw [htext]
    exact ⟨.dot, Cursor.spells_ofChar (by decide) (by decide), readAs_dot⟩
  · rw [htext]
    exact ⟨.literal c, Cursor.spells_literalText c, readAs_literal c⟩
  · rw [htext]
    exact ⟨_, Cursor.spells_bracketText hk.ordered, readAs_bracket hk huniversal hsingle⟩

/-- A read from the start of a class text takes exactly this text, whatever follows, and gives the
token that stands for the class. -/
theorem Made.next_text (hk : k.Made) (p : Nat) (rest : List Char) :
    ∃ t, Cursor.next ⟨p, k.text ++ rest⟩ =
      (.ok ⟨some t, ⟨p, p + k.text.length⟩⟩, ⟨p + k.text.length, rest⟩) ∧ k.ReadAs t := by
  obtain ⟨t, hspells, hread⟩ := hk.exists_spells_text
  exact ⟨t, hspells.next_eq p rest, hread⟩

/-- In the text of this class the characters that mean something in brackets stand in a row. -/
def dashAndBrackets : CharClass := ofRanges [⟨']', '^'⟩, ⟨'-', '-'⟩, ⟨'[', '['⟩] true

theorem next_text_dashAndBrackets : dashAndBrackets.Swept ∧
    dashAndBrackets.text = "[^\\-\\[\\]-\\^]".toList ∧
    Cursor.next ⟨3, dashAndBrackets.text ++ "-a]".toList⟩ =
      (.ok ⟨some (.bracket dashAndBrackets), ⟨3, 15⟩⟩, ⟨15, "-a]".toList⟩) := by
  have hswept : dashAndBrackets.Swept := .ofRanges true (CharRange.forall_between (by decide))
  have htext : dashAndBrackets.text = "[^\\-\\[\\]-\\^]".toList := by decide
  have huniversal : dashAndBrackets ≠ .universal := ne_of_apply_ne (·.parts.length) (by decide)
  have hsingle (c : Char) : dashAndBrackets ≠ .single c :=
    ne_of_apply_ne inverted (by decide : true ≠ false)
  obtain ⟨t, hnext, hread⟩ := hswept.made.next_text 3 "-a]".toList
  obtain ⟨l, rfl⟩ := hread.bracket huniversal hsingle
  obtain rfl := hread.stored hswept l rfl
  rw [htext] at hnext ⊢
  exact ⟨hswept, rfl, hnext⟩

end CharClass

end RegularLanguages
