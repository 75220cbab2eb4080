import RegularLanguages.Proofs.Token.Lexer

/-!
# The text of a class shows how it is stored

A backslash before a character tells it from the same character used as syntax, so in a written
class it shows where each member, each range and the class itself ends, whatever stands behind it.
No other class has the same text, not even one of the same characters that is stored in another way.
Only the label of the empty class is also that of another class, the one of the lone character `∅`.
-/

namespace RegularLanguages

variable {a b c d : Char} {r s : CharRange} {rs ss : List CharRange} {x y : List Char}

/-! ## Characters -/

/-- A character, with a backslash if it is special. -/
def escape (special : Char → Bool) (c : Char) : List Char := if special c then ['\\', c] else [c]

section Escape

variable {special : Char → Bool}

/-- A written character shows itself and where it ends, if the backslash is special. -/
theorem escape_append_inj (hescape : special '\\' = true)
    (h : escape special a ++ x = escape special b ++ y) : a = b ∧ x = y := by
  unfold escape at h
  split at h <;> split at h
  · exact ⟨(List.cons.inj (List.cons.inj h).2).1, (List.cons.inj (List.cons.inj h).2).2⟩
  · rename_i hb
    exact absurd ((List.cons.inj h).1 ▸ hescape) hb
  · rename_i ha _
    exact absurd ((List.cons.inj h).1 ▸ hescape) ha
  · exact List.cons.inj h

/-- No written character begins with a special one, other than the backslash. -/
theorem escape_append_ne (hc : special c = true) (hne : c ≠ '\\') :
    escape special a ++ x ≠ c :: y := by
  intro h
  unfold escape at h
  split at h
  · exact hne (List.cons.inj h).1.symm
  · rename_i ha
    exact ha ((List.cons.inj h).1 ▸ hc)

end Escape

theorem memberText_append_inj (h : memberText a ++ x = memberText b ++ y) : a = b ∧ x = y :=
  escape_append_inj (by decide : isBracketChar '\\' = true) h

theorem literalText_append_inj (h : literalText a ++ x = literalText b ++ y) : a = b ∧ x = y :=
  escape_append_inj (by decide : isOperatorChar '\\' = true) h

/-! ## Ranges -/

namespace CharRange

theorem text_self (a : Char) : text ⟨a, a⟩ = memberText a := by
  simp [text, isSingle]

theorem text_of_ne (h : a ≠ b) : text ⟨a, b⟩ = memberText a ++ '-' :: memberText b := by
  simp [text, isSingle, h]

/-- A range ends where no dash follows. -/
theorem text_append_inj (hc : c ≠ '-') (hd : d ≠ '-') (h : r.text ++ c :: x = s.text ++ d :: y) :
    r = s ∧ c :: x = d :: y := by
  obtain ⟨a, b⟩ := r
  obtain ⟨a', b'⟩ := s
  by_cases hr : a = b <;> by_cases hs : a' = b'
  · rw [hr, hs, text_self, text_self] at h
    obtain ⟨rfl, hrest⟩ := memberText_append_inj h
    exact ⟨by rw [hr, hs], hrest⟩
  · rw [hr, text_self, text_of_ne hs, List.append_assoc] at h
    obtain ⟨-, hrest⟩ := memberText_append_inj h
    exact absurd (List.cons.inj hrest).1 hc
  · rw [hs, text_self, text_of_ne hr, List.append_assoc] at h
    obtain ⟨-, hrest⟩ := memberText_append_inj h
    exact absurd (List.cons.inj hrest).1.symm hd
  · rw [text_of_ne hr, text_of_ne hs, List.append_assoc, List.append_assoc] at h
    obtain ⟨rfl, hlast⟩ := memberText_append_inj h
    obtain ⟨rfl, hrest⟩ := memberText_append_inj (List.cons.inj hlast).2
    exact ⟨rfl, hrest⟩

theorem flatMap_text_cons_ne (r : CharRange) (rs : List CharRange) (x y : List Char) :
    (r :: rs).flatMap text ++ ']' :: x ≠ ']' :: y := by
  rw [List.flatMap_cons, text, List.append_assoc, List.append_assoc]
  exact escape_append_ne (by decide) (by decide)

/-- Ranges in a row end at the closing bracket. -/
theorem flatMap_text_append_inj
    (h : rs.flatMap text ++ ']' :: x = ss.flatMap text ++ ']' :: y) : rs = ss ∧ x = y := by
  induction rs generalizing ss with
  | nil =>
    cases ss with
    | nil => exact ⟨rfl, (List.cons.inj h).2⟩
    | cons s ss => exact absurd h.symm (flatMap_text_cons_ne s ss y x)
  | cons r rs ih =>
    cases ss with
    | nil => exact absurd h (flatMap_text_cons_ne r rs x y)
    | cons s ss =>
      obtain ⟨c, tail, htail, hc, -⟩ := Cursor.exists_ranges_eq rs x
      obtain ⟨d, tail', htail', hd, -⟩ := Cursor.exists_ranges_eq ss y
      rw [List.flatMap_cons, List.flatMap_cons, List.append_assoc, List.append_assoc, htail,
        htail'] at h
      obtain ⟨rfl, hrest⟩ := text_append_inj hc hd h
      rw [← htail, ← htail'] at hrest
      obtain ⟨rfl, hxy⟩ := ih hrest
      exact ⟨rfl, hxy⟩

end CharRange

/-! ## Classes -/

namespace CharClass

variable {k l : CharClass}

theorem bracketText_append (k : CharClass) (x : List Char) : k.bracketText ++ x =
    '[' :: ((if k.inverted then ['^'] else []) ++ (k.parts.flatMap CharRange.text ++ ']' :: x)) := by
  simp [bracketText]

theorem bracketText_append_inj (h : k.bracketText ++ x = l.bracketText ++ y) : k = l ∧ x = y := by
  obtain ⟨parts, inverted⟩ := k
  obtain ⟨parts', inverted'⟩ := l
  rw [bracketText_append, bracketText_append, List.cons.injEq] at h
  obtain ⟨c, tail, htail, -, hc⟩ := Cursor.exists_ranges_eq parts x
  obtain ⟨d, tail', htail', -, hd⟩ := Cursor.exists_ranges_eq parts' y
  have hflag : inverted = inverted' := by
    rw [htail, htail'] at h
    cases inverted <;> cases inverted'
    · rfl
    · exact absurd (List.cons.inj h.2).1 hc
    · exact absurd (List.cons.inj h.2).1.symm hd
    · rfl
  subst hflag
  obtain ⟨rfl, hxy⟩ := CharRange.flatMap_text_append_inj (List.append_cancel_left h.2)
  exact ⟨rfl, hxy⟩

/-- The text of a class shows where it ends and how the class is stored. -/
theorem text_append_inj (h : k.text ++ x = l.text ++ y) : k = l ∧ x = y := by
  have hliteral {a c : Char} {x y : List Char} (hc : c = '.' ∨ c = '[') :
      literalText a ++ x ≠ c :: y := by
    rcases hc with rfl | rfl <;> exact escape_append_ne (by decide) (by decide)
  rcases k.text_cases with ⟨hk, htext⟩ | ⟨a, hk, htext⟩ | ⟨-, -, htext⟩ <;>
    rcases l.text_cases with ⟨hl, htext'⟩ | ⟨b, hl, htext'⟩ | ⟨-, -, htext'⟩ <;>
    rw [htext, htext'] at h
  · exact ⟨hk.trans hl.symm, List.append_cancel_left h⟩
  · exact absurd h.symm (hliteral (.inl rfl))
  · exact absurd (List.cons.inj h).1 (by decide)
  · exact absurd h (hliteral (.inl rfl))
  · obtain ⟨rfl, hxy⟩ := literalText_append_inj h
    exact ⟨hk.trans hl.symm, hxy⟩
  · exact absurd h (hliteral (.inr rfl))
  · exact absurd (List.cons.inj h).1 (by decide)
  · exact absurd h.symm (hliteral (.inr rfl))
  · exact bracketText_append_inj h

/-! ## Labels -/

/-- The class that a label is read as: `∅` as a lone character. -/
def labelled (k : CharClass) : CharClass := if k.isEmpty then .single '∅' else k

theorem isEmpty_iff_eq_empty : k.isEmpty = true ↔ k = .empty := by
  obtain ⟨parts, inverted⟩ := k
  cases parts <;> cases inverted <;> simp [isEmpty, empty]

theorem label_eq_text_labelled (k : CharClass) : k.label = k.labelled.text := by
  unfold label labelled
  split <;> rfl

theorem label_append_inj (h : k.label ++ x = l.label ++ y) : k.labelled = l.labelled ∧ x = y := by
  rw [label_eq_text_labelled, label_eq_text_labelled] at h
  exact text_append_inj h

/-- Classes with the same label are the empty one and the one of `∅`, or stored alike. -/
theorem eq_of_labelled_eq (h : k.labelled = l.labelled) :
    k = l ∨ (k = .empty ∧ l = .single '∅') ∨ (k = .single '∅' ∧ l = .empty) := by
  unfold labelled at h
  split at h <;> split at h
  · rename_i hk hl
    exact .inl ((isEmpty_iff_eq_empty.1 hk).trans (isEmpty_iff_eq_empty.1 hl).symm)
  · rename_i hk _
    exact .inr (.inl ⟨isEmpty_iff_eq_empty.1 hk, h.symm⟩)
  · rename_i _ hl
    exact .inr (.inr ⟨h, isEmpty_iff_eq_empty.1 hl⟩)
  · exact .inl h

end CharClass

end RegularLanguages
