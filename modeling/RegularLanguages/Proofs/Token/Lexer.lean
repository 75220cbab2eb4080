import RegularLanguages.Proofs.CharClass.Canonical
import RegularLanguages.Token.Lexer

/-!
# Written tokens are read back

`Spells text t` says that `text` is read as the token `t` wherever it stands. A written class spells
a token for the same characters: inside brackets every character that could end a member or begin
something else has its backslash, so each range is read back as it was written, whatever follows.
-/

namespace RegularLanguages

namespace Cursor

/-! ## Members of brackets -/

section Brackets

variable {opened start p : Nat} {ranges : List CharRange} {a b c : Char} {rest : List Char}

/-- A character that has no meaning in brackets begins an item. -/
theorem readRanges_item (hc : isBracketChar c = false) :
    readRanges opened ranges .item p (c :: rest) =
      readRanges opened ranges (.dash p c) (p + 1) rest := by
  have hclose : c ≠ ']' := fun h => by simp [h, isBracketChar] at hc
  have hescape : c ≠ '\\' := fun h => by simp [h, isBracketChar] at hc
  rw [readRanges, if_neg hclose, Expecting.after, if_neg hescape]

/-- The first character of an item as it is written. -/
theorem readRanges_memberText (opened : Nat) (ranges : List CharRange) (p : Nat) (a : Char)
    (rest : List Char) : ∃ start p', readRanges opened ranges .item p (memberText a ++ rest) =
      readRanges opened ranges (.dash start a) p' rest := by
  unfold memberText
  split
  · exact ⟨p, p + 2, rfl⟩
  · rename_i ha
    exact ⟨p, p + 1, readRanges_item (Bool.eq_false_iff.2 ha)⟩

/-- The last character of a range as it is written. -/
theorem readRanges_last (hab : a ≤ b) :
    ∃ p', readRanges opened ranges (.last start a) p (memberText b ++ rest) =
      readRanges opened (ranges ++ [⟨a, b⟩]) .item p' rest := by
  unfold memberText
  split
  · refine ⟨p + 2, ?_⟩
    show readRanges opened ranges (.escapedLast start a p) (p + 1) (b :: rest) = _
    rw [readRanges, if_pos hab]
  · rename_i hb
    have hclose : b ≠ ']' := fun h => by simp [h, isBracketChar] at hb
    have hescape : b ≠ '\\' := fun h => by simp [h, isBracketChar] at hb
    refine ⟨p + 1, ?_⟩
    rw [List.cons_append, List.nil_append, readRanges, if_neg hclose, if_neg hescape, if_pos hab]

/-- An item ends where no dash follows. -/
theorem readRanges_dash (hc : c ≠ '-') :
    readRanges opened ranges (.dash start a) p (c :: rest) =
      readRanges opened (ranges ++ [.single a]) .item p (c :: rest) := by
  rw [readRanges, readRanges, if_neg hc]

theorem exists_memberText_eq (a : Char) :
    ∃ c rest, memberText a = c :: rest ∧ c ≠ '-' ∧ c ≠ '^' := by
  unfold memberText
  split
  · exact ⟨'\\', [a], rfl, by decide, by decide⟩
  · rename_i ha
    refine ⟨a, [], rfl, ?_, ?_⟩ <;> rintro rfl <;> exact ha (by decide)

/-- What stands in brackets begins neither with a dash nor with a caret. -/
theorem exists_ranges_eq (rs : List CharRange) (rest : List Char) :
    ∃ c rest', rs.flatMap CharRange.text ++ ']' :: rest = c :: rest' ∧ c ≠ '-' ∧ c ≠ '^' := by
  cases rs with
  | nil => exact ⟨']', rest, rfl, by decide, by decide⟩
  | cons r rs =>
    obtain ⟨c, tail, htail, hc⟩ := exists_memberText_eq r.first
    exact ⟨c, _, by rw [List.flatMap_cons, CharRange.text, htail]; rfl, hc⟩

theorem readRanges_text (opened : Nat) (ranges : List CharRange) (p : Nat) {r : CharRange}
    (hr : r.Ordered) (hc : c ≠ '-') (rest : List Char) :
    ∃ p', readRanges opened ranges .item p (r.text ++ c :: rest) =
      readRanges opened (ranges ++ [r]) .item p' (c :: rest) := by
  obtain ⟨start, p₁, hfirst⟩ := readRanges_memberText opened ranges p r.first
    ((if r.isSingle then [] else '-' :: memberText r.last) ++ c :: rest)
  rw [CharRange.text, List.append_assoc, hfirst]
  split
  · rename_i hsingle
    obtain ⟨first, last⟩ := r
    obtain rfl : first = last := of_decide_eq_true hsingle
    exact ⟨p₁, readRanges_dash hc⟩
  · exact readRanges_last hr

theorem readRanges_flatMap (opened : Nat) (ranges : List CharRange) (p : Nat)
    {rs : List CharRange} (hrs : ∀ r ∈ rs, r.Ordered) (rest : List Char) :
    ∃ p', readRanges opened ranges .item p (rs.flatMap CharRange.text ++ ']' :: rest) =
      (.ok (ranges ++ rs), ⟨p', rest⟩) := by
  induction rs generalizing ranges p with
  | nil => exact ⟨p + 1, by rw [List.append_nil]; rfl⟩
  | cons r rs ih =>
    obtain ⟨hr, hrs⟩ := List.forall_mem_cons.1 hrs
    obtain ⟨c, tail, htail, hc, -⟩ := exists_ranges_eq rs rest
    obtain ⟨p₁, hp₁⟩ := readRanges_text opened ranges p hr hc tail
    obtain ⟨p', hp'⟩ := ih (ranges ++ [r]) p₁ hrs
    refine ⟨p', ?_⟩
    rw [List.flatMap_cons, List.append_assoc, htail, hp₁, ← htail, hp', List.append_assoc]
    rfl

end Brackets

/-! ## Tokens -/

/-- Wherever `text` stands, `t` is read and nothing after it. -/
def Spells (text : List Char) (t : Token) : Prop :=
  ∀ p rest, ∃ span p', next ⟨p, text ++ rest⟩ = (.ok ⟨some t, span⟩, ⟨p', rest⟩)

theorem spells_ofChar {c : Char} (hopen : c ≠ '[') (hescape : c ≠ '\\') :
    Spells [c] (.ofChar c) :=
  fun p rest => ⟨⟨p, p + 1⟩, p + 1, next_ofChar hopen hescape p rest⟩

theorem ofChar_eq_literal {c : Char} (hc : isOperatorChar c = false) :
    Token.ofChar c = .literal c := by
  unfold Token.ofChar
  split
  all_goals first | rfl | exact absurd hc (by decide)

theorem spells_literalText (c : Char) : Spells (literalText c) (.literal c) := by
  unfold literalText
  split
  · exact fun p _ => ⟨⟨p, p + 2⟩, p + 2, rfl⟩
  · rename_i hc
    have hopen : c ≠ '[' := fun h => hc (h ▸ by decide)
    have hescape : c ≠ '\\' := fun h => hc (h ▸ by decide)
    exact ofChar_eq_literal (Bool.eq_false_iff.2 hc) ▸ spells_ofChar hopen hescape

theorem spells_bracketText {k : CharClass} (hk : k.Ordered) :
    Spells k.bracketText (.bracket (.ofRanges k.parts k.inverted)) := by
  intro p rest
  obtain ⟨parts, inverted⟩ := k
  have hread (q : Nat) : ∃ span p', readBracket p inverted q
      (parts.flatMap CharRange.text ++ ']' :: rest) =
        (.ok ⟨some (.bracket (.ofRanges parts inverted)), span⟩, ⟨p', rest⟩) := by
    obtain ⟨p', hp'⟩ := readRanges_flatMap p [] q hk rest
    exact ⟨_, p', by rw [readBracket, hp']; rfl⟩
  cases inverted with
  | true =>
    obtain ⟨span, p', hp'⟩ := hread (p + 2)
    have htext : CharClass.bracketText ⟨parts, true⟩ ++ rest =
        '[' :: '^' :: (parts.flatMap CharRange.text ++ ']' :: rest) := by
      simp [CharClass.bracketText]
    exact ⟨span, p', by rw [htext, next, hp']⟩
  | false =>
    obtain ⟨span, p', hp'⟩ := hread (p + 1)
    obtain ⟨c, tail, htail, -, hcaret⟩ := exists_ranges_eq parts rest
    have htext : CharClass.bracketText ⟨parts, false⟩ ++ rest = '[' :: c :: tail := by
      simp [CharClass.bracketText, ← htail]
    refine ⟨span, p', ?_⟩
    rw [htext, next, ← htail, hp']
    rintro _ ⟨⟩
    exact hcaret rfl

end Cursor

/-- The three ways in which a class is written. -/
theorem CharClass.text_cases (k : CharClass) :
    (k = .universal ∧ k.text = ['.']) ∨ (∃ c, k = .single c ∧ k.text = literalText c) ∨
      (k ≠ .universal ∧ (∀ c, k ≠ .single c) ∧ k.text = k.bracketText) := by
  unfold text
  split
  · exact .inl ⟨rfl, rfl⟩
  · rename_i r
    obtain ⟨first, last⟩ := r
    split
    · rename_i hsingle
      obtain rfl : first = last := of_decide_eq_true hsingle
      exact .inr (.inl ⟨first, rfl, rfl⟩)
    · rename_i hsingle
      refine .inr (.inr ⟨nofun, fun c hc => hsingle ?_, rfl⟩)
      cases hc
      exact decide_eq_true rfl
  · rename_i huniversal hrange
    exact .inr (.inr ⟨huniversal, fun c => hrange (.single c), rfl⟩)

namespace Cursor

/-! ## Brackets are read as canonical classes -/

theorem ordered_of_readRanges {opened p : Nat} {e : Expecting} {ranges rs : List CharRange}
    {rest : List Char} {after : Cursor} (hranges : ∀ r ∈ ranges, r.Ordered)
    (h : readRanges opened ranges e p rest = (.ok rs, after)) : ∀ r ∈ rs, r.Ordered := by
  have hconcat {rs : List CharRange} {r : CharRange} (hrs : ∀ r ∈ rs, r.Ordered) (hr : r.Ordered) :
      ∀ r' ∈ rs ++ [r], r'.Ordered :=
    List.forall_mem_append.2 ⟨hrs, List.forall_mem_singleton.2 hr⟩
  have hsingle (c : Char) : (CharRange.single c).Ordered := Char.le_refl c
  fun_induction readRanges opened ranges e p rest with
  | case1 | case2 | case3 | case13 | case15 => cases h
  | case4 =>
    cases h
    exact hranges
  | case5 _ _ _ _ _ ih | case6 _ _ _ _ _ ih | case7 _ _ _ _ _ ih | case11 _ _ _ _ _ _ ih =>
    exact ih hranges h
  | case8 =>
    cases h
    exact hconcat hranges (hsingle _)
  | case9 _ _ _ _ _ _ _ _ ih => exact ih (hconcat hranges (hsingle _)) h
  | case10 =>
    cases h
    rw [List.append_cons]
    exact hconcat (hconcat hranges (hsingle _)) (hsingle _)
  | case12 _ _ _ _ _ _ _ _ hac ih => exact ih (hconcat hranges hac) h
  | case14 _ _ _ _ _ _ _ hac ih => exact ih (hconcat hranges hac) h

theorem canonical_of_readBracket {opened p : Nat} {inverted : Bool} {rest : List Char}
    {k : CharClass} {span : Span} {after : Cursor}
    (h : readBracket opened inverted p rest = (.ok ⟨some (.bracket k), span⟩, after)) :
    k.Canonical := by
  unfold readBracket at h
  split at h
  · cases h
  · rename_i hread
    cases h
    have hordered := ordered_of_readRanges (List.forall_mem_nil _) hread
    exact CharClass.canonical_ofRanges hordered inverted

theorem ofChar_ne_bracket (c : Char) (k : CharClass) : Token.ofChar c ≠ .bracket k := by
  unfold Token.ofChar
  split <;> nofun

theorem canonical_of_next {c after : Cursor} {k : CharClass} {span : Span}
    (h : c.next = (.ok ⟨some (.bracket k), span⟩, after)) : k.Canonical := by
  unfold next at h
  split at h
  · cases h
  · exact canonical_of_readBracket h
  · exact canonical_of_readBracket h
  · cases h
  · cases h
  · simp only [Prod.mk.injEq, Except.ok.injEq, Lexeme.mk.injEq, Option.some.injEq] at h
    exact absurd h.1.1 (ofChar_ne_bracket _ k)

/-- Among the tokens of a source. -/
theorem canonical_of_mem_scan (c : Cursor) {k : CharClass} {span : Span}
    (h : (.bracket k, span) ∈ c.scan.tokens) : k.Canonical := by
  fun_induction Cursor.scan c with
  | case1 => cases h
  | case2 => cases h
  | case3 => cases h
  | case4 _ _ _ _ _ _ hnext _ ih =>
    rcases List.mem_cons.1 h with heq | h
    · cases heq
      exact canonical_of_next hnext
    · exact ih h

end Cursor

end RegularLanguages
