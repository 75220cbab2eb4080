import RegularLanguages.Proofs.Pattern.Language
import RegularLanguages.Proofs.Pattern.Progress
import RegularLanguages.Proofs.Token.Lexer

/-!
# The grammar that is read

A text is an `Operand` or `Parts` for a language if reading it, wherever it stands, adds one part or
some parts with that language to the frame under way. It is a `Branch` if it may be one side of a
bar: what is read before the bar and the text together have both languages. These are the places in
which a pattern is written, and they are closed under the ways of writing: parentheses make an
operand of a branch, parts may stand side by side, and a bar joins two branches.
-/

open Computability

namespace RegularLanguages

/-- Reading `text`, wherever it stands, takes the reader from `s` to `s'` and no further. -/
def Progress.Takes (text : List Char) (s s' : Progress) : Prop :=
  ∀ p rest, ∃ p' tokens, tokens.foldlM Progress.read s = .ok s' ∧
    (Cursor.mk p (text ++ rest)).scan =
      ⟨tokens ++ (Cursor.mk p' rest).scan.tokens, (Cursor.mk p' rest).scan.ending⟩

namespace Progress

variable {s s₁ s' : Progress} {text u v : List Char} {t : Token}

theorem takes_nil (s : Progress) : Takes [] s s := fun p _ => ⟨p, [], rfl, rfl⟩

theorem Takes.append (hu : Takes u s s₁) (hv : Takes v s₁ s') : Takes (u ++ v) s s' := by
  intro p rest
  obtain ⟨p₁, us, hus, hscan₁⟩ := hu p (v ++ rest)
  obtain ⟨p', vs, hvs, hscan⟩ := hv p₁ rest
  refine ⟨p', us ++ vs, ?_, ?_⟩
  · rw [List.foldlM_append, hus]
    exact hvs
  · rw [List.append_assoc, hscan₁, hscan, List.append_assoc]

theorem takes_token (ht : Cursor.Spells text t) (hs : ∀ span, s.read (t, span) = .ok s') :
    Takes text s s' := by
  intro p rest
  obtain ⟨span, p', hnext⟩ := ht p rest
  exact ⟨p', [(t, span)], by rw [List.foldlM_cons, hs]; rfl, Cursor.scan_of_next hnext⟩

theorem takes_bar (f : Frame) (outer : List Frame) : Takes ['|'] ⟨f, outer⟩ ⟨f.bar, outer⟩ :=
  takes_token (Cursor.spells_ofChar (by decide) (by decide)) fun _ => rfl

/-- A group is read as one part of the frame around it. -/
theorem takes_enclose {f f' : Frame} {outer : List Frame}
    (h : Takes text ⟨.start, f :: outer⟩ ⟨f', f :: outer⟩) :
    Takes ('(' :: (text ++ [')'])) ⟨f, outer⟩ ⟨f.push f'.value, outer⟩ := by
  have hopen : Takes ['('] ⟨f, outer⟩ ⟨.start, f :: outer⟩ :=
    takes_token (Cursor.spells_ofChar (by decide) (by decide)) fun _ => rfl
  have hclose : Takes [')'] ⟨f', f :: outer⟩ ⟨f.push f'.value, outer⟩ :=
    takes_token (Cursor.spells_ofChar (by decide) (by decide)) fun _ => rfl
  exact hopen.append (h.append hclose)

/-- A postfix operator is read behind the part that it applies to. -/
theorem takes_repetition (op : Repetition) (f : Frame) (p : Pattern) (outer : List Frame) :
    Takes [op.symbol] ⟨f.push p, outer⟩ ⟨f.push (op.apply p), outer⟩ := by
  have hspells : Cursor.Spells [op.symbol] (.repetition op) := by
    cases op <;> exact Cursor.spells_ofChar (by decide) (by decide)
  exact takes_token hspells fun _ => rfl

/-- A text that is read to its end without open groups is parsed. -/
theorem Takes.parse {f : Frame} (h : Takes text .start ⟨f, []⟩) :
    Pattern.parse text = .ok f.value := by
  obtain ⟨p', tokens, htokens, hscan⟩ := h 0 []
  have hend : (Cursor.mk p' []).scan = ⟨[], .ok ⟨p', p'⟩⟩ := by rw [Cursor.scan]
  rw [hend, List.append_nil, List.append_nil] at hscan
  rw [Pattern.parse_eq_ofTokens, Pattern.ofTokens, TokenStream.ofSource, Cursor.start, hscan,
    readAll, htokens]
  rfl

end Progress

open Progress (Takes)

/-! ## The places of a pattern -/

/-- One part is read. -/
def Operand (text : List Char) (L : Language Char) : Prop :=
  ∃ p : Pattern, p.language = L ∧ ∀ f outer, Takes text ⟨f, outer⟩ ⟨f.push p, outer⟩

/-- Some parts are read, one after another. -/
def Parts (text : List Char) (L : Language Char) : Prop :=
  ∃ ps : List Pattern, (ps.map Pattern.language).prod = L ∧
    ∀ f outer, Takes text ⟨f, outer⟩ ⟨f.pushAll ps, outer⟩

/-- The text is read as one side of a bar, whatever stands on the other side before it. -/
def Branch (text : List Char) (L : Language Char) : Prop :=
  ∀ before : Option Pattern, ∃ f : Frame,
    f.value.language = before.elim 0 Pattern.language + L ∧
    ∀ outer, Takes text ⟨⟨before, []⟩, outer⟩ ⟨f, outer⟩

variable {u v : List Char} {K L : Language Char}

theorem Frame.language_value (f : Frame) : f.value.language =
    f.before.elim 0 Pattern.language + (f.parts.reverse.map Pattern.language).prod := by
  obtain ⟨before, parts⟩ := f
  cases before with
  | none => rw [value, branch, Pattern.language_ofParts, Option.elim_none, zero_add]
  | some p =>
    rw [value, Pattern.language_alternation, branch, Pattern.language_ofParts, Option.elim_some]

theorem Operand.parts (h : Operand u L) : Parts u L := by
  obtain ⟨p, hp, htakes⟩ := h
  exact ⟨[p], by rw [List.map_singleton, List.prod_singleton, hp], htakes⟩

theorem Parts.branch (h : Parts u L) : Branch u L := by
  obtain ⟨ps, hps, htakes⟩ := h
  intro before
  refine ⟨Frame.pushAll ⟨before, []⟩ ps, ?_, htakes ⟨before, []⟩⟩
  rw [Frame.language_value, Frame.pushAll, List.append_nil, List.reverse_reverse, hps]

theorem parts_nil : Parts [] 1 := ⟨[], rfl, fun f outer => Progress.takes_nil ⟨f, outer⟩⟩

theorem Parts.append (hu : Parts u K) (hv : Parts v L) : Parts (u ++ v) (K * L) := by
  obtain ⟨ps, rfl, hu⟩ := hu
  obtain ⟨qs, rfl, hv⟩ := hv
  refine ⟨ps ++ qs, by rw [List.map_append, List.prod_append], fun f outer => ?_⟩
  have hpush : f.pushAll (ps ++ qs) = (f.pushAll ps).pushAll qs := by
    simp only [Frame.pushAll, List.reverse_append, List.append_assoc]
  rw [hpush]
  exact (hu f outer).append (hv _ outer)

/-- Two branches with a bar between them. -/
theorem Branch.bar (hu : Branch u K) (hv : Branch v L) : Branch (u ++ '|' :: v) (K + L) := by
  intro before
  obtain ⟨f, hf, htakes⟩ := hu before
  obtain ⟨f', hf', htakes'⟩ := hv (some f.value)
  refine ⟨f', by rw [hf', Option.elim_some, hf, add_assoc], fun outer => ?_⟩
  exact (htakes outer).append ((Progress.takes_bar f outer).append (htakes' outer))

/-- A branch in parentheses. -/
theorem Branch.enclose (h : Branch u L) : Operand ('(' :: (u ++ [')'])) L := by
  obtain ⟨f', hf', htakes⟩ := h none
  exact ⟨f'.value, by rw [hf', Option.elim_none, zero_add],
    fun f outer => Progress.takes_enclose (htakes (f :: outer))⟩

/-- A postfix operator behind its operand. -/
theorem Operand.repeat (h : Operand u K) (op : Repetition)
    (hop : ∀ p : Pattern, p.language = K → (op.apply p).language = L) :
    Operand (u ++ [op.symbol]) L := by
  obtain ⟨p, hp, htakes⟩ := h
  exact ⟨op.apply p, hop p hp,
    fun f outer => (htakes f outer).append (Progress.takes_repetition op f p outer)⟩

theorem Operand.optional (h : Operand u L) : Operand (u ++ ['?']) (L + 1) :=
  h.repeat .zeroOrOne fun p hp => by
    rw [Repetition.apply, Pattern.language_alternation, hp, Pattern.language_empty]

theorem Operand.many (h : Operand u L) : Operand (u ++ ['*']) L∗ :=
  h.repeat .zeroOrMore fun p hp => by rw [Repetition.apply, Pattern.language_star, hp]

/-- A token that is read as a class of the characters of `k`. -/
theorem operand_literal {k k' : CharClass} {t : Token} (ht : Cursor.Spells u t)
    (hread : ∀ s span, Progress.read s (t, span) = .ok (s.push (.literal k')))
    (hk : ∀ c, c ∈ k' ↔ c ∈ k) : Operand u (Pattern.literal k).language := by
  refine ⟨.literal k', ?_, fun f outer => Progress.takes_token ht (hread ⟨f, outer⟩)⟩
  ext w
  simp only [Pattern.mem_language_literal, hk]

/-- A text that is a branch as a whole is read as a pattern for its language. -/
theorem Branch.parse (h : Branch u L) : ∃ p, Pattern.parse u = .ok p ∧ p.language = L := by
  obtain ⟨f, hf, htakes⟩ := h none
  exact ⟨f.value, (htakes []).parse, by rw [hf, Option.elim_none, zero_add]⟩

end RegularLanguages
