import RegularLanguages.Proofs.Token.Extent
import RegularLanguages.Proofs.Token.Lexer
import RegularLanguages.Proofs.Token.Shift

/-!
# Texts are read piece by piece

A text that can be read to its end falls into pieces, one for each token, and each piece `Spells` its
token wherever it stands: no read looks beyond the piece that it takes. So the tokens of a text are
those of its pieces side by side, whatever is read after them, and each piece alone is read as its
token.
-/

namespace RegularLanguages

namespace Cursor

variable {text source : List Char} {t : Token} {span : Span} {p : Nat} {after : Cursor}

/-! ## Pieces -/

theorem settles_of_next (h : next ⟨p, source⟩ = (.ok ⟨some t, span⟩, after)) :
    Settles (Covers p) (fun text => next ⟨p, text⟩) p source := by
  cases source with
  | nil => cases h
  | cons c rest => exact settles_next p c rest

/-- The read of a token takes the text that spells it and nothing after that. -/
theorem Spells.next_eq (h : Spells text t) (p : Nat) (rest : List Char) :
    next ⟨p, text ++ rest⟩ =
      (.ok ⟨some t, ⟨p, p + text.length⟩⟩, ⟨p + text.length, rest⟩) := by
  obtain ⟨span, p', hnext⟩ := h p rest
  generalize hsource : text ++ rest = source at hnext ⊢
  -- the read is settled by a part of the source, and what is left after it tells by which
  cases settles_of_next hnext with
  | atEnd _ herror _ => cases hnext.symm.trans herror
  | early read result after _ _ hread hcovers =>
    cases hnext.symm.trans (hread after)
    obtain rfl : text = read := List.append_cancel_right hsource
    obtain rfl : span = ⟨p, p + text.length⟩ := hcovers.2
    exact hnext

theorem Spells.ne_nil (h : Spells text t) : text ≠ [] := by
  rintro rfl
  cases h.next_eq 0 []

/-- A token that is read at one place is read at every place. -/
theorem exists_next_eq (h : next ⟨p, source⟩ = (.ok ⟨some t, span⟩, after)) (q : Nat) :
    ∃ span' q', next ⟨q, source⟩ = (.ok ⟨some t, span'⟩, ⟨q', after.rest⟩) := by
  have hp := next_shift p ⟨0, source⟩
  have hq := next_shift q ⟨0, source⟩
  rw [shift, Nat.zero_add] at hp hq
  generalize next ⟨0, source⟩ = result at hp hq
  rw [h] at hp
  obtain ⟨e | ⟨t', span'⟩, after'⟩ := result
  · cases hp
  · cases hp
    exact ⟨_, _, hq⟩

/-- What is read as a token begins with a text that spells it. -/
theorem exists_spells_of_next (h : next ⟨p, source⟩ = (.ok ⟨some t, span⟩, after)) :
    ∃ text, Spells text t ∧ source = text ++ after.rest := by
  cases settles_of_next h with
  | atEnd _ herror _ => cases h.symm.trans herror
  | early read result after' _ _ hread _ =>
    cases h.symm.trans (hread after')
    exact ⟨read, fun q rest => exists_next_eq (hread rest) q, rfl⟩

/-! ## Texts -/

/-- Each text spells its token. -/
def SpellsAll (pieces : List (List Char × Token)) : Prop := ∀ i ∈ pieces, Spells i.1 i.2

/-- The tokens of pieces that lie side by side from `p` on. -/
def lay : Nat → List (List Char × Token) → List (Token × Span)
  | _, [] => []
  | p, (text, t) :: rest => (t, ⟨p, p + text.length⟩) :: lay (p + text.length) rest

variable {pieces : List (List Char × Token)}

/-- The pieces are read as their tokens, and reading goes on behind them. -/
theorem SpellsAll.scan_eq (h : SpellsAll pieces) (p : Nat) (rest : List Char) :
    (Cursor.mk p (pieces.flatMap Prod.fst ++ rest)).scan =
      let later := (Cursor.mk (p + (pieces.flatMap Prod.fst).length) rest).scan
      ⟨lay p pieces ++ later.tokens, later.ending⟩ := by
  induction pieces generalizing p with
  | nil => rfl
  | cons i pieces ih =>
    obtain ⟨text, t⟩ := i
    obtain ⟨hspells, hpieces⟩ := List.forall_mem_cons.1 h
    rw [List.flatMap_cons, List.append_assoc, scan_of_next (hspells.next_eq p _), ih hpieces,
      List.length_append, ← Nat.add_assoc]
    rfl

/-- The end of the source is read at the end only. -/
theorem rest_eq_nil_of_next (h : next ⟨p, source⟩ = (.ok ⟨none, span⟩, after)) : source = [] := by
  cases source with
  | nil => rfl
  | cons c rest =>
    generalize hsource : c :: rest = source at h
    cases hsource ▸ settles_next p c rest with
    | atEnd _ hread _ => cases h.symm.trans hread
    | early read result after' _ _ hread hcovers =>
      cases h.symm.trans (hread after')
      exact absurd hcovers.1 Bool.false_ne_true

/-- A text that can be read to its end consists of pieces that spell their tokens. -/
theorem exists_spellsAll {c : Cursor} (h : c.scan.ending = .ok span) :
    ∃ pieces, SpellsAll pieces ∧ c.rest = pieces.flatMap Prod.fst := by
  fun_induction scan c with
  | case1 => exact ⟨[], List.forall_mem_nil _, rfl⟩
  | case2 => cases h
  | case3 p c rest span' after hnext => cases rest_eq_nil_of_next hnext
  | case4 p c rest t span' after hnext later ih =>
    obtain ⟨text, hspells, hsource⟩ := exists_spells_of_next hnext
    obtain ⟨pieces, hpieces, hrest⟩ := ih h
    exact ⟨(text, t) :: pieces, List.forall_mem_cons.2 ⟨hspells, hpieces⟩,
      hsource.trans (congrArg (text ++ ·) hrest)⟩

/-- A token that was laid covers the text that spells it. -/
theorem slice_of_mem_lay (h : (t, span) ∈ lay p pieces) : p ≤ span.start ∧
    ∃ text, (text, t) ∈ pieces ∧ span.length = text.length ∧
      ((pieces.flatMap Prod.fst).drop (span.start - p)).take span.length = text := by
  induction pieces generalizing p with
  | nil => cases h
  | cons i pieces ih =>
    obtain ⟨text, t'⟩ := i
    rcases List.mem_cons.1 h with heq | h
    · cases heq
      have hlength : Span.length ⟨p, p + text.length⟩ = text.length := Nat.add_sub_cancel_left ..
      refine ⟨Nat.le_refl p, text, List.mem_cons_self .., hlength, ?_⟩
      rw [hlength, Nat.sub_self, List.drop_zero, List.flatMap_cons, List.take_left]
    · obtain ⟨hle, text', hmem, hlength, hslice⟩ := ih h
      refine ⟨Nat.le_trans (Nat.le_add_right ..) hle, text', List.mem_cons_of_mem _ hmem, hlength, ?_⟩
      have hdrop : text.drop (span.start - p) = [] := List.drop_eq_nil_of_le (by omega)
      rw [List.flatMap_cons, List.drop_append, hdrop, List.nil_append, Nat.sub_sub, hslice]

end Cursor

namespace TokenStream

open Cursor (Spells SpellsAll lay)

/-- The lexemes lie side by side from a position on up to `stop`. A token covers some characters,
and only the end of the source, which comes last, covers none. -/
inductive Tiles (stop : Nat) : Nat → List Lexeme → Prop where
  | ending : Tiles stop stop [⟨none, ⟨stop, stop⟩⟩]
  | token {p q : Nat} {t : Token} {ls : List Lexeme} :
      p < q → Tiles stop q ls → Tiles stop p (⟨some t, ⟨p, q⟩⟩ :: ls)

variable {pieces : List (List Char × Token)} {source : List Char} {ls : List Lexeme}

theorem lexemes_append_tokens (ts : List (Token × Span)) (s : TokenStream) :
    lexemes ⟨ts ++ s.tokens, s.ending⟩ = s.lexemes.map (ts.map lexeme ++ ·) := by
  obtain ⟨tokens, e | span⟩ := s
  · rfl
  · simp [lexemes, Except.map, lexeme]

/-- The lexemes of pieces and of what follows them. -/
theorem lexemes_of_spellsAll (h : SpellsAll pieces) (rest : List Char) :
    (ofSource (pieces.flatMap Prod.fst ++ rest)).lexemes =
      match (ofSource rest).lexemes with
      | .ok more => .ok ((lay 0 pieces).map lexeme ++
          more.map (·.shift (pieces.flatMap Prod.fst).length))
      | .error e => .error (e.shift (pieces.flatMap Prod.fst).length) := by
  have hlater := Cursor.scan_shift (pieces.flatMap Prod.fst).length (Cursor.start rest)
  rw [ofSource, Cursor.start, h.scan_eq 0 rest, lexemes_append_tokens]
  rw [Cursor.start, Cursor.shift] at hlater
  rw [hlater, lexemes_shift, ← Cursor.start, ← ofSource]
  cases (ofSource rest).lexemes <;> rfl

/-- The lexemes of pieces with nothing after them. -/
theorem lexemes_of_spellsAll_alone (h : SpellsAll pieces) :
    (ofSource (pieces.flatMap Prod.fst)).lexemes = .ok ((lay 0 pieces).map lexeme ++
      [⟨none, ⟨(pieces.flatMap Prod.fst).length, (pieces.flatMap Prod.fst).length⟩⟩]) := by
  have hnil : (ofSource []).lexemes = .ok [⟨none, ⟨0, 0⟩⟩] := by
    rw [ofSource, Cursor.start, Cursor.scan]
    rfl
  have happend := lexemes_of_spellsAll h []
  rw [List.append_nil, hnil] at happend
  simp only [happend, List.map_singleton, Lexeme.shift, Span.shift, Nat.zero_add]

theorem tiles_lay (h : SpellsAll pieces) (p : Nat) :
    Tiles (p + (pieces.flatMap Prod.fst).length) p ((lay p pieces).map lexeme ++
      [⟨none, ⟨p + (pieces.flatMap Prod.fst).length, p + (pieces.flatMap Prod.fst).length⟩⟩]) := by
  induction pieces generalizing p with
  | nil => exact .ending
  | cons i pieces ih =>
    obtain ⟨text, t⟩ := i
    obtain ⟨hspells, hpieces⟩ := List.forall_mem_cons.1 h
    have hpos : 0 < text.length := List.length_pos_iff.2 hspells.ne_nil
    rw [List.flatMap_cons, List.length_append, ← Nat.add_assoc]
    exact .token (Nat.lt_add_of_pos_right hpos) (ih hpieces _)

/-- A text that can be read to its end is read in the same way before any other text. Its tokens
lie side by side over all of it, and each of them is read again from the characters that it covers.
-/
theorem lexemes_compose (h : (ofSource source).lexemes = .ok ls) :
    (∀ rest, (ofSource (source ++ rest)).lexemes =
      match (ofSource rest).lexemes with
      | .ok more => .ok (ls.dropLast ++ more.map (·.shift source.length))
      | .error e => .error (e.shift source.length)) ∧
    Tiles source.length 0 ls ∧
    ∀ t span, ⟨some t, span⟩ ∈ ls →
      (ofSource ((source.drop span.start).take span.length)).lexemes =
        .ok [⟨some t, ⟨0, span.length⟩⟩, ⟨none, ⟨span.length, span.length⟩⟩] := by
  obtain ⟨_, hend, -⟩ := lexemes_eq_ok_iff.1 h
  obtain ⟨pieces, hpieces, hsource⟩ := Cursor.exists_spellsAll hend
  obtain rfl : source = pieces.flatMap Prod.fst := hsource
  cases h.symm.trans (lexemes_of_spellsAll_alone hpieces)
  refine ⟨fun rest => ?_, ?_, fun t span hmem => ?_⟩
  · rw [List.dropLast_concat, lexemes_of_spellsAll hpieces rest]
  · have htiles := tiles_lay hpieces 0
    rwa [Nat.zero_add] at htiles
  · have hlay : (t, span) ∈ lay 0 pieces := by simpa [lexeme] using hmem
    obtain ⟨-, text, hpiece, hlength, hslice⟩ := Cursor.slice_of_mem_lay hlay
    have hone : SpellsAll [(text, t)] := List.forall_mem_singleton.2 (hpieces _ hpiece)
    have hread := lexemes_of_spellsAll_alone hone
    rw [Nat.sub_zero] at hslice
    rw [hslice, hlength]
    simpa [lay, lexeme] using hread

/-- In `ß[^a-]\\]*` the dash stands before the closing bracket, which the next token escapes. -/
def dashed : List Lexeme :=
  [⟨some (.literal 'ß'), ⟨0, 1⟩⟩,
    ⟨some (.bracket (.ofRanges [.single 'a', .single '-'] true)), ⟨1, 6⟩⟩,
    ⟨some (.literal ']'), ⟨6, 8⟩⟩, ⟨some (.repetition .zeroOrMore), ⟨8, 9⟩⟩, ⟨none, ⟨9, 9⟩⟩]

theorem lexemes_compose_dashed :
    (ofSource "ß[^a-]\\]*".toList).lexemes = .ok dashed ∧ Tiles 9 0 dashed ∧
    (ofSource "ß[^a-]\\]*b[z-a]".toList).lexemes =
      .error ⟨.reversedRange 'z' 'a', ⟨11, 14⟩⟩ ∧
    (ofSource "[^a-]".toList).lexemes =
      .ok [⟨some (.bracket (.ofRanges [.single 'a', .single '-'] true)), ⟨0, 5⟩⟩, ⟨none, ⟨5, 5⟩⟩] := by
  have h : (ofSource "ß[^a-]\\]*".toList).lexemes = .ok dashed := by
    with_unfolding_all rfl
  have hrest : (ofSource "b[z-a]".toList).lexemes = .error ⟨.reversedRange 'z' 'a', ⟨2, 5⟩⟩ := by
    with_unfolding_all rfl
  obtain ⟨happend, htiles, hslice⟩ := lexemes_compose h
  have hread := happend "b[z-a]".toList
  rw [hrest] at hread
  exact ⟨h, htiles, hread, hslice _ ⟨1, 6⟩ (by simp [dashed])⟩

end TokenStream

end RegularLanguages
