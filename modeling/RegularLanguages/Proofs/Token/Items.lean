import RegularLanguages.Proofs.Token.Lexer

/-!
# Brackets read item by item

In the grammar of brackets an item is a member, or two members with a dash between them. Here a
bracket expression is read in this way: a member at a time, with a look at the next two characters
to tell whether a dash makes a range, and with `CharRange.between` to make it, which is a fault if
the bounds are reversed. The reader that takes one character at a time and never looks ahead comes
to the same, so no range is ever made of reversed bounds.
-/

namespace RegularLanguages

namespace Cursor

/-- Reads a member of the bracket expression opened at `opened`: a character, or the one after a
backslash. -/
def readMember (opened : Nat) (c : Cursor) : Except SyntaxError Char × Cursor :=
  match c.rest with
  | [] => (.error ⟨.unclosedClass, ⟨opened, c.position⟩⟩, ⟨c.position, []⟩)
  | ['\\'] => (.error ⟨.trailingBackslash, ⟨c.position, c.position + 1⟩⟩, ⟨c.position + 1, []⟩)
  | '\\' :: a :: rest => (.ok a, ⟨c.position + 2, rest⟩)
  | a :: rest => (.ok a, ⟨c.position + 1, rest⟩)

/-- Whether a range goes on here: with a dash, but not one before the closing bracket or the end. -/
def rangeFollows : List Char → Bool
  | '-' :: c :: _ => c ≠ ']'
  | _ => false

/-- Reads a member, or a range from one member to another. -/
def readItem (opened : Nat) (c : Cursor) : Except Fault (Except SyntaxError CharRange × Cursor) :=
  match readMember opened c with
  | (.error e, after) => .ok (.error e, after)
  | (.ok a, after) =>
    if rangeFollows after.rest then
      match readMember opened ⟨after.position + 1, after.rest.tail⟩ with
      | (.error e, after) => .ok (.error e, after)
      | (.ok b, after) =>
        if b < a then
          .ok (.error ⟨.reversedRange a b, ⟨c.position, after.position⟩⟩, after)
        else do
          let r ← CharRange.between a b
          return (.ok r, after)
    else .ok (.ok (.single a), after)

theorem readMember_of_ne {a : Char} (ha : a ≠ '\\') (opened p : Nat) (rest : List Char) :
    readMember opened ⟨p, a :: rest⟩ = (.ok a, ⟨p + 1, rest⟩) := by
  unfold readMember
  split <;> rename_i heq <;> cases heq
  · exact absurd rfl ha
  · exact absurd rfl ha
  · rfl

theorem readMember_rest_lt {opened : Nat} {c after : Cursor} {a : Char}
    (h : readMember opened c = (.ok a, after)) : after.rest.length < c.rest.length := by
  unfold readMember at h
  split at h <;> rename_i heq <;> cases h <;> simp only [heq, List.length_cons] <;> omega

theorem readItem_rest_lt {opened : Nat} {c after : Cursor} {r : CharRange}
    (h : readItem opened c = .ok (.ok r, after)) : after.rest.length < c.rest.length := by
  unfold readItem at h
  split at h
  · cases h
  · rename_i a stop hmember
    have hlt := readMember_rest_lt hmember
    split at h
    · split at h
      · cases h
      · rename_i b stop' hmember'
        have hlt' := readMember_rest_lt hmember'
        split at h
        · cases h
        · rename_i hba
          rw [CharRange.between, if_pos (Char.not_lt.1 hba)] at h
          cases h
          simp only [List.length_tail] at hlt'
          omega
    · cases h
      exact hlt

/-- Reads items up to the closing bracket, after `ranges`. -/
def readItems (opened : Nat) (ranges : List CharRange) (c : Cursor) :
    Except Fault (Except SyntaxError (List CharRange) × Cursor) :=
  match c.rest with
  | ']' :: rest => .ok (.ok ranges, ⟨c.position + 1, rest⟩)
  | _ =>
    match _h : readItem opened c with
    | .error fault => .error fault
    | .ok (.error e, after) => .ok (.error e, after)
    | .ok (.ok r, after) => readItems opened (ranges ++ [r]) after
termination_by c.rest.length
decreasing_by exact readItem_rest_lt _h

/-- Reads the bracket expression opened at `opened` from the cursor on. -/
def readBracketItems (opened : Nat) (inverted : Bool) (c : Cursor) :
    Except Fault (Except SyntaxError Lexeme × Cursor) := do
  match ← readItems opened [] c with
  | (.error e, after) => return (.error e, after)
  | (.ok ranges, after) =>
    return (.ok ⟨some (.bracket (.ofRanges ranges inverted)), ⟨opened, after.position⟩⟩, after)

/-- Reads one token, a bracket expression item by item. -/
def readToken : Cursor → Except Fault (Except SyntaxError Lexeme × Cursor)
  | ⟨p, '[' :: '^' :: rest⟩ => readBracketItems p true ⟨p + 2, rest⟩
  | ⟨p, '[' :: rest⟩ => readBracketItems p false ⟨p + 1, rest⟩
  | c => .ok c.next

variable {opened p start : Nat} {ranges : List CharRange} {a : Char} {rest : List Char}

/-! ## One item -/

theorem readRanges_of_member (hclose : ∀ more, rest ≠ ']' :: more) :
    readRanges opened ranges .item p rest =
      match readMember opened ⟨p, rest⟩ with
      | (.error e, after) => (.error e, after)
      | (.ok a, after) => readRanges opened ranges (.dash p a) after.position after.rest := by
  match rest with
  | [] => rfl
  | c :: rest =>
    have hc : c ≠ ']' := fun h => hclose rest (congrArg (· :: rest) h)
    by_cases hescape : c = '\\'
    · subst hescape
      cases rest with
      | nil => rfl
      | cons a rest => rfl
    · rw [readMember_of_ne hescape, readRanges, if_neg hc, Expecting.after, if_neg hescape]

/-- Without a range the member stands alone, and what comes after it begins a new item. -/
theorem readRanges_of_single (h : rangeFollows rest = false) :
    readRanges opened ranges (.dash start a) p rest =
      readRanges opened (ranges ++ [.single a]) .item p rest := by
  match rest with
  | [] => rfl
  | c :: rest =>
    by_cases hdash : c = '-'
    · subst hdash
      match rest with
      | [] => rfl
      | d :: rest =>
        obtain rfl : d = ']' := by simpa [rangeFollows] using h
        show (_, _) = (_, _)
        rw [List.append_assoc]
        rfl
    · exact readRanges_dash hdash

theorem readRanges_of_range (h : rangeFollows rest = true) :
    readRanges opened ranges (.dash start a) p rest =
      match readMember opened ⟨p + 1, rest.tail⟩ with
      | (.error e, after) => (.error e, after)
      | (.ok b, after) =>
        if a ≤ b then readRanges opened (ranges ++ [⟨a, b⟩]) .item after.position after.rest
        else (.error ⟨.reversedRange a b, ⟨start, after.position⟩⟩, after) := by
  unfold rangeFollows at h
  split at h
  · rename_i c rest
    have hc : c ≠ ']' := of_decide_eq_true h
    rw [readRanges, if_pos rfl, readRanges, if_neg hc, List.tail_cons]
    by_cases hescape : c = '\\'
    · subst hescape
      rw [if_pos rfl]
      cases rest with
      | nil => rfl
      | cons b rest => rfl
    · rw [if_neg hescape, readMember_of_ne hescape]
  · cases h

/-- An item is read without a fault, and reading goes on behind it. -/
theorem readItem_spec (opened : Nat) (ranges : List CharRange) (p : Nat)
    (hclose : ∀ more, rest ≠ ']' :: more) :
    ∃ result after, readItem opened ⟨p, rest⟩ = .ok (result, after) ∧
      readRanges opened ranges .item p rest =
        match result with
        | .error e => (.error e, after)
        | .ok r => readRanges opened (ranges ++ [r]) .item after.position after.rest := by
  rw [readRanges_of_member hclose, readItem]
  obtain ⟨e | a, after⟩ := readMember opened ⟨p, rest⟩
  · exact ⟨.error e, after, rfl, rfl⟩
  · cases hrange : rangeFollows after.rest with
    | false => exact ⟨.ok (.single a), after, by simp only [hrange]; rfl, readRanges_of_single hrange⟩
    | true =>
      simp only [readRanges_of_range hrange, hrange, if_true]
      obtain ⟨e | b, after'⟩ := readMember opened ⟨after.position + 1, after.rest.tail⟩
      · exact ⟨.error e, after', rfl, rfl⟩
      · by_cases hab : a ≤ b
        · refine ⟨.ok ⟨a, b⟩, after', ?_, if_pos hab⟩
          simp only [if_neg (Char.not_lt.2 hab), CharRange.between, if_pos hab]
          rfl
        · exact ⟨.error _, after', if_pos (Char.not_le.1 hab), if_neg hab⟩

/-! ## All items -/

theorem readItems_eq (opened : Nat) (ranges : List CharRange) (c : Cursor) :
    readItems opened ranges c = .ok (readRanges opened ranges .item c.position c.rest) := by
  fun_induction readItems opened ranges c with
  | case1 ranges c rest hrest => rw [hrest, readRanges, if_pos rfl]
  | case2 ranges c fault h hclose =>
    obtain ⟨_, _, hread, -⟩ := readItem_spec opened ranges c.position hclose
    cases h.symm.trans hread
  | case3 ranges c e after h hclose =>
    obtain ⟨_, _, hread, hranges⟩ := readItem_spec opened ranges c.position hclose
    cases h.symm.trans hread
    rw [hranges]
  | case4 ranges c r after h hclose ih =>
    obtain ⟨_, _, hread, hranges⟩ := readItem_spec opened ranges c.position hclose
    cases h.symm.trans hread
    rw [hranges, ih]

theorem readBracketItems_eq (opened : Nat) (inverted : Bool) (c : Cursor) :
    readBracketItems opened inverted c = .ok (readBracket opened inverted c.position c.rest) := by
  rw [readBracketItems, readItems_eq, readBracket]
  obtain ⟨e | ranges, after⟩ := readRanges opened [] .item c.position c.rest
  · rfl
  · rfl

/-- Reading brackets item by item comes to the same, and no range is made of reversed bounds. -/
theorem readToken_eq (c : Cursor) : c.readToken = .ok c.next := by
  unfold readToken
  split
  · exact readBracketItems_eq ..
  · rename_i p rest hcaret
    rw [readBracketItems_eq, next]
    exact hcaret
  · rfl

end Cursor

end RegularLanguages
