import RegularLanguages.Pattern.Parser

/-!
# Parsing with a stack

The parser calls itself for every group, so what it has read so far is spread over the calls under
way. Here it is a value: a `Frame` is an alternation under way, `Progress` has a frame for each open
group, and a token takes one progress to the next (`Progress.read`). An error then shows at the first
token that cannot follow the ones before it, wherever it stands.

`Progress.Follows` says that a reader of the parser and the stack go the same way from some place:
into the same error, or to a stack that holds what the reader gives. It is shown of each reader by
the recursion of the parser, and for a whole source it says that the two parse alike.
-/

namespace RegularLanguages

/-- An alternation under way: what stands before its last bar, and the parts read since then, the
last part first. -/
structure Frame where
  before : Option Pattern
  parts : List Pattern

namespace Frame

def start : Frame := ⟨none, []⟩

/-- The branch under way. -/
def branch (f : Frame) : Pattern := .ofParts f.parts.reverse

/-- The alternation, if it ends here. -/
def value (f : Frame) : Pattern :=
  match f.before with
  | none => f.branch
  | some p => .alternation p f.branch

def push (f : Frame) (p : Pattern) : Frame := ⟨f.before, p :: f.parts⟩

/-- The frame after the parts `ps`. -/
def pushAll (f : Frame) (ps : List Pattern) : Frame := ⟨f.before, ps.reverse ++ f.parts⟩

theorem pushAll_cons (f : Frame) (p : Pattern) (ps : List Pattern) :
    f.pushAll (p :: ps) = (f.push p).pushAll ps := by
  simp [pushAll, push]

/-- Ends the branch under way and starts the next one. -/
def bar (f : Frame) : Frame := ⟨some f.value, []⟩

/-- Applies a postfix operator to the last part. -/
def repeatLast? (f : Frame) (op : Repetition) : Option Frame :=
  match f.parts with
  | [] => none
  | p :: rest => some ⟨f.before, op.apply p :: rest⟩

end Frame

/-- The frame of the innermost open group, or of the whole pattern, and those around it. -/
structure Progress where
  current : Frame
  outer : List Frame

namespace Progress

def start : Progress := ⟨.start, []⟩

def push (s : Progress) (p : Pattern) : Progress := ⟨s.current.push p, s.outer⟩

/-- Reads one token. -/
def read (s : Progress) : Token × Span → Except SyntaxError Progress
  | (.literal c, _) => .ok (s.push (.literal (.single c)))
  | (.dot, _) => .ok (s.push (.literal .universal))
  | (.bracket k, _) => .ok (s.push (.literal k))
  | (.bar, _) => .ok ⟨s.current.bar, s.outer⟩
  | (.leftParen, _) => .ok ⟨.start, s.current :: s.outer⟩
  | (.rightParen, span) =>
    match s.outer with
    | [] => .error ⟨.unexpectedToken ⟨none, some .rightParen⟩, span⟩
    | f :: outer => .ok ⟨f.push s.current.value, outer⟩
  | (.repetition op, span) =>
    match s.current.repeatLast? op with
    | none => .error ⟨.nothingToRepeat op, span⟩
    | some f => .ok ⟨f, s.outer⟩

/-- The pattern read, if the source ends here. -/
def finish (s : Progress) (span : Span) : Except SyntaxError Pattern :=
  match s.outer with
  | [] => .ok s.current.value
  | _ :: _ => .error ⟨.unexpectedEnd, span⟩

/-- The pattern, if the tokens still to come are those of the stream. -/
def readAll (s : Progress) (stream : TokenStream) : Except SyntaxError Pattern := do
  let progress ← stream.tokens.foldlM Progress.read s
  progress.finish (← stream.ending)

section Cursor

variable {s : Progress} {c after : Cursor} {span : Span}

theorem readAll_of_fault {e : SyntaxError} (h : c.next = (.error e, after)) :
    s.readAll c.scan = .error e := by
  rw [Cursor.scan_of_next_error h]
  rfl

theorem readAll_of_end (h : c.next = (.ok ⟨none, span⟩, after)) :
    s.readAll c.scan = s.finish span := by
  rw [Cursor.scan_of_next_end h]
  rfl

theorem readAll_of_token {t : Token} (h : c.next = (.ok ⟨some t, span⟩, after)) :
    s.readAll c.scan = s.read (t, span) >>= (·.readAll after.scan) := by
  rw [Cursor.scan_of_next h, readAll, List.foldlM_cons, bind_assoc]
  rfl

theorem readAll_of_error {t : Token} {e : SyntaxError} (h : c.next = (.ok ⟨some t, span⟩, after))
    (hread : s.read (t, span) = .error e) : s.readAll c.scan = .error e := by
  rw [readAll_of_token h, hread]
  rfl

theorem readAll_of_ok {t : Token} {s' : Progress} (h : c.next = (.ok ⟨some t, span⟩, after))
    (hread : s.read (t, span) = .ok s') : s.readAll c.scan = s'.readAll after.scan := by
  rw [readAll_of_token h, hread]
  rfl

end Cursor

/-- The pattern, if the tokens still to come are those from `s` on. -/
def resume (P : Progress) (s : Lookahead) : Except SyntaxError Pattern :=
  match s.current with
  | ⟨none, span⟩ => P.finish span
  | ⟨some t, span⟩ => P.read (t, span) >>= (·.readAll s.after.scan)

/-- To go on from a cursor is to look at its token first. -/
theorem readAll_scan (P : Progress) (c : Cursor) :
    P.readAll c.scan = Lookahead.ofCursor c >>= fun s => P.resume s.1 := by
  unfold Lookahead.ofCursor
  split <;> rename_i hnext
  · exact readAll_of_fault hnext
  · rename_i lexeme after
    obtain ⟨_ | t, span⟩ := lexeme
    · exact readAll_of_end hnext
    · exact readAll_of_token hnext

/-! ## The parser and the stack go the same way -/

/-- From `P` at `s` the stack goes where a reader goes that gives `result`: into its error, or on to
a stack and a place that are as `Q` says of what it gives. -/
def Follows {α : Type} (P : Progress) (s : Lookahead) (result : Except SyntaxError α)
    (Q : α → Progress → Lookahead → Prop) : Prop :=
  match result with
  | .error e => P.resume s = .error e
  | .ok a => ∃ P' s', Q a P' s' ∧ P.resume s = P'.resume s'

section Follows

variable {α β : Type} {P P' : Progress} {s : Lookahead} {x : Except SyntaxError α}
  {Q : α → Progress → Lookahead → Prop} {R : β → Progress → Lookahead → Prop}

theorem follows_ok {a : α} (h : Q a P s) : P.Follows s (.ok a) Q := ⟨P, s, h, rfl⟩

theorem Follows.bind {f : α → Except SyntaxError β} (h : P.Follows s x Q)
    (hf : ∀ a P' s', Q a P' s' → P'.Follows s' (f a) R) : P.Follows s (x >>= f) R := by
  cases x with
  | error e => exact h
  | ok a =>
    obtain ⟨P', s', hQ, hresume⟩ := h
    have hfollows := hf a P' s' hQ
    change P.Follows s (f a) R
    cases hfa : f a with
    | error e =>
      rw [hfa] at hfollows
      exact hresume.trans hfollows
    | ok b =>
      rw [hfa] at hfollows
      obtain ⟨P'', s'', hR, hresume'⟩ := hfollows
      exact ⟨P'', s'', hR, hresume.trans hresume'⟩

theorem resume_of_token {t : Token} (h : s.current.token = some t) :
    P.resume s = P.read (t, s.current.span) >>= (·.readAll s.after.scan) := by
  obtain ⟨⟨_, span⟩, after⟩ := s
  obtain rfl : _ = some t := h
  rfl

theorem follows_error {t : Token} {e : SyntaxError} (h : s.current.token = some t)
    (hread : P.read (t, s.current.span) = .error e) : P.Follows s (.error e) Q := by
  change P.resume s = .error e
  rw [resume_of_token h, hread]
  rfl

theorem resume_of_end (h : s.current.token = none) : P.resume s = P.finish s.current.span := by
  obtain ⟨⟨_, span⟩, after⟩ := s
  obtain rfl : _ = none := h
  rfl

/-- To pass a token is to read it. -/
theorem follows_advance {t : Token} (h : s.current.token = some t)
    (hread : P.read (t, s.current.span) = .ok P') :
    P.Follows s (s.advance h) fun r P'' s' => P'' = P' ∧ r.1 = s' := by
  have hresume : P.resume s = Lookahead.ofCursor s.after >>= fun r => P'.resume r.1 := by
    rw [resume_of_token h, hread, ← readAll_scan]
    rfl
  unfold Lookahead.advance
  cases hnext : Lookahead.ofCursor s.after with
  | error e =>
    rw [hnext] at hresume
    exact hresume
  | ok r =>
    rw [hnext] at hresume
    exact ⟨P', r.1, ⟨rfl, rfl⟩, hresume⟩

end Follows

end Progress

namespace Lookahead

/-- The source or the innermost open group ends here. -/
def Closes (s : Lookahead) : Prop := s.current.token = none ∨ s.current.token = some .rightParen

/-- The branch under way ends here. -/
def EndsBranch (s : Lookahead) : Prop := s.Closes ∨ s.current.token = some .bar

def AtOperator (s : Lookahead) : Prop := ∃ op, s.current.token = some (.repetition op)

end Lookahead

namespace Progress

open Lookahead

theorem follows_repetitions (f : Frame) (outer : List Frame) (p : Pattern) (s : Lookahead) :
    Follows ⟨f.push p, outer⟩ s (repetitions p s) fun r P s' =>
      P = ⟨f.push r.1, outer⟩ ∧ r.2.1 = s' ∧ ¬s'.AtOperator := by
  rw [repetitions]
  split
  · rename_i op h
    refine (follows_advance h rfl).bind ?_
    rintro ⟨s₁, h₁⟩ _ _ ⟨rfl, rfl⟩
    refine (follows_repetitions f outer (op.apply p) s₁).bind ?_
    rintro ⟨q, s₂, h₂⟩ _ _ ⟨rfl, rfl, hoperator⟩
    exact follows_ok ⟨rfl, rfl, hoperator⟩
  · rename_i h
    exact follows_ok ⟨rfl, rfl, not_exists.2 h⟩
termination_by s.size

/-- The stack and the place after an atom is looked for at `s`: with one more part, or unchanged if
none starts there. -/
def AfterAtom (f : Frame) (outer : List Frame) (s : Lookahead) :
    Option (Pattern × s.Less) → Progress → Lookahead → Prop
  | none, P, s' => P = ⟨f, outer⟩ ∧ s = s' ∧ (s'.AtOperator ∨ s'.EndsBranch)
  | some (p, s₁), P, s' => P = ⟨f.push p, outer⟩ ∧ s₁.1 = s'

/-- The same after the postfix operators behind the atom. -/
def AfterPostfixed (f : Frame) (outer : List Frame) (s : Lookahead) :
    Option (Pattern × s.Less) → Progress → Lookahead → Prop
  | none, P, s' => P = ⟨f, outer⟩ ∧ s = s' ∧ s'.EndsBranch
  | some (p, s₁), P, s' => P = ⟨f.push p, outer⟩ ∧ s₁.1 = s' ∧ ¬s'.AtOperator

/-- A token that is a part by itself. -/
theorem follows_literal {f : Frame} {outer : List Frame} {s : Lookahead} {t : Token} {k : CharClass}
    {h : s.current.token = some t}
    (hread : ∀ span, read ⟨f, outer⟩ (t, span) = .ok ⟨f.push (.literal k), outer⟩) :
    Follows ⟨f, outer⟩ s (do return some (.literal k, ← s.advance h)) (AfterAtom f outer s) := by
  refine (follows_advance h (hread _)).bind ?_
  rintro s₁ _ _ ⟨rfl, rfl⟩
  exact follows_ok ⟨rfl, rfl⟩

/-- The group ends where its pattern does, or the source ends there. -/
theorem follows_close {f f' : Frame} {outer : List Frame} {s : Lookahead} (hs : s.Closes) :
    Follows ⟨f', f :: outer⟩ s s.close fun r P s' => P = ⟨f.push f'.value, outer⟩ ∧ r.1 = s' := by
  unfold close
  split
  · rename_i h
    exact follows_advance h rfl
  · rename_i h
    exact resume_of_end h
  · -- an alternation does not stop in front of any other token
    rename_i hne h
    rcases hs with hs | hs
    · cases hs.symm.trans h
    · cases hs.symm.trans h
      exact absurd rfl hne

-- The recursion is that of the readers: only a group asks for an alternation again, and by then its
-- parenthesis is passed.
mutual

theorem follows_alternation (outer : List Frame) (s : Lookahead) :
    Follows ⟨.start, outer⟩ s s.alternation fun r P s' =>
      (∃ f : Frame, f.value = r.1 ∧ P = ⟨f, outer⟩) ∧ r.2.1 = s' ∧ s'.Closes := by
  rw [alternation]
  refine (follows_concatenation none outer s).bind ?_
  rintro ⟨p, s₁, h₁⟩ _ _ ⟨⟨f, hbefore, hbranch, rfl⟩, rfl, hends⟩
  have hvalue : f.value = p := by rw [Frame.value, hbefore, hbranch]
  refine (follows_branches hvalue outer hends).bind ?_
  rintro ⟨q, s₂, h₂⟩ _ _ ⟨hf, rfl, hcloses⟩
  exact follows_ok ⟨hf, rfl, hcloses⟩
termination_by (s.size, 5)
decreasing_by
  · exact Prod.Lex.right _ (by decide)
  · exact Prod.Lex.right' _ h₁ (by decide)

/-- The frame holds the branches read so far, also those before a bar. -/
theorem follows_branches {f : Frame} {p : Pattern} {s : Lookahead} (hf : f.value = p)
    (outer : List Frame) (hs : s.EndsBranch) :
    Follows ⟨f, outer⟩ s (branches p s) fun r P s' =>
      (∃ f : Frame, f.value = r.1 ∧ P = ⟨f, outer⟩) ∧ r.2.1 = s' ∧ s'.Closes := by
  rw [branches]
  split
  · rename_i h
    refine (follows_advance h rfl).bind ?_
    rintro ⟨s₁, h₁⟩ _ _ ⟨rfl, rfl⟩
    refine (follows_concatenation (some f.value) outer s₁).bind ?_
    rintro ⟨q, s₂, h₂⟩ _ _ ⟨⟨f', hbefore, hbranch, rfl⟩, rfl, hends⟩
    have hvalue : f'.value = .alternation p q := by rw [Frame.value, hbefore, hbranch, hf]
    refine (follows_branches hvalue outer hends).bind ?_
    rintro ⟨r, s₃, h₃⟩ _ _ ⟨hf', rfl, hcloses⟩
    exact follows_ok ⟨hf', rfl, hcloses⟩
  · rename_i h
    exact follows_ok ⟨⟨f, hf, rfl⟩, rfl, hs.resolve_right h⟩
termination_by (s.size, 0)

theorem follows_concatenation (before : Option Pattern) (outer : List Frame) (s : Lookahead) :
    Follows ⟨⟨before, []⟩, outer⟩ s s.concatenation fun r P s' =>
      (∃ f : Frame, f.before = before ∧ f.branch = r.1 ∧ P = ⟨f, outer⟩) ∧ r.2.1 = s' ∧
        s'.EndsBranch := by
  rw [concatenation]
  refine (follows_parts outer (.inl rfl)).bind ?_
  rintro ⟨ps, s₁⟩ _ _ ⟨rfl, rfl, hends⟩
  refine follows_ok ⟨⟨_, rfl, ?_, rfl⟩, rfl, hends⟩
  rw [Frame.branch, Frame.pushAll, List.append_nil, List.reverse_reverse]
termination_by (s.size, 4)

/-- The stack applies an operator wherever there is a part, so none may come next but at the start of
the branch, where it is an error for both. -/
theorem follows_parts {f : Frame} {s : Lookahead} (outer : List Frame)
    (hf : f.parts = [] ∨ ¬s.AtOperator) :
    Follows ⟨f, outer⟩ s s.parts fun r P s' =>
      P = ⟨f.pushAll r.1, outer⟩ ∧ r.2.1 = s' ∧ s'.EndsBranch := by
  rw [parts]
  refine (follows_postfixed outer hf).bind ?_
  rintro (_ | ⟨p, s₁, h₁⟩) _ _ hpart
  · obtain ⟨rfl, rfl, hends⟩ := hpart
    exact follows_ok ⟨rfl, rfl, hends⟩
  · obtain ⟨rfl, rfl, hoperator⟩ := hpart
    refine (follows_parts outer (.inr hoperator)).bind ?_
    rintro ⟨ps, s₂, h₂⟩ _ _ ⟨rfl, rfl, hends⟩
    exact follows_ok ⟨by rw [Frame.pushAll_cons], rfl, hends⟩
termination_by (s.size, 3)

theorem follows_postfixed {f : Frame} {s : Lookahead} (outer : List Frame)
    (hf : f.parts = [] ∨ ¬s.AtOperator) :
    Follows ⟨f, outer⟩ s s.postfixed (AfterPostfixed f outer s) := by
  rw [postfixed]
  refine (follows_atom f outer s).bind ?_
  rintro (_ | ⟨p, s₁, h₁⟩) _ _ hatom
  · obtain ⟨rfl, rfl, hends⟩ := hatom
    dsimp only
    split
    · rename_i op hop
      refine follows_error hop ?_
      obtain ⟨before, parts⟩ := f
      obtain rfl : parts = [] := hf.resolve_right (not_not_intro ⟨op, hop⟩)
      rfl
    · rename_i hne
      exact follows_ok ⟨rfl, rfl, hends.resolve_left (not_exists.2 hne)⟩
  · obtain ⟨rfl, rfl⟩ := hatom
    refine (follows_repetitions f outer p s₁).bind ?_
    rintro ⟨q, s₂, h₂⟩ _ _ ⟨rfl, rfl, hoperator⟩
    exact follows_ok ⟨rfl, rfl, hoperator⟩
termination_by (s.size, 2)

theorem follows_atom (f : Frame) (outer : List Frame) (s : Lookahead) :
    Follows ⟨f, outer⟩ s s.atom (AfterAtom f outer s) := by
  rw [atom]
  split
  · rename_i h
    refine (follows_group outer h).bind ?_
    rintro ⟨p, s₁, h₁⟩ _ _ ⟨rfl, rfl⟩
    exact follows_ok ⟨rfl, rfl⟩
  · exact follows_literal fun _ => rfl
  · exact follows_literal fun _ => rfl
  · exact follows_literal fun _ => rfl
  · rename_i hopen hliteral hdot hbracket
    refine follows_ok ⟨rfl, rfl, ?_⟩
    rcases htoken : s.current.token with _ | t
    · exact .inr (.inl (.inl htoken))
    · cases t with
      | leftParen => exact absurd htoken hopen
      | rightParen => exact .inr (.inl (.inr htoken))
      | bar => exact .inr (.inr htoken)
      | repetition op => exact .inl ⟨op, htoken⟩
      | dot => exact absurd htoken hdot
      | literal c => exact absurd htoken (hliteral c)
      | bracket k => exact absurd htoken (hbracket k)
termination_by (s.size, 1)

theorem follows_group {f : Frame} {s : Lookahead} (outer : List Frame)
    (h : s.current.token = some .leftParen) :
    Follows ⟨f, outer⟩ s (s.group h) fun r P s' => P = ⟨f.push r.1, outer⟩ ∧ r.2.1 = s' := by
  rw [group]
  refine (follows_advance h rfl).bind ?_
  rintro ⟨s₁, h₁⟩ _ _ ⟨rfl, rfl⟩
  refine (follows_alternation (f :: outer) s₁).bind ?_
  rintro ⟨p, s₂, h₂⟩ _ _ ⟨⟨f', rfl, rfl⟩, rfl, hcloses⟩
  refine (follows_close hcloses).bind ?_
  rintro ⟨s₃, h₃⟩ _ _ ⟨rfl, rfl⟩
  exact follows_ok ⟨rfl, rfl⟩
termination_by (s.size, 0)

end

end Progress

/-- At a closing parenthesis that no group waits for, both stop. -/
theorem Lookahead.parse_eq_resume (s : Lookahead) : s.parse = Progress.start.resume s := by
  have hfollows := Progress.follows_alternation [] s
  unfold Lookahead.parse
  rcases hread : s.alternation with e | ⟨p, s₁, h₁⟩
  · rw [hread] at hfollows
    exact Eq.symm hfollows
  · rw [hread] at hfollows
    obtain ⟨_, _, ⟨⟨f, rfl, rfl⟩, rfl, hcloses⟩, hresume⟩ := hfollows
    refine Eq.trans ?_ hresume.symm
    obtain ⟨⟨token, span⟩, after⟩ := s₁
    rcases hcloses with h | h
    · obtain rfl : token = none := h
      rfl
    · obtain rfl : token = some .rightParen := h
      rfl

namespace Pattern

/-- The pattern that a stream of tokens spells. -/
def ofTokens (s : TokenStream) : Except SyntaxError Pattern := Progress.start.readAll s

theorem parse_eq_ofTokens (source : List Char) : parse source = ofTokens (.ofSource source) := by
  rw [ofTokens, TokenStream.ofSource, Progress.readAll_scan]
  exact bind_congr fun s => s.1.parse_eq_resume

end Pattern

end RegularLanguages
