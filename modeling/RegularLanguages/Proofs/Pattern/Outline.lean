import RegularLanguages.Proofs.Pattern.Progress
import RegularLanguages.Proofs.Token.Extent

/-!
# The first error from left to right

To find the error in a pattern one needs no tree: `Outline.scan` reads tokens one at a time and
keeps the last token and the number of open groups, nothing else. Parsing succeeds or fails just as
this scan does, as the outline follows the stack and the stack the parser. What the scan says of an
error then holds of parsing: which token is expected and found, where its span lies, and that nothing
after the token at fault had a part in it.
-/

namespace RegularLanguages

/-- What is kept of the tokens read: the last of them, and how many groups are open. -/
structure Outline where
  previous : Option Token
  depth : Nat

namespace Outline

def start : Outline := ⟨none, 0⟩

/-- Nothing stands before the next token that could be repeated. -/
def bare (o : Outline) : Bool :=
  match o.previous with
  | none | some .leftParen | some .bar => true
  | some _ => false

/-- Reads one token. -/
def read (o : Outline) (t : Token) (span : Span) : Except SyntaxError Outline :=
  match t with
  | .repetition op =>
    if o.bare then .error ⟨.nothingToRepeat op, span⟩ else .ok ⟨some t, o.depth⟩
  | .leftParen => .ok ⟨some t, o.depth + 1⟩
  | .rightParen =>
    if o.depth = 0 then .error ⟨.unexpectedToken ⟨none, some .rightParen⟩, span⟩
    else .ok ⟨some t, o.depth - 1⟩
  | _ => .ok ⟨some t, o.depth⟩

/-- The source ends here. -/
def finish (o : Outline) (span : Span) : Except SyntaxError Unit :=
  if o.depth = 0 then .ok () else .error ⟨.unexpectedEnd, span⟩

/-- Reads tokens from the cursor on, up to the end of the source or the first error. -/
def scan (o : Outline) (c : Cursor) : Except SyntaxError Unit :=
  match _h : c.next with
  | (.error e, _) => .error e
  | (.ok ⟨none, span⟩, _) => o.finish span
  | (.ok ⟨some t, span⟩, after) =>
    match o.read t span with
    | .error e => .error e
    | .ok o' => o'.scan after
termination_by c.rest.length
decreasing_by exact Cursor.rest_lt_of_next _h

/-- The scan, one read at a time. -/
theorem scan_eq (o : Outline) (c : Cursor) : o.scan c =
    match c.next with
    | (.error e, _) => .error e
    | (.ok ⟨none, span⟩, _) => o.finish span
    | (.ok ⟨some t, span⟩, after) => o.read t span >>= (·.scan after) := by
  rw [scan]
  split <;> rename_i heq <;> simp only [heq]
  split <;> rename_i hread <;> rw [hread] <;> rfl

section Steps

variable {o o' : Outline} {c after : Cursor} {t : Token} {span : Span} {e : SyntaxError}

theorem scan_of_fault (h : c.next = (.error e, after)) : o.scan c = .error e := by
  rw [scan_eq, h]

theorem scan_of_end (h : c.next = (.ok ⟨none, span⟩, after)) : o.scan c = o.finish span := by
  rw [scan_eq, h]

theorem scan_of_token (h : c.next = (.ok ⟨some t, span⟩, after)) :
    o.scan c = o.read t span >>= (·.scan after) := by
  rw [scan_eq, h]

theorem scan_of_error (h : c.next = (.ok ⟨some t, span⟩, after))
    (hread : o.read t span = .error e) : o.scan c = .error e := by
  rw [scan_of_token h, hread]
  rfl

theorem scan_of_ok (h : c.next = (.ok ⟨some t, span⟩, after)) (hread : o.read t span = .ok o') :
    o.scan c = o'.scan after := by
  rw [scan_of_token h, hread]
  rfl

end Steps

/-! ## Parsing goes as the scan does -/

/-- The outline is of the tokens that led to the progress. -/
structure Follows (o : Outline) (s : Progress) : Prop where
  depth_eq : o.depth = s.outer.length
  bare_iff : o.bare = true ↔ s.current.parts = []

theorem follows_start : start.Follows .start := ⟨rfl, iff_of_true rfl rfl⟩

/-- One read fails for both in the same way, or for neither. -/
theorem Follows.read {o : Outline} {s : Progress} (h : o.Follows s) (t : Token) (span : Span) :
    (∃ e, s.read (t, span) = .error e ∧ o.read t span = .error e) ∨
      ∃ s' o', s.read (t, span) = .ok s' ∧ o.read t span = .ok o' ∧ o'.Follows s' := by
  obtain ⟨⟨before, parts⟩, outer⟩ := s
  cases t with
  | literal c => exact .inr ⟨_, _, rfl, rfl, h.depth_eq, iff_of_false nofun nofun⟩
  | dot => exact .inr ⟨_, _, rfl, rfl, h.depth_eq, iff_of_false nofun nofun⟩
  | bracket k => exact .inr ⟨_, _, rfl, rfl, h.depth_eq, iff_of_false nofun nofun⟩
  | bar => exact .inr ⟨_, _, rfl, rfl, h.depth_eq, iff_of_true rfl rfl⟩
  | leftParen =>
    exact .inr ⟨_, _, rfl, rfl, congrArg (· + 1) h.depth_eq, iff_of_true rfl rfl⟩
  | rightParen =>
    cases outer with
    | nil => exact .inl ⟨_, rfl, if_pos h.depth_eq⟩
    | cons f outer =>
      have hdepth : o.depth = outer.length + 1 := h.depth_eq
      exact .inr ⟨_, _, rfl, if_neg (by omega), by simp only; omega, iff_of_false nofun nofun⟩
  | repetition op =>
    cases parts with
    | nil => exact .inl ⟨_, rfl, if_pos (h.bare_iff.2 rfl)⟩
    | cons p rest =>
      have hbare : ¬o.bare = true := fun hb => absurd (h.bare_iff.1 hb) nofun
      exact .inr ⟨_, _, rfl, if_neg hbare, h.depth_eq, iff_of_false nofun nofun⟩

theorem Follows.finish {o : Outline} {s : Progress} (h : o.Follows s) (span : Span) :
    (s.finish span).map (fun _ => ()) = o.finish span := by
  obtain ⟨current, _ | ⟨f, outer⟩⟩ := s
  · exact (if_pos h.depth_eq).symm
  · have hdepth : o.depth = outer.length + 1 := h.depth_eq
    exact (if_neg (by omega)).symm

/-- A run of reads. -/
theorem Follows.scan {o : Outline} {s : Progress} (h : o.Follows s) (c : Cursor) :
    (s.readAll c.scan).map (fun _ => ()) = o.scan c := by
  fun_induction Outline.scan o c generalizing s with
  | case1 o c e after hnext =>
    rw [Progress.readAll_of_fault hnext]
    rfl
  | case2 o c span after hnext =>
    rw [Progress.readAll_of_end hnext]
    exact h.finish span
  | case3 o c t span after hnext e hread =>
    rcases h.read t span with ⟨e', hs, ho⟩ | ⟨s', o', -, ho, -⟩
    · cases ho.symm.trans hread
      rw [Progress.readAll_of_error hnext hs]
      rfl
    · cases ho.symm.trans hread
  | case4 o c t span after hnext o' hread ih =>
    rcases h.read t span with ⟨e', -, ho⟩ | ⟨s', o', hs, ho, hfollows⟩
    · cases ho.symm.trans hread
    · cases ho.symm.trans hread
      rw [Progress.readAll_of_ok hnext hs]
      exact ih hfollows

end Outline

/-! ## Where the error is -/

namespace SyntaxError

/-- The error is of a scan from `p` on: its span is not reversed, and it is empty at the end of the
source only. -/
structure Found (e : SyntaxError) (p : Nat) : Prop where
  le_start : p ≤ e.span.start
  start_le : e.span.start ≤ e.span.stop
  isEmpty_iff : e.span.isEmpty = true ↔ e.cause = .unexpectedEnd
  eq_rightParen : ∀ m, e.cause = .unexpectedToken m → m = ⟨none, some .rightParen⟩

variable {e : SyntaxError} {p q stop : Nat}

theorem Found.of_le (h : e.Found q) (hp : p ≤ q) : e.Found p :=
  { h with le_start := Nat.le_trans hp h.le_start }

theorem Lexical.found (h : e.Lexical p stop) : e.Found p where
  le_start := h.le_start
  start_le := Nat.le_of_lt h.start_lt
  isEmpty_iff := by
    refine iff_of_false (fun hempty => ?_) fun hcause => ?_
    · exact Nat.ne_of_lt h.start_lt (of_decide_eq_true hempty)
    · exact absurd h.isLexical (by rw [hcause]; exact Bool.false_ne_true)
  eq_rightParen m hcause := absurd h.isLexical (by rw [hcause]; exact Bool.false_ne_true)

/-- An unexpected token is told of in one way only. -/
theorem Found.message_eq {m : Mismatch} (h : e.Found p) (hcause : e.cause = .unexpectedToken m) :
    e.message = "parse error: expected EOF, found `)`" := by
  obtain ⟨cause, span⟩ := e
  obtain rfl : cause = .unexpectedToken m := hcause
  obtain rfl := h.eq_rightParen m rfl
  rfl

theorem found_unexpectedEnd (p n : Nat) : Found ⟨.unexpectedEnd, ⟨p + n, p + n⟩⟩ p where
  le_start := Nat.le_add_right p n
  start_le := Nat.le_refl _
  isEmpty_iff := iff_of_true (decide_eq_true rfl) rfl
  eq_rightParen := nofun

end SyntaxError

namespace Outline

variable {o : Outline} {p : Nat} {e : SyntaxError}

theorem found_of_read {t : Token} {n : Nat} (hn : 0 < n) (h : o.read t ⟨p, p + n⟩ = .error e) :
    e.Found p ∧ e.cause.atEnd = false ∧ e.span.stop = p + n := by
  have hspan : ¬Span.isEmpty ⟨p, p + n⟩ = true := fun hempty => by
    have : p = p + n := of_decide_eq_true hempty
    omega
  cases t with
  | repetition op =>
    rw [read] at h
    split at h <;> cases h
    exact ⟨⟨Nat.le_refl p, Nat.le_add_right p n, iff_of_false hspan nofun, nofun⟩, rfl, rfl⟩
  | rightParen =>
    rw [read] at h
    split at h <;> cases h
    refine ⟨⟨Nat.le_refl p, Nat.le_add_right p n, iff_of_false hspan nofun, ?_⟩, rfl, rfl⟩
    rintro _ ⟨⟩
    rfl
  | _ => cases h

/-- Where the error of a scan is: at the end of the source, or found whatever follows its span. -/
def Stops (o : Outline) (p : Nat) (rest : List Char) (e : SyntaxError) : Prop :=
  (e.cause.atEnd = true ∧ e.span.stop = p + rest.length) ∨
    e.cause.atEnd = false ∧ ∃ read after, rest = read ++ after ∧
      e.span.stop = p + read.length ∧ ∀ more, o.scan ⟨p, read ++ more⟩ = .error e

theorem Stops.of_scan {o' : Outline} {read after : List Char}
    (h : o'.Stops (p + read.length) after e)
    (hscan : ∀ more, o.scan ⟨p, read ++ more⟩ = o'.scan ⟨p + read.length, more⟩) :
    o.Stops p (read ++ after) e := by
  rcases h with ⟨he, hstop⟩ | ⟨he, read', after, rfl, hstop, hmore⟩
  · exact .inl ⟨he, by rw [hstop, List.length_append, Nat.add_assoc]⟩
  · refine .inr ⟨he, read ++ read', after, (List.append_assoc ..).symm, ?_, fun more => ?_⟩
    · rw [hstop, List.length_append, Nat.add_assoc]
    · rw [List.append_assoc, hscan, hmore]

theorem found_of_scan {rest : List Char} (h : o.scan ⟨p, rest⟩ = .error e) :
    e.Found p ∧ o.Stops p rest e := by
  -- each token leaves less of the source to read
  induction hlength : rest.length using Nat.strongRecOn generalizing o p rest with
  | ind n ih =>
    cases hrest : rest with
    | nil =>
      rw [hrest, scan_of_end rfl, finish] at h
      split at h <;> cases h
      exact ⟨SyntaxError.found_unexpectedEnd p 0, .inl ⟨rfl, rfl⟩⟩
    | cons c tail =>
      have hsettles := Cursor.settles_next p c tail
      rw [← hrest] at hsettles ⊢
      cases hsettles with
      | atEnd he hnext hlexical =>
        cases h.symm.trans (scan_of_fault hnext)
        exact ⟨hlexical.found, .inl ⟨he, hlexical.stop_eq⟩⟩
      | early read result after hne he hnext hcovers =>
        have hpos := List.length_pos_iff.2 hne
        cases result with
        | error e' =>
          cases h.symm.trans (scan_of_fault (hnext after))
          exact ⟨hcovers.found, .inr ⟨he e rfl, read, after, rfl, hcovers.stop_eq,
            fun more => scan_of_fault (hnext more)⟩⟩
        | ok lexeme =>
          obtain ⟨_ | t, span⟩ := lexeme
          · exact absurd hcovers.1 Bool.false_ne_true
          · obtain rfl : span = ⟨p, p + read.length⟩ := hcovers.2
            cases hread : o.read t ⟨p, p + read.length⟩ with
            | error e' =>
              cases h.symm.trans (scan_of_error (hnext after) hread)
              obtain ⟨hfound, hatEnd, hstop⟩ := found_of_read hpos hread
              exact ⟨hfound, .inr ⟨hatEnd, read, after, rfl, hstop,
                fun more => scan_of_error (hnext more) hread⟩⟩
            | ok o' =>
              rw [scan_of_ok (hnext after) hread] at h
              rw [List.length_append] at hlength
              obtain ⟨hfound, hstops⟩ := ih after.length (by omega) h rfl
              exact ⟨hfound.of_le (Nat.le_add_right ..),
                hstops.of_scan fun more => scan_of_ok (hnext more) hread⟩

section Stops

variable {rest : List Char}

theorem Stops.stop_le (h : o.Stops p rest e) : e.span.stop ≤ p + rest.length := by
  rcases h with ⟨-, hstop⟩ | ⟨-, read, after, rfl, hstop, -⟩
  · exact Nat.le_of_eq hstop
  · rw [hstop, List.length_append]
    omega

theorem Stops.stop_eq (h : o.Stops p rest e) (he : e.cause.atEnd = true) :
    e.span.stop = p + rest.length := by
  rcases h with ⟨-, hstop⟩ | ⟨he', -⟩
  · exact hstop
  · exact absurd (he.symm.trans he') nofun

/-- The source may as well end with the span of the error, or go on in any other way. -/
theorem Stops.scan_take (h : o.Stops p rest e) (he : e.cause.atEnd = false) (more : List Char) :
    o.scan ⟨p, rest.take (e.span.stop - p) ++ more⟩ = .error e := by
  rcases h with ⟨he', -⟩ | ⟨-, read, after, rfl, hstop, hmore⟩
  · exact absurd (he.symm.trans he') nofun
  · rw [hstop, Nat.add_sub_cancel_left, List.take_left]
    exact hmore more

end Stops

end Outline

namespace Pattern

theorem map_parse (source : List Char) :
    (parse source).map (fun _ => ()) = Outline.start.scan (.start source) := by
  rw [parse_eq_ofTokens]
  exact Outline.follows_start.scan (.start source)

theorem parse_eq_error_iff {source : List Char} {e : SyntaxError} :
    parse source = .error e ↔ Outline.start.scan (.start source) = .error e := by
  rw [← map_parse]
  cases parse source with
  | error e' => exact ⟨congrArg (Except.map _), fun h => by cases h; rfl⟩
  | ok p => exact iff_of_false nofun nofun

/-- Parsing succeeds or fails as the scan of the outline does. The span of an error lies within the
source and is empty only where the source ends inside a group. The one token that can be unexpected
is a closing parenthesis, and only where the source should have ended. Unless the error is that the source ends too early, what
follows its span has no part in it. -/
theorem parse_first_error (source : List Char) :
    (parse source).map (fun _ => ()) = Outline.start.scan (.start source) ∧
    ∀ e, parse source = .error e →
      (e.span.start ≤ e.span.stop ∧ e.span.stop ≤ source.length) ∧
      (e.span.isEmpty = true ↔ e.cause = .unexpectedEnd) ∧
      (∀ m, e.cause = .unexpectedToken m → m.expected = none ∧ m.found = some .rightParen ∧
        e.message = "parse error: expected EOF, found `)`") ∧
      (e.cause.atEnd = true → e.span.stop = source.length) ∧
      (e.cause.atEnd = false → ∀ more, parse (source.take e.span.stop ++ more) = .error e) := by
  refine ⟨map_parse source, fun e h => ?_⟩
  obtain ⟨hfound, hstops⟩ := Outline.found_of_scan (parse_eq_error_iff.1 h)
  have hle : e.span.stop ≤ source.length := by simpa using hstops.stop_le
  have hend (he : e.cause.atEnd = true) : e.span.stop = source.length := by
    simpa using hstops.stop_eq he
  have htake (he : e.cause.atEnd = false) (more : List Char) :
      parse (source.take e.span.stop ++ more) = .error e :=
    parse_eq_error_iff.2 (hstops.scan_take he more)
  refine ⟨⟨hfound.start_le, hle⟩, hfound.isEmpty_iff, fun m hcause => ?_, hend, htake⟩
  have hm := hfound.eq_rightParen m hcause
  exact ⟨by rw [hm], by rw [hm], hfound.message_eq hcause⟩

/-- Of the three faults in `a(b|*c)[z-a` the operator comes first. -/
theorem parse_first_error_operator :
    parse "a(b|*c)[z-a".toList = .error ⟨.nothingToRepeat .zeroOrMore, ⟨4, 5⟩⟩ ∧
    parse "a(b|*".toList = .error ⟨.nothingToRepeat .zeroOrMore, ⟨4, 5⟩⟩ := by
  have h : parse "a(b|*c)[z-a".toList = .error ⟨.nothingToRepeat .zeroOrMore, ⟨4, 5⟩⟩ := by cbv
  exact ⟨h, ((parse_first_error _).2 _ h).2.2.2.2 rfl []⟩

end Pattern

end RegularLanguages
