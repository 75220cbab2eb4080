import RegularLanguages.Token.Lexer

/-!
# What a read depends on

A read takes some characters off the front of the source. Unless it fails for want of more, what it
gives depends on these characters alone, whatever comes after them: it `Settles`. Brackets are read
one character at a time, so this holds of `readRanges` from any point within, and then of `next`.
Every read but the one at the end of the source gives a span that starts no earlier than the read
and ends where the read stops.
-/

namespace RegularLanguages

namespace SyntaxError

/-- The error is found while a token is read. -/
def Cause.isLexical : Cause → Bool
  | unclosedClass | trailingBackslash | reversedRange _ _ => true
  | unexpectedToken _ | nothingToRepeat _ | unexpectedEnd => false

/-- The error is found only where nothing is left to read. -/
def Cause.atEnd : Cause → Bool
  | unclosedClass | trailingBackslash | unexpectedEnd => true
  | reversedRange _ _ | unexpectedToken _ | nothingToRepeat _ => false

/-- The error was found in a token by a read that stopped at `stop`; its span starts at `lo` or
later. -/
structure Lexical (e : SyntaxError) (lo stop : Nat) : Prop where
  isLexical : e.cause.isLexical = true
  le_start : lo ≤ e.span.start
  start_lt : e.span.start < e.span.stop
  stop_eq : e.span.stop = stop

end SyntaxError

/-- The positions of an item under way lie before `p`, from `lo` on. -/
def Expecting.Within (lo p : Nat) : Expecting → Prop
  | .item => True
  | .escaped start | .dash start _ | .last start _ => lo ≤ start ∧ start < p
  | .escapedLast start _ backslash => (lo ≤ start ∧ start < p) ∧ lo ≤ backslash ∧ backslash < p

theorem Expecting.within_after {lo p : Nat} (hp : lo ≤ p) (c : Char) :
    Within lo (p + 1) (.after p c) := by
  unfold Expecting.after
  split <;> exact ⟨hp, Nat.lt_succ_self p⟩

namespace Cursor

section Settles

variable {α : Type} {P : Except SyntaxError α → Nat → Prop}
  {f g : List Char → Except SyntaxError α × Cursor} {p : Nat} {c : Char} {rest : List Char}

/-- What `f` reads from `p` on: all that is left, and it fails for want of more, or some characters,
whatever comes after them. `P` holds of what it gives and of the position where it stops. -/
inductive Settles (P : Except SyntaxError α → Nat → Prop)
    (f : List Char → Except SyntaxError α × Cursor) (p : Nat) : List Char → Prop where
  | atEnd {rest : List Char} {e : SyntaxError} : e.cause.atEnd = true →
      f rest = (.error e, ⟨p + rest.length, []⟩) → P (.error e) (p + rest.length) →
      Settles P f p rest
  | early (read : List Char) (result : Except SyntaxError α) (after : List Char) : read ≠ [] →
      (∀ e, result = .error e → e.cause.atEnd = false) →
      (∀ more, f (read ++ more) = (result, ⟨p + read.length, more⟩)) →
      P result (p + read.length) → Settles P f p (read ++ after)

/-- A read that goes on as another one after its first character, which may look at the next. -/
theorem Settles.cons (h : Settles P g (p + 1) rest)
    (hf : ∀ more, more.head? = rest.head? → f (c :: more) = g more) :
    Settles P f p (c :: rest) := by
  have hlength (read : List Char) : p + (c :: read).length = p + 1 + read.length := by
    rw [List.length_cons, Nat.add_assoc, Nat.add_comm 1]
  cases h with
  | atEnd he hg hP => exact .atEnd he (by rw [hf _ rfl, hg, hlength]) (by rwa [hlength])
  | early read result after hread he hg hP =>
    have hhead (more : List Char) : (read ++ more).head? = (read ++ after).head? := by
      rw [List.head?_append, List.head?_append, List.head?_eq_some_head hread]
      rfl
    exact .early (c :: read) result after nofun he
      (fun more => by rw [List.cons_append, hf _ (hhead more), hg, hlength]) (by rwa [hlength])

theorem settles_ok {a : α} {read : List Char} (hread : read ≠ [])
    (hf : ∀ more, f (read ++ more) = (.ok a, ⟨p + read.length, more⟩))
    (hP : P (.ok a) (p + read.length)) : Settles P f p (read ++ rest) :=
  .early read (.ok a) rest hread nofun hf hP

theorem settles_ok_cons {a : α} (hf : ∀ more, f (c :: more) = (.ok a, ⟨p + 1, more⟩))
    (hP : P (.ok a) (p + 1)) : Settles P f p (c :: rest) :=
  settles_ok (List.cons_ne_nil c []) hf hP

theorem settles_error {e : SyntaxError} {read : List Char} (hread : read ≠ [])
    (he : e.cause.atEnd = false)
    (hf : ∀ more, f (read ++ more) = (.error e, ⟨p + read.length, more⟩))
    (hP : P (.error e) (p + read.length)) : Settles P f p (read ++ rest) := by
  refine .early read (.error e) rest hread ?_ hf hP
  rintro _ ⟨⟩
  exact he

theorem settles_error_cons {e : SyntaxError} (he : e.cause.atEnd = false)
    (hf : ∀ more, f (c :: more) = (.error e, ⟨p + 1, more⟩)) (hP : P (.error e) (p + 1)) :
    Settles P f p (c :: rest) :=
  settles_error (List.cons_ne_nil c []) he hf hP

end Settles

/-! ## Brackets -/

section Brackets

variable {lo opened p : Nat} {ranges : List CharRange} {e : Expecting} {rest : List Char}

/-- An error in brackets. -/
def Faults (lo : Nat) (result : Except SyntaxError (List CharRange)) (stop : Nat) : Prop :=
  ∀ e, result = .error e → e.Lexical lo stop

theorem faults_error {e : SyntaxError} {stop : Nat} (h : e.Lexical lo stop) :
    Faults lo (.error e) stop := by
  rintro _ ⟨⟩
  exact h

theorem settles_readRanges (hlo : lo ≤ opened) (hopened : opened < p) (he : e.Within lo p) :
    Settles (Faults lo) (readRanges opened ranges e p) p rest := by
  have hp : lo ≤ p := by omega
  fun_induction readRanges opened ranges e p rest with
  | case1 ranges start p =>
    exact .atEnd rfl rfl (faults_error ⟨rfl, he.1, he.2, rfl⟩)
  | case2 ranges start a backslash p =>
    exact .atEnd rfl rfl (faults_error ⟨rfl, he.2.1, he.2.2, rfl⟩)
  | case3 ranges e p h1 h2 =>
    have hread : readRanges opened ranges e p [] =
        (.error ⟨.unclosedClass, ⟨opened, p⟩⟩, ⟨p, []⟩) := by
      rw [readRanges]
      · exact h1
      · exact h2
    exact .atEnd rfl hread (faults_error ⟨rfl, hlo, hopened, rfl⟩)
  | case4 ranges p rest => exact settles_ok_cons (fun _ => rfl) nofun
  | case5 ranges p c rest hc ih =>
    exact (ih (by omega) (Expecting.within_after hp c) (by omega)).cons fun _ _ => by
      rw [readRanges, if_neg hc]
  | case6 ranges start p c rest ih =>
    exact (ih (by omega) ⟨he.1, Nat.lt_succ_of_lt he.2⟩ (by omega)).cons fun _ _ => rfl
  | case7 ranges start a p rest ih =>
    exact (ih (by omega) ⟨he.1, Nat.lt_succ_of_lt he.2⟩ (by omega)).cons fun _ _ => rfl
  | case8 ranges start a p rest => exact settles_ok_cons (fun _ => rfl) nofun
  | case9 ranges start a p c rest hdash hc ih =>
    exact (ih (by omega) (Expecting.within_after hp c) (by omega)).cons fun _ _ => by
      rw [readRanges, if_neg hdash, if_neg hc]
  | case10 ranges start a p rest => exact settles_ok_cons (fun _ => rfl) nofun
  | case11 ranges start a p rest _ ih =>
    have hwithin : Expecting.Within lo (p + 1) (.escapedLast start a p) :=
      ⟨⟨he.1, Nat.lt_succ_of_lt he.2⟩, hp, Nat.lt_succ_self p⟩
    exact (ih (by omega) hwithin (by omega)).cons fun _ _ => rfl
  | case12 ranges start a p c rest hclose hescape hac ih =>
    exact (ih (by omega) trivial (by omega)).cons fun _ _ => by
      rw [readRanges, if_neg hclose, if_neg hescape, if_pos hac]
  | case13 ranges start a p c rest hclose hescape hac =>
    have hread (more : List Char) : readRanges opened ranges (.last start a) p (c :: more) =
        (.error ⟨.reversedRange a c, ⟨start, p + 1⟩⟩, ⟨p + 1, more⟩) := by
      rw [readRanges, if_neg hclose, if_neg hescape, if_neg hac]
    exact settles_error_cons rfl hread (faults_error ⟨rfl, he.1, Nat.lt_succ_of_lt he.2, rfl⟩)
  | case14 ranges start a backslash p c rest hac ih =>
    exact (ih (by omega) trivial (by omega)).cons fun _ _ => by rw [readRanges, if_pos hac]
  | case15 ranges start a backslash p c rest hac =>
    have hread (more : List Char) : readRanges opened ranges (.escapedLast start a backslash) p
        (c :: more) = (.error ⟨.reversedRange a c, ⟨start, p + 1⟩⟩, ⟨p + 1, more⟩) := by
      rw [readRanges, if_neg hac]
    exact settles_error_cons rfl hread (faults_error ⟨rfl, he.1.1, Nat.lt_succ_of_lt he.1.2, rfl⟩)

end Brackets

/-! ## Tokens -/

/-- A read from `p` gives a token over all that it read, or an error. -/
def Covers (p : Nat) : Except SyntaxError Lexeme → Nat → Prop
  | .ok lexeme, stop => lexeme.token.isSome = true ∧ lexeme.span = ⟨p, stop⟩
  | .error e, stop => e.Lexical p stop

theorem settles_readBracket {p q : Nat} (inverted : Bool) (rest : List Char) (h : p < q) :
    Settles (Covers p) (readBracket p inverted q) q rest := by
  have hread : Settles (Faults p) (readRanges p [] .item q) q rest :=
    settles_readRanges (Nat.le_refl p) h trivial
  cases hread with
  | atEnd he hread hfaults => exact .atEnd he (by rw [readBracket, hread]) (hfaults _ rfl)
  | early read result after hne he hread hfaults =>
    cases result with
    | error e =>
      have hbracket (more : List Char) : readBracket p inverted q (read ++ more) =
          (.error e, ⟨q + read.length, more⟩) := by
        rw [readBracket, hread]
      exact settles_error hne (he e rfl) hbracket (hfaults e rfl)
    | ok ranges =>
      have hbracket (more : List Char) : readBracket p inverted q (read ++ more) =
          (.ok ⟨some (.bracket (.ofRanges ranges inverted)), ⟨p, q + read.length⟩⟩,
            ⟨q + read.length, more⟩) := by
        rw [readBracket, hread]
      exact settles_ok hne hbracket ⟨rfl, rfl⟩

/-- A read before the end of the source. -/
theorem settles_next (p : Nat) (c : Char) (rest : List Char) :
    Settles (Covers p) (fun text => next ⟨p, text⟩) p (c :: rest) := by
  by_cases hopen : c = '['
  · subst hopen
    by_cases hcaret : rest.head? = some '^'
    · obtain ⟨rest, rfl⟩ := List.head?_eq_some_iff.1 hcaret
      have hbracket := settles_readBracket true rest (Nat.lt_add_of_pos_right (n := p) Nat.two_pos)
      exact (hbracket.cons (f := fun text => next ⟨p, '[' :: text⟩) fun _ _ => rfl).cons
        fun _ _ => rfl
    · refine (settles_readBracket false rest (Nat.lt_succ_self p)).cons fun more hmore => ?_
      rw [next]
      rintro rest' rfl
      exact hcaret hmore.symm
  · by_cases hescape : c = '\\'
    · subst hescape
      cases rest with
      | nil => exact .atEnd rfl rfl ⟨rfl, Nat.le_refl p, Nat.lt_succ_self p, rfl⟩
      | cons d rest =>
        exact settles_ok (List.cons_ne_nil '\\' [d]) (fun _ => rfl) ⟨rfl, rfl⟩
    · exact settles_ok_cons (next_ofChar hopen hescape p) ⟨rfl, rfl⟩

end Cursor

end RegularLanguages
