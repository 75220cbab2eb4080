import RegularLanguages.Proofs.Token.Composition
import RegularLanguages.Proofs.Token.Items

/-!
# Reading on after errors

A read stops behind the characters that it took, also when it fails, and one may go on from there.
Every read but the one at the end of the source takes some characters, and its span stops where it
stopped; only the span of an error may start later than the read. So the reads of a source, errors
among them, come to its end after at most as many reads as there are characters, and stay there.
-/

namespace RegularLanguages.Cursor

/-- What one read does: it finds the end of the source and stays there, or takes some characters and
gives a token over all of them or an error within. -/
inductive Advances (c : Cursor) : Except SyntaxError Lexeme × Cursor → Prop where
  | ending : c.rest = [] → Advances c (.ok ⟨none, ⟨c.position, c.position⟩⟩, c)
  | token (t : Token) (read rest : List Char) : read ≠ [] → c.rest = read ++ rest →
      Advances c (.ok ⟨some t, ⟨c.position, c.position + read.length⟩⟩,
        ⟨c.position + read.length, rest⟩)
  | error (e : SyntaxError) (read rest : List Char) : read ≠ [] → c.rest = read ++ rest →
      e.Lexical c.position (c.position + read.length) →
      Advances c (.error e, ⟨c.position + read.length, rest⟩)

theorem advances_next (c : Cursor) : Advances c c.next := by
  obtain ⟨p, source⟩ := c
  cases source with
  | nil => exact .ending rfl
  | cons a rest =>
    generalize hsource : a :: rest = source
    cases hsource ▸ settles_next p a rest with
    | atEnd _ hread hlexical =>
      have hread : next ⟨p, source⟩ = _ := hread
      rw [hread]
      exact .error _ source [] (hsource ▸ List.cons_ne_nil a rest) (List.append_nil _).symm hlexical
    | early read result after hne _ hread hcovers =>
      have hread : next ⟨p, read ++ after⟩ = _ := hread after
      rw [hread]
      obtain e | ⟨_ | t, span⟩ := result
      · exact .error e read after hne rfl hcovers
      · exact absurd hcovers.1 Bool.false_ne_true
      · obtain rfl : span = ⟨p, p + read.length⟩ := hcovers.2
        exact .token t read after hne rfl

/-! ## A run of reads -/

/-- The cursor after `n` reads that go on after errors. -/
def skip : Nat → Cursor → Cursor
  | 0, c => c
  | n + 1, c => skip n c.next.2

theorem skip_succ (n : Nat) (c : Cursor) : skip (n + 1) c = (skip n c).next.2 := by
  induction n generalizing c with
  | zero => rfl
  | succ n ih => exact ih c.next.2

/-- The counter says which characters of the source are left. -/
structure InStep (source : List Char) (c : Cursor) : Prop where
  position_le : c.position ≤ source.length
  rest_eq : c.rest = source.drop c.position

theorem inStep_start (source : List Char) : InStep source (start source) := ⟨Nat.zero_le _, rfl⟩

/-- One read. -/
theorem InStep.next {source : List Char} {c : Cursor} (h : InStep source c) :
    InStep source c.next.2 := by
  have htaken {read rest : List Char} (hrest : c.rest = read ++ rest) :
      InStep source ⟨c.position + read.length, rest⟩ := by
    have hdrop : source.drop c.position = read ++ rest := h.rest_eq ▸ hrest
    refine ⟨?_, ?_⟩
    · have hlength := congrArg List.length hdrop
      simp only [List.length_drop, List.length_append] at hlength
      have := h.position_le
      show c.position + read.length ≤ source.length
      omega
    · rw [← List.drop_drop, hdrop, List.drop_left]
  generalize hread : c.next = read
  cases hread ▸ advances_next c with
  | ending _ => exact h
  | token t read rest _ hrest => exact htaken hrest
  | error e read rest _ hrest _ => exact htaken hrest

/-- A run of reads. -/
theorem InStep.skip {source : List Char} {c : Cursor} (h : InStep source c) (n : Nat) :
    InStep source (skip n c) := by
  induction n generalizing c with
  | zero => exact h
  | succ n ih => exact ih h.next

/-- The reads come to the end of the source, and stay there. -/
theorem exists_skip_eq (c : Cursor) : ∃ m ≤ c.rest.length,
    (∀ n < m, (skip n c).rest ≠ []) ∧ ∀ n, m ≤ n → (skip n c).rest = [] := by
  obtain ⟨p, source⟩ := c
  induction hlength : source.length using Nat.strongRecOn generalizing p source with
  | ind length ih =>
    subst hlength
    cases source with
    | nil =>
      refine ⟨0, Nat.le_refl 0, nofun, fun n _ => ?_⟩
      induction n with
      | zero => rfl
      | succ n ihn => exact ihn (Nat.zero_le n)
    | cons a rest =>
      have hlt := next_rest_lt p a rest
      obtain ⟨m, hm, hbefore, hafter⟩ := ih _ hlt (next ⟨p, a :: rest⟩).2.position _ rfl
      refine ⟨m + 1, Nat.lt_of_le_of_lt hm hlt, fun n hn => ?_, fun n hn => ?_⟩
      · cases n with
        | zero => exact List.cons_ne_nil a rest
        | succ n => exact hbefore n (Nat.lt_of_succ_lt_succ hn)
      · obtain ⟨n, rfl⟩ := Nat.exists_eq_add_of_le' hn
        exact hafter (n + m) (Nat.le_add_left m n)

/-! ## Results and their spans -/

/-- The span of what a read gives. -/
def spanOf : Except SyntaxError Lexeme → Span
  | .ok lexeme => lexeme.span
  | .error e => e.span

/-- A read from `c` to `after` that gives `result` keeps its place; the result before it ended at
`ended`. -/
structure KeepsPlace (source : List Char) (ended : Nat) (c : Cursor)
    (result : Except SyntaxError Lexeme) (after : Cursor) : Prop where
  start_le_stop : (spanOf result).start ≤ (spanOf result).stop
  stop_le : (spanOf result).stop ≤ source.length
  /-- A token, or the end, takes up where the result before it ended. -/
  start_eq : ∀ lexeme, result = .ok lexeme → lexeme.span.start = ended
  le_start : ∀ e, result = .error e → ended ≤ e.span.start
  stop_eq : (spanOf result).stop = after.position
  /-- Every read but the one at the end takes a character. -/
  position_lt : (∀ span, result ≠ .ok ⟨none, span⟩) → c.position < after.position

/-- One read. -/
theorem InStep.keepsPlace {source : List Char} {c : Cursor} (h : InStep source c) :
    KeepsPlace source c.position c c.next.1 c.next.2 := by
  have hnext := h.next.position_le
  generalize hread : c.next = read at hnext ⊢
  cases hread ▸ advances_next c with
  | ending _ =>
    refine ⟨Nat.le_refl _, hnext, ?_, nofun, rfl, fun hne => absurd rfl (hne _)⟩
    rintro _ ⟨⟩
    rfl
  | token t read rest hne _ =>
    refine ⟨Nat.le_add_right .., hnext, ?_, nofun, rfl, fun _ => ?_⟩
    · rintro _ ⟨⟩
      rfl
    · exact Nat.lt_add_of_pos_right (List.length_pos_iff.2 hne)
  | error e read rest hne _ he =>
    refine ⟨Nat.le_of_lt he.start_lt, he.stop_eq ▸ hnext, nofun, ?_, he.stop_eq, fun _ => ?_⟩
    · rintro _ ⟨⟩
      exact he.le_start
    · exact Nat.lt_add_of_pos_right (List.length_pos_iff.2 hne)

/-- The end is read where nothing is left, and only there. -/
theorem InStep.next_eq_end_iff {source : List Char} {c : Cursor} (h : InStep source c)
    {span : Span} : c.next.1 = .ok ⟨none, span⟩ ↔
      c.rest = [] ∧ span = ⟨source.length, source.length⟩ := by
  have hposition (hrest : c.rest = []) : c.position = source.length :=
    Nat.le_antisymm h.position_le (List.drop_eq_nil_iff.1 (h.rest_eq ▸ hrest))
  generalize hread : c.next = read
  cases hread ▸ advances_next c with
  | ending hrest => simp [hrest, hposition hrest, eq_comm]
  | token t read rest hne hrest => simp [hrest, hne]
  | error e read rest hne hrest _ => simp [hrest, hne]

/-! ## The results of a source -/

/-- What the `n`th read of the source gives, counted from zero. -/
def nthRead (source : List Char) (n : Nat) : Except SyntaxError Lexeme :=
  (skip n (start source)).next.1

/-- Where the result before the `n`th read ended. -/
def endBefore (source : List Char) : Nat → Nat
  | 0 => 0
  | n + 1 => (spanOf (nthRead source n)).stop

theorem inStep_skip (source : List Char) (n : Nat) : InStep source (skip n (start source)) :=
  (inStep_start source).skip n

theorem position_skip (source : List Char) (n : Nat) :
    (skip n (start source)).position = endBefore source n := by
  cases n with
  | zero => rfl
  | succ n =>
    rw [skip_succ]
    exact (inStep_skip source n).keepsPlace.stop_eq.symm

/-- However many results are read, errors among them, each read keeps its place and makes no range
of reversed bounds; and the end is read before long, and always from then on. -/
theorem reads_keep_place (source : List Char) :
    (∀ n, InStep source (skip n (start source)) ∧
      KeepsPlace source (endBefore source n) (skip n (start source)) (nthRead source n)
        (skip (n + 1) (start source)) ∧
      (skip n (start source)).readToken =
        .ok (nthRead source n, skip (n + 1) (start source))) ∧
    ∃ m ≤ source.length, (∀ n < m, ∀ span, nthRead source n ≠ .ok ⟨none, span⟩) ∧
      ∀ n, m ≤ n → nthRead source n = .ok ⟨none, ⟨source.length, source.length⟩⟩ := by
  refine ⟨fun n => ?_, ?_⟩
  · have hstep := inStep_skip source n
    rw [← position_skip, skip_succ, nthRead]
    exact ⟨hstep, hstep.keepsPlace, readToken_eq _⟩
  · obtain ⟨m, hm, hbefore, hafter⟩ := exists_skip_eq (start source)
    refine ⟨m, hm, fun n hn span hend => ?_, fun n hn => ?_⟩
    · exact hbefore n hn ((inStep_skip source n).next_eq_end_iff.1 hend).1
    · exact (inStep_skip source n).next_eq_end_iff.2 ⟨hafter n hn, rfl⟩

end RegularLanguages.Cursor
