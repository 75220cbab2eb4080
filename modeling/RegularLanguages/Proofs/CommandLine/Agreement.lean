import RegularLanguages.CommandLine.Execution
import RegularLanguages.Proofs.Pattern.Closed
import RegularLanguages.Proofs.RegularLanguage.Forms

/-!
# The commands agree

Each command goes its own way from a pattern: to a machine, to the other machine, to the complement,
and back to a pattern that is written and may be read again. All the ways lead to one language. If
the pattern has an error, none of them is taken and every command reports the error alike.
-/

namespace RegularLanguages

/-! ## Patterns that are derived -/

namespace RegularLanguage

variable {l l' c : RegularLanguage} {L : Language Char}

/-- The complement has its deterministic machine alone. -/
theorem pattern_complement (h : l.complement.outcome = .ok (c, l')) : c.pattern = none := by
  rw [complement, Logged.outcome_bind] at h
  obtain ⟨⟨d, l₁⟩, -, h⟩ := Logged.bind_eq_ok_iff.1 h
  simp only [Logged.outcome_bind] at h
  obtain ⟨d', -, h⟩ := Logged.bind_eq_ok_iff.1 h
  cases h
  rfl

/-- A pattern that has to be derived is read back from its text. -/
theorem Holds.toPattern_text (h : l.Holds L) (hnone : l.pattern = none) :
    ∃ p l', l.toPattern.outcome = .ok (p, l') ∧ l'.Holds L ∧
      ∃ q, Pattern.parse p.text = .ok q ∧ q.language = L := by
  obtain ⟨m, l₁, hm, hvalid, rfl, h₁⟩ := h.toNfa_spec
  obtain ⟨p, hp, hL⟩ := Nfa.toPattern_spec hvalid
  have hread := (Pattern.reads_textIn p (Pattern.ordered_toPattern hp) .branch).parse
  rw [hL] at hread
  exact ⟨p, _, by simp [toPattern, hnone, hm, hp], h₁.withPattern hL, hread⟩

end RegularLanguage

/-! ## Commands -/

namespace CommandLine

open RegularLanguage (holds_ofPattern holds_ofDfa pattern_complement)

variable {P : List Char} {p : Pattern} {e : SyntaxError}

/-- The pattern that a command starts from. -/
def Command.pattern : Command → List Char
  | .check pattern .. => pattern
  | .nfa pattern => pattern
  | .dfa pattern _ => pattern
  | .regex pattern => pattern
  | .complement pattern _ => pattern
  | .tree pattern => pattern

/-- The exit code of a command and what it prints, however much is logged. -/
def Command.Ends (c : Command) (code : Nat) (stdout : String) : Prop :=
  ∀ verbosity, (Request.execute c verbosity).outcome.code = code ∧
    (Request.execute c verbosity).outcome.stdout = stdout

theorem Command.ends_of_execute {c : Command} {o : Outcome} (h : c.execute.outcome = .ok o) :
    c.Ends o.code o.stdout := by
  intro verbosity
  simp [Request.outcome, h]

/-- The verdict on `Q` is the last line and decides the exit code. -/
theorem Command.ends_of_verdict {c : Command} {printed : String} {Q : Prop}
    (h : ∃ b, c.execute.outcome = .ok (.verdict printed b) ∧ (b = true ↔ Q)) :
    (Q → c.Ends 0 (printed ++ "true\n")) ∧ (¬Q → c.Ends 1 (printed ++ "false\n")) := by
  obtain ⟨b, hb, hiff⟩ := h
  constructor
  · intro hQ
    rw [hiff.2 hQ] at hb
    exact ends_of_execute hb
  · intro hQ
    rw [Bool.eq_false_iff.2 (mt hiff.1 hQ)] at hb
    exact ends_of_execute hb

theorem withLanguage_of_error (h : Pattern.parse P = .error e)
    (act : RegularLanguage → Logged Outcome) :
    withLanguage P act = pure (.ofSyntaxError P e) := by
  simp [withLanguage, RegularLanguage.parse, h]

theorem withLanguage_of_ok (h : Pattern.parse P = .ok p) (act : RegularLanguage → Logged Outcome) :
    withLanguage P act = act (.ofPattern p) := by
  simp [withLanguage, RegularLanguage.parse, h]

/-! ### A pattern with an error -/

theorem Command.execute_of_error {c : Command} (h : Pattern.parse c.pattern = .error e) :
    c.execute = pure (.ofSyntaxError c.pattern e) := by
  cases c with
  | check pattern input withDfa => cases withDfa <;> exact withLanguage_of_error h _
  | nfa pattern => exact withLanguage_of_error h _
  | dfa pattern complete => exact withLanguage_of_error h _
  | regex pattern => exact withLanguage_of_error h _
  | complement pattern input => exact withLanguage_of_error h _
  | tree pattern =>
    rw [Command.pattern] at h
    rw [execute, h]
    rfl

/-- Nothing is logged before the error. -/
theorem Command.outcome_of_error {c : Command} (h : Pattern.parse c.pattern = .error e)
    (verbosity : Nat) :
    (Request.execute c verbosity).outcome = .ofSyntaxError c.pattern e := by
  have hlog : logText verbosity [] = "" := by
    unfold logText
    cases logLevel verbosity <;> rfl
  simp [Request.outcome, execute_of_error h, hlog, Outcome.ofSyntaxError]

/-! ### A pattern that is read -/

theorem execute_check (h : Pattern.parse P = .ok p) (w : List Char) (withDfa : Bool) :
    ∃ b, (Command.check P w withDfa).execute.outcome = .ok (.verdict "" b) ∧
      (b = true ↔ w ∈ p.language) := by
  cases withDfa with
  | true =>
    obtain ⟨d, l, hd, -, -, hl⟩ := (holds_ofPattern p).toDfa_spec
    obtain ⟨b, l', hb, hiff, -⟩ := hl.accepts?_spec w
    exact ⟨b, by simp [Command.execute, withLanguage_of_ok h, hd, hb], hiff⟩
  | false =>
    obtain ⟨m, l, hm, -, -, hl⟩ := (holds_ofPattern p).toNfa_spec
    obtain ⟨b, l', hb, hiff, -⟩ := hl.accepts?_spec w
    exact ⟨b, by simp [Command.execute, withLanguage_of_ok h, hm, hb], hiff⟩

theorem execute_regex (h : Pattern.parse P = .ok p) :
    ∃ text, (Command.regex P).execute.outcome = .ok (.success ("Converting pattern...\n  Input:  " ++
        String.ofList P ++ "\n  Output: " ++ String.ofList text ++ "\n")) ∧
      ∃ q, Pattern.parse text = .ok q ∧ q.language = p.language := by
  obtain ⟨d, l, hd, hproper, hL, -⟩ := (holds_ofPattern p).toDfa_spec
  obtain ⟨d', hd', hproper', hchart⟩ := hproper.copy_spec
  obtain ⟨r, l', hr, -, q, hq, hqL⟩ := (holds_ofDfa hproper').toPattern_text rfl
  rw [hchart, hL] at hqL
  exact ⟨r.text, by simp [Command.execute, withLanguage_of_ok h, hd, hd', hr], q, hq, hqL⟩

/-- With and without an input, the same text is printed for the complement. -/
theorem execute_complement (h : Pattern.parse P = .ok p) :
    ∃ text, (Command.complement P none).execute.outcome =
        .ok (.success ("Complement:\n  " ++ String.ofList text ++ "\n")) ∧
      (∀ w, ∃ b, (Command.complement P (some w)).execute.outcome =
          .ok (.verdict ("Complement:\n  " ++ String.ofList text ++ "\n" ++ "\n") b) ∧
        (b = true ↔ w ∉ p.language)) ∧
      ∃ q, Pattern.parse text = .ok q ∧ ∀ w, w ∈ q.language ↔ w ∉ p.language := by
  obtain ⟨c, l, hc, hcL, -⟩ := (holds_ofPattern p).complement_spec
  obtain ⟨r, c', hr, hc', q, hq, hqL⟩ := hcL.toPattern_text (pattern_complement hc)
  refine ⟨r.text, by simp [Command.execute, withLanguage_of_ok h, hc, hr], fun w => ?_, q, hq,
    fun w => by rw [hqL]; rfl⟩
  obtain ⟨b, c'', hb, hiff, -⟩ := hc'.accepts?_spec w
  exact ⟨b, by simp [Command.execute, withLanguage_of_ok h, hc, hr, hb], hiff⟩

/-! ### Agreement -/

/-- How the commands answer on the pattern `P` of the language `L`. The command `regex` writes the
pattern `same`, the command `complement` the pattern `other`. -/
structure Answers (P : List Char) (L : Language Char) (same other : List Char) : Prop where
  check_mem : ∀ w ∈ L, ∀ withDfa, (Command.check P w withDfa).Ends 0 "true\n"
  check_not_mem : ∀ w ∉ L, ∀ withDfa, (Command.check P w withDfa).Ends 1 "false\n"
  regex : (Command.regex P).Ends 0 ("Converting pattern...\n  Input:  " ++ String.ofList P ++
    "\n  Output: " ++ String.ofList same ++ "\n")
  parse_same : ∃ q, Pattern.parse same = .ok q ∧ q.language = L
  complement : (Command.complement P none).Ends 0
    ("Complement:\n  " ++ String.ofList other ++ "\n")
  complement_mem : ∀ w ∈ L, (Command.complement P (some w)).Ends 1
    ("Complement:\n  " ++ String.ofList other ++ "\n" ++ "\n" ++ "false\n")
  complement_not_mem : ∀ w ∉ L, (Command.complement P (some w)).Ends 0
    ("Complement:\n  " ++ String.ofList other ++ "\n" ++ "\n" ++ "true\n")
  parse_other : ∃ q, Pattern.parse other = .ok q ∧ ∀ w, w ∈ q.language ↔ w ∉ L

theorem answers_of_parse (h : Pattern.parse P = .ok p) :
    ∃ same other, Answers P p.language same other := by
  obtain ⟨same, hregex, hsame⟩ := execute_regex h
  obtain ⟨other, hcomplement, hverdict, hother⟩ := execute_complement h
  refine ⟨same, other, ?_⟩
  exact {
    check_mem := fun w hw withDfa => (Command.ends_of_verdict (execute_check h w withDfa)).1 hw
    check_not_mem := fun w hw withDfa => (Command.ends_of_verdict (execute_check h w withDfa)).2 hw
    regex := Command.ends_of_execute hregex
    parse_same := hsame
    complement := Command.ends_of_execute hcomplement
    complement_mem := fun w hw => (Command.ends_of_verdict (hverdict w)).2 (not_not_intro hw)
    complement_not_mem := fun w hw => (Command.ends_of_verdict (hverdict w)).1 hw
    parse_other := hother }

/-- On every pattern, the commands all report the same error, or all answer for one language. -/
theorem commands_agree (P : List Char) :
    match Pattern.parse P with
    | .error _ => ∃ message, ∀ (c : Command) (verbosity : Nat), c.pattern = P →
      (Request.execute c verbosity).outcome = ⟨2, "", message⟩
    | .ok p => ∃ same other, Answers P p.language same other := by
  cases h : Pattern.parse P with
  | error e =>
    refine ⟨(Outcome.ofSyntaxError P e).stderr, fun c verbosity hc => ?_⟩
    subst hc
    exact Command.outcome_of_error h verbosity
  | ok p => exact answers_of_parse h

/-- A pattern that can be read, and the same without its closing parenthesis. -/
theorem exists_answers_parenthesis :
    (∃ p, Pattern.parse "(ab)*|".toList = .ok p ∧
      ∃ same other, Answers "(ab)*|".toList p.language same other) ∧
    ∃ message, ∀ (c : Command) (verbosity : Nat), c.pattern = "(ab*|".toList →
      (Request.execute c verbosity).outcome = ⟨2, "", message⟩ := by
  constructor
  · obtain ⟨p, hp⟩ : ∃ p, Pattern.parse "(ab)*|".toList = .ok p := by
      refine ⟨.alternation (.star (.concat [.literal (.single 'a'), .literal (.single 'b')]))
        .empty, ?_⟩
      cbv
    have h := commands_agree "(ab)*|".toList
    rw [hp] at h
    exact ⟨p, hp, h⟩
  · have hp : Pattern.parse "(ab*|".toList = .error ⟨.unexpectedEnd, ⟨5, 5⟩⟩ := by cbv
    have h := commands_agree "(ab*|".toList
    rw [hp] at h
    exact h

end CommandLine

end RegularLanguages
