import RegularLanguages.Proofs.RegularLanguage.Calls

/-!
# A language gives the same forms whatever it was asked before

A form that is missing is derived and kept, so that what a language holds depends on what it was
asked. What it gives does not: the nondeterministic machine is derived before anything else is, so
always from what the language was made of, and the other forms are derived from it. So a query only
fills in some of three fixed forms, and which of them is known from those that are there.
-/

namespace RegularLanguages.RegularLanguage

/-- A question to a language. -/
inductive Query where
  | call (kind : Call.Kind)
  | hasNfa
  | hasDfa
  | hasPattern

/-- The language after a query. -/
def Query.apply (l : RegularLanguage) : Query → Logged RegularLanguage
  | .call kind => return (← kind.answer l).1
  | .hasNfa | .hasDfa | .hasPattern => return l

/-- The language after the queries. -/
def askAll (l : RegularLanguage) (qs : List Query) : Logged RegularLanguage :=
  qs.foldlM Query.apply l

/-- A form of each kind. -/
structure Forms where
  nfa : Nfa
  valid : nfa.Valid
  dfa : Dfa
  proper : dfa.Proper
  pattern : Pattern

/-- The forms that are there are those of `f`, and those that are missing are derived as those
of `f`. -/
structure Gives (l : RegularLanguage) (f : Forms) : Prop where
  nfa : l.toNfa.outcome = .ok (f.nfa, { l with nfa := some f.nfa })
  dfa : l.dfa = some f.dfa ∨ l.dfa = none ∧ f.nfa.toDfa.outcome = .ok f.dfa
  pattern : l.pattern = some f.pattern ∨
    l.pattern = none ∧ f.nfa.toPattern.outcome = .ok f.pattern

variable {l l' : RegularLanguage} {L : Language Char} {f : Forms} {m : Nfa}

/-- Deriving the nondeterministic machine fills in nothing else. -/
theorem eq_of_toNfa (h : l.toNfa.outcome = .ok (m, l')) : l' = { l with nfa := some m } := by
  unfold toNfa at h
  split at h
  · rename_i hnfa
    cases h
    rw [← hnfa]
  · rw [Logged.outcome_bind] at h
    obtain ⟨m', -, h⟩ := Logged.bind_eq_ok_iff.1 h
    cases h
    rfl
  · rw [Logged.outcome_bind] at h
    obtain ⟨m', -, h⟩ := Logged.bind_eq_ok_iff.1 h
    cases h
    rfl
  · cases h

theorem Holds.exists_gives (h : l.Holds L) : ∃ f, l.Gives f := by
  obtain ⟨m, l', hm, hvalid, -, -⟩ := h.toNfa_spec
  rw [eq_of_toNfa hm] at hm
  obtain ⟨d, hd, hproper⟩ : ∃ d, (l.dfa = some d ∨ l.dfa = none ∧ m.toDfa.outcome = .ok d) ∧
      d.Proper := by
    cases hdfa : l.dfa with
    | some d => exact ⟨d, .inl rfl, (h.dfa d hdfa).1⟩
    | none =>
      obtain ⟨d, hd, hproper, -⟩ := Nfa.toDfa_spec hvalid
      exact ⟨d, .inr ⟨rfl, hd⟩, hproper⟩
  obtain ⟨p, hp⟩ : ∃ p, l.pattern = some p ∨ l.pattern = none ∧ m.toPattern.outcome = .ok p := by
    cases hpattern : l.pattern with
    | some p => exact ⟨p, .inl rfl⟩
    | none =>
      obtain ⟨p, hp, -⟩ := Nfa.toPattern_spec hvalid
      exact ⟨p, .inr ⟨rfl, hp⟩⟩
  exact ⟨⟨m, hvalid, d, hproper, p⟩, hm, hd, hp⟩

/-! ## One query -/

/-- The language with the deterministic machine, and with the machine from which it is derived if it
is missing. -/
def withDfa (l : RegularLanguage) (f : Forms) : RegularLanguage :=
  if l.hasDfa then l else { l with nfa := some f.nfa, dfa := some f.dfa }

/-- The language with the pattern, and with the machine from which it is derived if it is
missing. -/
def withPattern (l : RegularLanguage) (f : Forms) : RegularLanguage :=
  if l.hasPattern then l else { l with nfa := some f.nfa, pattern := some f.pattern }

/-- The language with one of the machines. -/
def withMachine (l : RegularLanguage) (f : Forms) : RegularLanguage :=
  if l.hasNfa || l.hasDfa then l else { l with nfa := some f.nfa }

/-- The language after a query, from the forms that it gives. -/
def Query.fill (l : RegularLanguage) (f : Forms) : Query → RegularLanguage
  | .call .nfa => { l with nfa := some f.nfa }
  | .call .dfa | .call .complement => l.withDfa f
  | .call .pattern => l.withPattern f
  | .call (.accepts _) => l.withMachine f
  | .call .copy | .hasNfa | .hasDfa | .hasPattern => l

/-- A query fills in nothing, or the nondeterministic machine and at most one form more. -/
theorem Query.fill_cases (l : RegularLanguage) (f : Forms) (q : Query) :
    q.fill l f = l ∨ q.fill l f = { l with nfa := some f.nfa } ∨
      q.fill l f = { l with nfa := some f.nfa, dfa := some f.dfa } ∨
      q.fill l f = { l with nfa := some f.nfa, pattern := some f.pattern } := by
  have hdfa : l.withDfa f = l ∨ l.withDfa f = { l with nfa := some f.nfa, dfa := some f.dfa } :=
    ite_eq_or_eq ..
  cases q with
  | call kind =>
    cases kind with
    | nfa => exact .inr (.inl rfl)
    | dfa => exact hdfa.imp_right fun h => .inr (.inl h)
    | pattern => exact (ite_eq_or_eq ..).imp_right fun h => .inr (.inr h)
    | accepts w => exact (ite_eq_or_eq ..).imp_right .inl
    | copy => exact .inl rfl
    | complement => exact hdfa.imp_right fun h => .inr (.inl h)
  | hasNfa => exact .inl rfl
  | hasDfa => exact .inl rfl
  | hasPattern => exact .inl rfl

theorem Gives.toDfa_eq (h : l.Gives f) : l.toDfa.outcome = .ok (f.dfa, l.withDfa f) := by
  obtain hd | ⟨hd, hderived⟩ := h.dfa
  · simp [toDfa, withDfa, hasDfa, hd]
  · simp [toDfa, withDfa, hasDfa, hd, h.nfa, hderived]

theorem Gives.toPattern_eq (h : l.Gives f) :
    l.toPattern.outcome = .ok (f.pattern, l.withPattern f) := by
  obtain hp | ⟨hp, hderived⟩ := h.pattern
  · simp [toPattern, withPattern, hasPattern, hp]
  · simp [toPattern, withPattern, hasPattern, hp, h.nfa, hderived]

theorem Gives.eq_of_hasNfa (h : l.Gives f) (hl : l.hasNfa = true) :
    { l with nfa := some f.nfa } = l := by
  obtain ⟨m, hm⟩ := Option.isSome_iff_exists.1 hl
  have hnfa := h.nfa
  rw [toNfa, hm] at hnfa
  exact (congrArg Prod.snd (Except.ok.inj hnfa)).symm

theorem Gives.accepts?_eq (h : l.Gives f) (w : List Char) :
    ∃ b, (l.accepts? w).outcome = .ok (b, l.withMachine f) := by
  obtain hd | ⟨hd, -⟩ := h.dfa
  · obtain ⟨b, hb, -⟩ := f.proper.accepts?_spec w
    exact ⟨b, by simp [accepts?, withMachine, hasDfa, hd, hb]⟩
  · obtain ⟨b, hb, -⟩ := Nfa.accepts?_spec f.valid w
    refine ⟨b, ?_⟩
    cases hl : l.hasNfa with
    | true =>
      -- the machine that is there is that of `f` already
      have hnfa := h.nfa
      rw [h.eq_of_hasNfa hl] at hnfa
      simp [accepts?, withMachine, hd, hb, hl, hnfa]
    | false => simp [accepts?, withMachine, hasDfa, hd, hb, hl, h.nfa]

theorem Gives.fill (h : l.Gives f) (q : Query) : (q.fill l f).Gives f := by
  obtain hq | hq | hq | hq := q.fill_cases l f <;> rw [hq]
  · exact h
  · exact ⟨rfl, h.dfa, h.pattern⟩
  · exact ⟨rfl, .inl rfl, h.pattern⟩
  · exact ⟨rfl, h.dfa, .inl rfl⟩

/-- A query is answered, and only fills in forms. -/
theorem Gives.apply_eq (h : l.Gives f) (q : Query) : (q.apply l).outcome = .ok (q.fill l f) := by
  cases q with
  | call kind =>
    cases kind with
    | nfa => simp [Query.apply, Call.Kind.answer, Query.fill, h.nfa]
    | dfa => simp [Query.apply, Call.Kind.answer, Query.fill, h.toDfa_eq]
    | pattern => simp [Query.apply, Call.Kind.answer, Query.fill, h.toPattern_eq]
    | accepts w =>
      obtain ⟨b, hb⟩ := h.accepts?_eq w
      simp [Query.apply, Call.Kind.answer, Query.fill, hb]
    | copy =>
      obtain hd | ⟨hd, -⟩ := h.dfa
      · obtain ⟨c, hc, -⟩ := f.proper.copy_spec
        simp [Query.apply, Call.Kind.answer, Query.fill, copy, hd, hc]
      · simp [Query.apply, Call.Kind.answer, Query.fill, copy, hd]
    | complement =>
      obtain ⟨c, hc, -⟩ := f.proper.complement_spec
      simp [Query.apply, Call.Kind.answer, Query.fill, complement, h.toDfa_eq, hc]
  | hasNfa => rfl
  | hasDfa => rfl
  | hasPattern => rfl

/-- Whatever form is in the one language is in the other. -/
structure Keeps (l l' : RegularLanguage) : Prop where
  hasNfa : l.hasNfa = true → l'.hasNfa = true
  hasDfa : l.hasDfa = true → l'.hasDfa = true
  hasPattern : l.hasPattern = true → l'.hasPattern = true

theorem Keeps.refl (l : RegularLanguage) : l.Keeps l := ⟨id, id, id⟩

theorem keeps_fill (l : RegularLanguage) (f : Forms) (q : Query) : l.Keeps (q.fill l f) := by
  obtain hq | hq | hq | hq := q.fill_cases l f <;> rw [hq]
  · exact .refl l
  · exact ⟨fun _ => rfl, id, id⟩
  · exact ⟨fun _ => rfl, fun _ => rfl, id⟩
  · exact ⟨fun _ => rfl, id, fun _ => rfl⟩

/-! ## All queries -/

/-- The language after the first `n` queries, from the forms that it gives. -/
def filled (l : RegularLanguage) (f : Forms) (qs : List Query) (n : Nat) : RegularLanguage :=
  (qs.take n).foldl (fun l q => q.fill l f) l

theorem filled_succ (l : RegularLanguage) (f : Forms) (qs : List Query) (n : Nat) :
    filled l f qs (n + 1) = qs[n]?.elim (filled l f qs n) fun q => q.fill (filled l f qs n) f := by
  rw [filled, List.take_add_one, List.foldl_append, ← filled]
  cases qs[n]? <;> rfl

theorem Gives.filled (h : l.Gives f) (qs : List Query) (n : Nat) : (l.filled f qs n).Gives f :=
  List.foldlRecOn (motive := (Gives · f)) _ _ h fun _ h q _ => h.fill q

theorem Gives.askAll_eq (h : l.Gives f) (qs : List Query) :
    (askAll l qs).outcome = .ok (qs.foldl (fun l q => q.fill l f) l) := by
  induction qs generalizing l with
  | nil => rfl
  | cons q rest ih =>
    rw [askAll, Outcome.outcome_foldlM_cons, h.apply_eq q]
    exact ih (h.fill q)

theorem keeps_filled (l : RegularLanguage) (f : Forms) (qs : List Query) (n : Nat) :
    (filled l f qs n).Keeps (filled l f qs (n + 1)) := by
  rw [filled_succ]
  cases qs[n]? with
  | none => exact .refl _
  | some q => exact keeps_fill _ f q

/-- The first `n` queries lead to the language `after n`, which always gives the forms of `f`. No
form is lost, and reading a text derives a machine only if there is none. -/
structure Steady (l : RegularLanguage) (f : Forms) (qs : List Query)
    (after : Nat → RegularLanguage) : Prop where
  reached : ∀ n, (askAll l (qs.take n)).outcome = .ok (after n)
  nfa : ∀ n, ∃ l', (after n).toNfa.outcome = .ok (f.nfa, l')
  dfa : ∀ n, ∃ l', (after n).toDfa.outcome = .ok (f.dfa, l')
  pattern : ∀ n, ∃ l', (after n).toPattern.outcome = .ok (f.pattern, l')
  keeps : ∀ n, (after n).Keeps (after (n + 1))
  accepts : ∀ n w, qs[n]? = some (.call (.accepts w)) → after (n + 1) =
    if (after n).hasNfa || (after n).hasDfa then after n else { after n with nfa := some f.nfa }

/-- A language gives the same forms after any queries. -/
theorem Starting.steady (h : l.Starting) :
    ∃ f : Forms, ∀ qs, ∃ after, Steady l f qs after := by
  obtain ⟨L, hL⟩ := h.holds
  obtain ⟨f, hf⟩ := hL.exists_gives
  refine ⟨f, fun qs => ⟨filled l f qs, ?_⟩⟩
  have hgives : ∀ n, (filled l f qs n).Gives f := hf.filled qs
  exact {
    reached := fun n => hf.askAll_eq (qs.take n)
    nfa := fun n => ⟨_, (hgives n).nfa⟩
    dfa := fun n => ⟨_, (hgives n).toDfa_eq⟩
    pattern := fun n => ⟨_, (hgives n).toPattern_eq⟩
    keeps := keeps_filled l f qs
    accepts := fun n w hq => by
      rw [filled_succ, hq]
      rfl }

theorem exists_steady_overwritten :
    ∃ d, (Dfa.initial.applyAll Dfa.overwritten).outcome = .ok d ∧ (ofDfa d).Starting ∧
      ∃ f : Forms, ∀ qs, ∃ after, Steady (ofDfa d) f qs after := by
  obtain ⟨d, hd⟩ := Dfa.exists_overwritten
  have hstarting : (ofDfa d).Starting := .ofDfa (Dfa.built_of_applyAll .initial hd)
  exact ⟨d, hd, hstarting, hstarting.steady⟩

end RegularLanguages.RegularLanguage
