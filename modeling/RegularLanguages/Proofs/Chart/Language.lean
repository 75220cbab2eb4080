import Mathlib.Computability.Language
import RegularLanguages.Proofs.Chart.Basic

/-!
# The language of a chart

A text is in the language of a chart if it leads from state 0 to a state that accepts. Sending the
missing edges to one more state keeps the language. When no edge is missing, every text leads
somewhere, and exchanging the roles of the states gives the complement.
-/

namespace RegularLanguages.Chart

/-- Edges are between states, and only states accept. -/
structure Closed (g : Chart) : Prop where
  accept_lt : ∀ q, g.accept q → q < g.size
  move_lt : ∀ q c t, g.move q c = some t → q < g.size ∧ t < g.size

/-- No state lacks an edge. -/
def Complete (g : Chart) : Prop := ∀ q c, q < g.size → ∃ t, g.move q c = some t

/-- One more state, to which the missing edges lead, its own included. -/
def addSink (g : Chart) : Chart :=
  { g with
    size := g.size + 1
    move := fun q c => (g.move q c).or (if q ≤ g.size then some g.size else none) }

open Classical in
/-- A sink for the missing edges, if there are any. -/
noncomputable def complete (g : Chart) : Chart := if g.Complete then g else g.addSink

/-- Exchanges accepting and rejecting states. -/
def flip (g : Chart) : Chart := { g with accept := fun q => q < g.size ∧ ¬g.accept q }

/-- The texts that lead from state 0 to an accepting state. -/
def language (g : Chart) : Language Char := {w | ∃ q, g.walk 0 w = some q ∧ g.accept q}

variable {g : Chart} {q : Nat} {w : List Char}

theorem mem_language : w ∈ g.language ↔ ∃ q, g.walk 0 w = some q ∧ g.accept q := Iff.rfl

theorem mem_language_of_walk (hq : g.walk 0 w = some q) : w ∈ g.language ↔ g.accept q := by
  simp [mem_language, hq]

theorem Closed.walk_lt (h : g.Closed) {t : Nat} (hq : q < g.size) (hw : g.walk q w = some t) :
    t < g.size := by
  induction w generalizing q with
  | nil =>
    cases hw
    exact hq
  | cons c rest ih =>
    obtain ⟨s, hs, hrest⟩ := Option.bind_eq_some_iff.1 hw
    exact ih (h.move_lt q c s hs).2 hrest

/-! ## Completion -/

theorem walk_addSink_size (h : g.Closed) (w : List Char) :
    g.addSink.walk g.size w = some g.size := by
  induction w with
  | nil => rfl
  | cons c rest ih =>
    have hnone : g.move g.size c = none :=
      Option.eq_none_iff_forall_ne_some.2 fun t ht => Nat.lt_irrefl _ (h.move_lt _ _ _ ht).1
    have hmove : g.addSink.move g.size c = some g.size := by simp [addSink, hnone]
    rw [walk, hmove]
    exact ih

/-- A text that leads nowhere leads to the sink. -/
theorem walk_addSink (h : g.Closed) (hq : q < g.size) (w : List Char) :
    g.addSink.walk q w = some ((g.walk q w).getD g.size) := by
  induction w generalizing q with
  | nil => rfl
  | cons c rest ih =>
    cases hmove : g.move q c with
    | none =>
      have hsink : g.addSink.move q c = some g.size := by simp [addSink, hmove, Nat.le_of_lt hq]
      rw [walk, walk, hsink, hmove]
      exact walk_addSink_size h rest
    | some t =>
      have hkeep : g.addSink.move q c = some t := by simp [addSink, hmove]
      rw [walk, walk, hkeep, hmove]
      exact ih (h.move_lt q c t hmove).2

theorem complete_addSink (g : Chart) : g.addSink.Complete := by
  intro q c hq
  have hle : q ≤ g.size := Nat.le_of_lt_succ hq
  cases hmove : g.move q c with
  | none => exact ⟨g.size, by simp [addSink, hmove, hle]⟩
  | some t => exact ⟨t, by simp [addSink, hmove]⟩

theorem Closed.addSink (h : g.Closed) : g.addSink.Closed where
  accept_lt q hq := Nat.lt_succ_of_lt (h.accept_lt q hq)
  move_lt q c t ht := by
    show q < g.size + 1 ∧ t < g.size + 1
    rcases Option.or_eq_some_iff.1 ht with ht | ⟨-, ht⟩
    · have := h.move_lt q c t ht
      omega
    · split at ht
      · cases ht
        omega
      · cases ht

theorem size_le_complete (g : Chart) : g.size ≤ g.complete.size := by
  unfold complete
  split
  · exact Nat.le_refl _
  · exact Nat.le_succ _

theorem start_complete (g : Chart) : g.complete.start = g.start := by
  unfold complete
  split <;> rfl

theorem Closed.complete (h : g.Closed) : g.complete.Closed := by
  unfold Chart.complete
  split
  · exact h
  · exact h.addSink

theorem complete_complete (g : Chart) : g.complete.Complete := by
  unfold complete
  split
  · assumption
  · exact complete_addSink g

theorem language_addSink (h : g.Closed) (hpos : 0 < g.size) : g.addSink.language = g.language := by
  ext w
  rw [mem_language_of_walk (walk_addSink h hpos w)]
  show g.accept ((g.walk 0 w).getD g.size) ↔ w ∈ g.language
  cases hw : g.walk 0 w with
  | none =>
    refine iff_of_false (fun ha => Nat.lt_irrefl _ (h.accept_lt _ ha)) ?_
    rintro ⟨q, hq, -⟩
    rw [hw] at hq
    cases hq
  | some q => exact (mem_language_of_walk hw).symm

theorem language_complete (h : g.Closed) (hpos : 0 < g.size) :
    g.complete.language = g.language := by
  unfold complete
  split
  · rfl
  · exact language_addSink h hpos

/-! ## Complement -/

/-- Without missing edges every text leads to a state. -/
theorem Complete.exists_walk (hg : g.Complete) (h : g.Closed) (hq : q < g.size) (w : List Char) :
    ∃ t, g.walk q w = some t := by
  induction w generalizing q with
  | nil => exact ⟨q, rfl⟩
  | cons c rest ih =>
    obtain ⟨t, ht⟩ := hg q c hq
    rw [walk, ht]
    exact ih (h.move_lt q c t ht).2

theorem Complete.mem_language_flip (hg : g.Complete) (h : g.Closed) (hpos : 0 < g.size) :
    w ∈ g.flip.language ↔ w ∉ g.language := by
  obtain ⟨q, hw⟩ := hg.exists_walk h hpos w
  have hmove : ∀ q c, g.flip.move q c = g.move q c := fun _ _ => rfl
  rw [mem_language_of_walk hw, mem_language_of_walk ((walk_congr hmove 0 w).trans hw)]
  exact and_iff_right (h.walk_lt hpos hw)

/-- Completing and then exchanging the roles gives the complement. -/
theorem mem_language_flip_complete (h : g.Closed) (hpos : 0 < g.size) :
    w ∈ g.complete.flip.language ↔ w ∉ g.language := by
  have hpos' : 0 < g.complete.size := Nat.lt_of_lt_of_le hpos g.size_le_complete
  rw [g.complete_complete.mem_language_flip h.complete hpos', language_complete h hpos]

end RegularLanguages.Chart
