import RegularLanguages.RegularLanguage
import RegularLanguages.Proofs.Dfa.Copy
import RegularLanguages.Proofs.Dfa.OfNfa
import RegularLanguages.Proofs.Nfa.OfDfa
import RegularLanguages.Proofs.Nfa.OfPattern
import RegularLanguages.Proofs.Pattern.OfNfa

/-!
# The forms of a language

`Holds l L` says that at least one form is there, that the machines among the forms are sound, and
that each form stands for the language `L`. A form that is asked for is derived along one of several
ways, depending on what is there; whichever it is, no step faults and the new form stands for `L`
too.
-/

namespace RegularLanguages

namespace RegularLanguage

variable {l : RegularLanguage} {L : Language Char} {m : Nfa} {d : Dfa} {p : Pattern}

/-- A form is there, and all that are there are sound and stand for `L`. -/
structure Holds (l : RegularLanguage) (L : Language Char) : Prop where
  nfa : ∀ m, l.nfa = some m → m.Valid ∧ m.graph.language = L
  dfa : ∀ d, l.dfa = some d → d.Proper ∧ d.chart.language = L
  pattern : ∀ p, l.pattern = some p → p.language = L
  inhabited : l.nfa.isSome ∨ l.dfa.isSome ∨ l.pattern.isSome

theorem holds_ofPattern (p : Pattern) : (ofPattern p).Holds p.language :=
  ⟨nofun, nofun, fun _ hp => by cases hp; rfl, .inr (.inr rfl)⟩

theorem holds_ofNfa (hm : m.Valid) : (ofNfa m).Holds m.graph.language :=
  ⟨fun _ hm' => by cases hm'; exact ⟨hm, rfl⟩, nofun, nofun, .inl rfl⟩

theorem holds_ofDfa (hd : d.Proper) : (ofDfa d).Holds d.chart.language :=
  ⟨nofun, fun _ hd' => by cases hd'; exact ⟨hd, rfl⟩, nofun, .inr (.inl rfl)⟩

theorem Holds.withNfa (h : l.Holds L) (hm : m.Valid) (hL : m.graph.language = L) :
    Holds { l with nfa := some m } L :=
  ⟨fun _ hm' => by cases hm'; exact ⟨hm, hL⟩, h.dfa, h.pattern, .inl rfl⟩

theorem Holds.withDfa (h : l.Holds L) (hd : d.Proper) (hL : d.chart.language = L) :
    Holds { l with dfa := some d } L :=
  ⟨h.nfa, fun _ hd' => by cases hd'; exact ⟨hd, hL⟩, h.pattern, .inr (.inl rfl)⟩

theorem Holds.withPattern (h : l.Holds L) (hL : p.language = L) :
    Holds { l with pattern := some p } L :=
  ⟨h.nfa, h.dfa, fun _ hp => by cases hp; exact hL, .inr (.inr rfl)⟩

theorem Holds.toNfa_spec (h : l.Holds L) :
    ∃ m l', l.toNfa.outcome = .ok (m, l') ∧ m.Valid ∧ m.graph.language = L ∧ l'.Holds L := by
  cases hm : l.nfa with
  | some m =>
    obtain ⟨hvalid, hL⟩ := h.nfa m hm
    exact ⟨m, l, by simp [toNfa, hm], hvalid, hL, h⟩
  | none =>
    cases hp : l.pattern with
    | some p =>
      obtain ⟨m, hm', hvalid, hL⟩ := Nfa.ofPattern_spec p
      rw [h.pattern p hp] at hL
      exact ⟨m, _, by simp [toNfa, hm, hp, hm'], hvalid, hL, h.withNfa hvalid hL⟩
    | none =>
      cases hd : l.dfa with
      | some d =>
        obtain ⟨hproper, hd'⟩ := h.dfa d hd
        obtain ⟨m, hm', hvalid, hL⟩ := hproper.toNfa_spec
        rw [hd'] at hL
        exact ⟨m, _, by simp [toNfa, hm, hp, hd, hm'], hvalid, hL, h.withNfa hvalid hL⟩
      | none => simpa [hm, hp, hd] using h.inhabited

theorem Holds.toDfa_spec (h : l.Holds L) :
    ∃ d l', l.toDfa.outcome = .ok (d, l') ∧ d.Proper ∧ d.chart.language = L ∧ l'.Holds L := by
  cases hd : l.dfa with
  | some d =>
    obtain ⟨hproper, hL⟩ := h.dfa d hd
    exact ⟨d, l, by simp [toDfa, hd], hproper, hL, h⟩
  | none =>
    obtain ⟨m, l₁, hm, hvalid, hL, h₁⟩ := h.toNfa_spec
    obtain ⟨d, hd', hproper, hL'⟩ := Nfa.toDfa_spec hvalid
    rw [hL] at hL'
    exact ⟨d, _, by simp [toDfa, hd, hm, hd'], hproper, hL', h₁.withDfa hproper hL'⟩

theorem Holds.toPattern_spec (h : l.Holds L) :
    ∃ p l', l.toPattern.outcome = .ok (p, l') ∧ p.language = L ∧ l'.Holds L := by
  cases hp : l.pattern with
  | some p => exact ⟨p, l, by simp [toPattern, hp], h.pattern p hp, h⟩
  | none =>
    obtain ⟨m, l₁, hm, hvalid, hL, h₁⟩ := h.toNfa_spec
    obtain ⟨p, hp', hL'⟩ := Nfa.toPattern_spec hvalid
    rw [hL] at hL'
    exact ⟨p, _, by simp [toPattern, hp, hm, hp'], hL', h₁.withPattern hL'⟩

theorem Holds.accepts?_spec (h : l.Holds L) (w : List Char) :
    ∃ b l', (l.accepts? w).outcome = .ok (b, l') ∧ (b = true ↔ w ∈ L) ∧ l'.Holds L := by
  cases hd : l.dfa with
  | some d =>
    obtain ⟨hproper, rfl⟩ := h.dfa d hd
    obtain ⟨b, hb, hiff⟩ := hproper.accepts?_spec w
    exact ⟨b, l, by simp [accepts?, hd, hb], hiff, h⟩
  | none =>
    obtain ⟨m, l₁, hm, hvalid, hL, h₁⟩ := h.toNfa_spec
    obtain ⟨b, hb, hiff⟩ := Nfa.accepts?_spec hvalid w
    rw [hL] at hiff
    exact ⟨b, l₁, by simp [accepts?, hd, hm, hb], hiff, h₁⟩

theorem Holds.copy_spec (h : l.Holds L) : ∃ c, l.copy.outcome = .ok c ∧ c.Holds L := by
  cases hd : l.dfa with
  | some d =>
    obtain ⟨hproper, hL⟩ := h.dfa d hd
    obtain ⟨c, hc, hproper', hchart⟩ := hproper.copy_spec
    exact ⟨_, by simp [copy, hd, hc], h.withDfa hproper' (hchart ▸ hL)⟩
  | none => exact ⟨l, by simp [copy, hd], h⟩

theorem Holds.complement_spec (h : l.Holds L) :
    ∃ c l', l.complement.outcome = .ok (c, l') ∧ c.Holds Lᶜ ∧ l'.Holds L := by
  obtain ⟨d, l₁, hd, hproper, hL, h₁⟩ := h.toDfa_spec
  obtain ⟨c, hc, hproper', hcomplement⟩ := hproper.complement_spec
  rw [hL] at hcomplement
  have hL' : c.chart.language = Lᶜ := Set.ext hcomplement
  exact ⟨ofDfa c, l₁, by simp [complement, hd, hc], hL' ▸ holds_ofDfa hproper', h₁⟩

end RegularLanguage

end RegularLanguages
