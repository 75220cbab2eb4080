import RegularLanguages.Proofs.CharClass.Canonical

/-!
# Telling the empty and the universal class

`isEmpty` and `isUniversal` go by how a class is stored. They are `Exact` for a class without a part
that is the whole domain. Of the ways to make a class, `ofRange` alone stores its range as it is, so
the whole domain as one range, and the complement of that, are the classes that are told wrong: the
tests are exact for a class that can be made if and only if it is neither of the two.
-/

namespace RegularLanguages

theorem CharRange.single_ne_full (c : Char) : single c ≠ full := by
  intro h
  obtain ⟨hfirst, hlast⟩ := CharRange.mk.injEq .. ▸ h
  exact absurd (hfirst.symm.trans hlast) (by decide)

namespace CharClass

/-- The tests say of the class what they are named for. -/
structure Exact (k : CharClass) : Prop where
  isEmpty_iff : k.isEmpty = true ↔ ∀ c, c ∉ k
  isUniversal_iff : k.isUniversal = true ↔ ∀ c, c ∈ k

theorem isUniversal_eq_isEmpty_complement (k : CharClass) :
    k.isUniversal = k.complement.isEmpty := by
  rw [isUniversal, isEmpty, complement, Bool.not_not]

theorem Canonical.complement {k : CharClass} (h : k.Canonical) : k.complement.Canonical :=
  ⟨h.ordered, h.apart, h.ne_full⟩

theorem Canonical.exact {k : CharClass} (h : k.Canonical) : k.Exact where
  isEmpty_iff := h.isEmpty_iff
  isUniversal_iff := by
    rw [isUniversal_eq_isEmpty_complement, h.complement.isEmpty_iff]
    exact forall_congr' fun c => by rw [mem_complement, Decidable.not_not]

/-! ## The whole domain as a range -/

theorem canonical_ofRange {r : CharRange} (hr : r.Ordered) (hfull : r ≠ .full) :
    (ofRange r).Canonical where
  ordered := List.forall_mem_singleton.2 hr
  apart := List.pairwise_singleton ..
  ne_full h := hfull (List.singleton_inj.1 h)

/-- A class is canonical unless its one part is the whole domain. -/
theorem Made.canonical_or {k : CharClass} (h : k.Made) : k.Canonical ∨ k.parts = [.full] := by
  induction h with
  | empty => exact .inl canonical_empty
  | universal => exact .inl canonical_universal
  | single c => exact .inl (canonical_ofRange (Char.le_refl c) (CharRange.single_ne_full c))
  | @ofRange _ _ r hr =>
    by_cases hfull : r = .full
    · exact .inr (hfull ▸ rfl)
    · exact .inl (canonical_ofRange (CharRange.ordered_of_between hr) hfull)
  | ofRanges inverted hrs =>
    exact .inl (canonical_ofRanges (CharRange.forall_ordered hrs) inverted)
  | complement _ ih => exact ih.imp_left Canonical.complement
  | combine op _ _ _ _ => exact .inl (canonical_combine op _ _)

theorem mem_ofRange_full (c : Char) : c ∈ ofRange .full := by
  simp [mem_iff_contains, contains, ofRange, CharRange.contains_full]

theorem not_exact_ofRange_full : ¬(ofRange .full).Exact := fun h =>
  Bool.false_ne_true (h.isUniversal_iff.2 mem_ofRange_full)

theorem not_exact_complement_ofRange_full : ¬(ofRange .full).complement.Exact := fun h =>
  Bool.false_ne_true (h.isEmpty_iff.2 fun c hc => mem_complement.1 hc (mem_ofRange_full c))

/-- The tests are exact but for the whole domain as one range and the complement of that. -/
theorem Made.exact_iff {k : CharClass} (h : k.Made) :
    k.Exact ↔ k ≠ .ofRange .full ∧ k ≠ (CharClass.ofRange .full).complement := by
  constructor
  · intro hk
    constructor
    · rintro rfl
      exact not_exact_ofRange_full hk
    · rintro rfl
      exact not_exact_complement_ofRange_full hk
  · rintro ⟨hrange, hcomplement⟩
    rcases h.canonical_or with hk | hk
    · exact hk.exact
    · obtain ⟨parts, inverted⟩ := k
      cases hk
      cases inverted with
      | false => exact absurd rfl hrange
      | true => exact absurd rfl hcomplement

/-- The two sides of the gap, which are all there is. -/
def sides : CharClass :=
  (ofRange ⟨Scalar.first, '\ud7ff'⟩).union (ofRange ⟨'\ue000', Scalar.last⟩)

theorem exact_iff_sides : sides.Made ∧ sides.isUniversal = true ∧
    (sides.Exact ↔ sides ≠ .ofRange .full ∧ sides ≠ (ofRange .full).complement) := by
  have hlow : (ofRange ⟨Scalar.first, '\ud7ff'⟩).Made := .ofRange (if_pos (by decide))
  have hhigh : (ofRange ⟨'\ue000', Scalar.last⟩).Made := .ofRange (if_pos (by decide))
  have hmade : sides.Made := .combine (· || ·) hlow hhigh
  exact ⟨hmade, by decide, hmade.exact_iff⟩

/-- The whole domain as one range has every character and is not told to be universal. -/
theorem isUniversal_ofRange_full : (ofRange .full).Made ∧ (∀ c, c ∈ ofRange .full) ∧
    (ofRange .full).isUniversal = false :=
  ⟨.ofRange (if_pos (by decide)), mem_ofRange_full, rfl⟩

end CharClass

end RegularLanguages
