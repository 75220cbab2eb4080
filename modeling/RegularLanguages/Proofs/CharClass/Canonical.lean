import RegularLanguages.Proofs.CharClass.Pointwise

/-!
# Canonical classes and the tests on them

`isEmpty` looks at the way a class is stored. It is exact for a `Canonical` class, one whose parts
are in order, apart from each other and not the whole domain in one. Every operation that sweeps
gives such a class, and `overlaps`, `isSubset` and `sameAs` ask only about results of the sweep:
they are exact for all classes, however these are stored.
-/

namespace RegularLanguages

open Scalar (le_iff_toNat lt_iff_toNat)

namespace CharRange

/-- Some character lies between `r` and `s`. -/
def Apart (r s : CharRange) : Prop := ∃ c, r.last < c ∧ c < s.first

theorem apart_of_touches_eq_false {r s : CharRange} (h : r.touches s = false) : r.Apart s := by
  unfold touches at h
  split at h
  · cases h
  · rename_i n hn
    have hlt := (Scalar.lt_iff_of_next? hn n).2 (Char.le_refl n)
    exact ⟨n, hlt, Char.not_le.1 (of_decide_eq_false h)⟩

theorem Apart.of_le {r s t : CharRange} (h : r.Apart s) (hst : s.first ≤ t.first) : r.Apart t := by
  obtain ⟨c, hrc, hcs⟩ := h
  exact ⟨c, hrc, Nat.lt_of_lt_of_le hcs hst⟩

theorem ordered_join {r s : CharRange} (hr : r.Ordered) : (r.join s).Ordered := by
  simp only [Ordered, join, le_iff_toNat] at *
  split <;> omega

theorem ordered_of_between {a b : Char} {r : CharRange} (h : between a b = .ok r) : r.Ordered := by
  unfold between at h
  split at h
  · cases h
    assumption
  · cases h

theorem forall_ordered {rs : List CharRange} (h : ∀ r ∈ rs, between r.first r.last = .ok r) :
    ∀ r ∈ rs, r.Ordered := fun r hr => ordered_of_between (h r hr)

end CharRange

namespace CharClass

/-- The form in which equal sets are stored alike. -/
structure Canonical (k : CharClass) : Prop where
  ordered : ∀ r ∈ k.parts, r.Ordered
  apart : k.parts.Pairwise CharRange.Apart
  ne_full : k.parts ≠ [.full]

/-! ## Every sweep gives a canonical class -/

theorem first_le_of_mem_coalesceFrom {r t : CharRange} {rs : List CharRange}
    (h : Sorted (r :: rs)) (ht : t ∈ coalesceFrom r rs) : r.first ≤ t.first := by
  induction rs generalizing r with
  | nil =>
    rw [coalesceFrom, List.mem_singleton] at ht
    subst ht
    exact Char.le_refl _
  | cons s rest ih =>
    unfold coalesceFrom at ht
    split at ht
    · exact ih (r := r.join s) (sorted_join h) ht
    · rcases List.mem_cons.1 ht with rfl | ht
      · exact Char.le_refl _
      · have hrs := (List.pairwise_cons.1 h).1 s (List.mem_cons_self ..)
        exact Char.le_trans hrs (ih (List.pairwise_cons.1 h).2 ht)

theorem ordered_of_mem_coalesceFrom {r t : CharRange} {rs : List CharRange}
    (h : ∀ s ∈ r :: rs, s.Ordered) (ht : t ∈ coalesceFrom r rs) : t.Ordered := by
  induction rs generalizing r with
  | nil =>
    rw [coalesceFrom] at ht
    exact h t ht
  | cons s rest ih =>
    simp only [List.mem_cons, forall_eq_or_imp] at h ih
    unfold coalesceFrom at ht
    split at ht
    · exact ih ⟨CharRange.ordered_join h.1, h.2.2⟩ ht
    · rcases List.mem_cons.1 ht with rfl | ht
      · exact h.1
      · exact ih h.2 ht

theorem apart_coalesceFrom {r : CharRange} {rs : List CharRange} (h : Sorted (r :: rs)) :
    (coalesceFrom r rs).Pairwise CharRange.Apart := by
  induction rs generalizing r with
  | nil => exact List.pairwise_singleton ..
  | cons s rest ih =>
    unfold coalesceFrom
    split
    · exact ih (sorted_join h)
    · rename_i ht
      have hrest := (List.pairwise_cons.1 h).2
      refine List.pairwise_cons.2 ⟨fun t hmem => ?_, ih hrest⟩
      exact (CharRange.apart_of_touches_eq_false (Bool.eq_false_iff.2 ht)).of_le
        (first_le_of_mem_coalesceFrom hrest hmem)

theorem canonical_ofRanges {rs : List CharRange} (h : ∀ r ∈ rs, r.Ordered) (inverted : Bool) :
    (ofRanges rs inverted).Canonical := by
  have hordered : ∀ r ∈ coalesce (sortRanges rs), r.Ordered := by
    intro r hr
    have hsorted : ∀ s ∈ sortRanges rs, s.Ordered := fun s hs => h s (mem_sortRanges.1 hs)
    cases hsort : sortRanges rs with
    | nil =>
      rw [hsort] at hr
      cases hr
    | cons s rest =>
      rw [hsort] at hr hsorted
      exact ordered_of_mem_coalesceFrom hsorted hr
  have hapart : (coalesce (sortRanges rs)).Pairwise CharRange.Apart := by
    have hsorted := sorted_sortRanges rs
    cases hsort : sortRanges rs with
    | nil => exact .nil
    | cons s rest => exact apart_coalesceFrom (hsort ▸ hsorted)
  unfold ofRanges
  split
  · rename_i r hr
    rw [hr] at hordered hapart
    split
    · exact ⟨nofun, .nil, nofun⟩
    · rename_i hfull
      exact ⟨hordered, hapart, fun hs => hfull (List.singleton_inj.1 hs)⟩
  · rename_i hne
    exact ⟨hordered, hapart, fun hs => hne _ hs⟩

theorem canonical_combine (op : Bool → Bool → Bool) (a b : CharClass) :
    (combine op a b).Canonical :=
  canonical_ofRanges (fun _ hr =>
    (of_mem_stretches (pairwise_cuts _) (List.mem_filter.1 hr).1).2.1) _

theorem canonical_empty : empty.Canonical := ⟨nofun, .nil, nofun⟩

theorem canonical_universal : universal.Canonical := ⟨nofun, .nil, nofun⟩

theorem canonical_unionAll (ks : List CharClass) : (unionAll ks).Canonical :=
  List.foldlRecOn _ _ canonical_empty fun a _ b _ => canonical_combine (· || ·) a b

/-! ## Every class has its ranges in order -/

/-- Every part holds a character. -/
def Ordered (k : CharClass) : Prop := ∀ r ∈ k.parts, r.Ordered

instance (k : CharClass) : Decidable k.Ordered :=
  inferInstanceAs (Decidable (∀ r ∈ k.parts, r.Ordered))

/-- The class comes out of the operations on classes, from ranges that `CharRange.between` gives. -/
inductive Made : CharClass → Prop where
  | empty : Made .empty
  | universal : Made .universal
  | single (c : Char) : Made (.single c)
  | ofRange {a b : Char} {r : CharRange} : CharRange.between a b = .ok r → Made (.ofRange r)
  | ofRanges {rs : List CharRange} (inverted : Bool) :
      (∀ r ∈ rs, CharRange.between r.first r.last = .ok r) → Made (.ofRanges rs inverted)
  | complement {k : CharClass} : Made k → Made k.complement
  | combine (op : Bool → Bool → Bool) {a b : CharClass} :
      Made a → Made b → Made (.combine op a b)

theorem Made.ordered {k : CharClass} (h : k.Made) : k.Ordered := by
  induction h with
  | empty => exact nofun
  | universal => exact nofun
  | single c =>
    intro r hr
    cases List.mem_singleton.1 hr
    exact Char.le_refl c
  | ofRange hr =>
    intro r' hr'
    cases List.mem_singleton.1 hr'
    exact CharRange.ordered_of_between hr
  | ofRanges inverted hrs =>
    exact (canonical_ofRanges (CharRange.forall_ordered hrs) inverted).ordered
  | complement _ ih => exact ih
  | combine op _ _ _ _ => exact (canonical_combine op _ _).ordered

/-! ## Emptiness -/

/-- Parts that are not all there is leave a character out. -/
theorem Canonical.exists_not_mem_parts {k : CharClass} (h : k.Canonical) :
    ∃ c, ∀ r ∈ k.parts, r.contains c = false := by
  obtain ⟨hordered, hapart, hfull⟩ := h
  match hparts : k.parts with
  | [] => exact ⟨Scalar.first, fun _ hr => by cases hr⟩
  | [r] =>
    -- one part that does not start first or does not end last
    by_cases hfirst : r.first ≤ Scalar.first
    · by_cases hlast : Scalar.last ≤ r.last
      · have h1 : r.first = Scalar.first := Char.le_antisymm hfirst (Scalar.first_le _)
        have h2 : r.last = Scalar.last := Char.le_antisymm (Scalar.le_last _) hlast
        exact absurd (hparts.trans (congrArg (fun r => [r]) (by cases r; cases h1; cases h2; rfl)))
          hfull
      · refine ⟨Scalar.last, fun s hs => ?_⟩
        rw [List.mem_singleton.1 hs]
        exact CharRange.contains_eq_false_iff.2 (.inr (Char.not_le.1 hlast))
    · refine ⟨Scalar.first, fun s hs => ?_⟩
      rw [List.mem_singleton.1 hs]
      exact CharRange.contains_eq_false_iff.2 (.inl (Char.not_le.1 hfirst))
  | r :: s :: rest =>
    -- the character between the first two parts
    rw [hparts] at hapart
    obtain ⟨hr, hrest⟩ := List.pairwise_cons.1 hapart
    obtain ⟨c, hrc, hcs⟩ := hr s (List.mem_cons_self ..)
    refine ⟨c, fun t ht => ?_⟩
    rcases List.mem_cons.1 ht with rfl | ht
    · exact CharRange.contains_eq_false_iff.2 (.inr hrc)
    · have hct : c < t.first := by
        rcases List.mem_cons.1 ht with rfl | ht'
        · exact hcs
        · obtain ⟨d, hsd, hdt⟩ := (List.pairwise_cons.1 hrest).1 t ht'
          have hs : s.first ≤ s.last := hordered s (by simp [hparts])
          simp only [le_iff_toNat, lt_iff_toNat] at *; omega
      exact CharRange.contains_eq_false_iff.2 (.inl hct)

theorem Canonical.isEmpty_iff {k : CharClass} (h : k.Canonical) :
    k.isEmpty = true ↔ ∀ c, c ∉ k := by
  refine ⟨not_mem_of_isEmpty, fun hk => ?_⟩
  cases hinv : k.inverted with
  | false =>
    cases hparts : k.parts with
    | nil => simp [isEmpty, hparts, hinv]
    | cons r rest =>
      have hr : r.Ordered := h.ordered r (by simp [hparts])
      have hfirst : r.contains r.first = true := CharRange.contains_iff.2 ⟨Char.le_refl _, hr⟩
      exact absurd (by simp [mem_iff_contains, contains, hparts, hinv, hfirst]) (hk r.first)
  | true =>
    obtain ⟨c, hc⟩ := h.exists_not_mem_parts
    have hany : k.parts.any (·.contains c) = false := by simpa using hc
    exact absurd (by simp [mem_iff_contains, contains, hany, hinv]) (hk c)

/-! ## The decision procedures -/

theorem inter_isEmpty_iff {a b : CharClass} :
    (a.inter b).isEmpty = true ↔ ∀ c, c ∈ a → c ∉ b :=
  (canonical_combine (· && ·) a b).isEmpty_iff.trans (forall_congr' fun c => by
    rw [← inter, mem_inter, not_and])

theorem overlaps_iff {a b : CharClass} : a.overlaps b = true ↔ ∃ c, c ∈ a ∧ c ∈ b := by
  rw [overlaps, Bool.not_eq_true', Bool.eq_false_iff, ne_eq, inter_isEmpty_iff]
  simp

theorem isSubset_iff {a b : CharClass} : a.isSubset b = true ↔ ∀ c, c ∈ a → c ∈ b := by
  rw [isSubset, diff, inter_isEmpty_iff]
  simp

theorem sameAs_iff {a b : CharClass} : a.sameAs b = true ↔ ∀ c, c ∈ a ↔ c ∈ b := by
  rw [sameAs, Bool.and_eq_true, isSubset_iff, isSubset_iff]
  exact ⟨fun h c => ⟨h.1 c, h.2 c⟩, fun h => ⟨fun c => (h c).1, fun c => (h c).2⟩⟩

end CharClass

end RegularLanguages
