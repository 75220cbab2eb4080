import RegularLanguages.Proofs.CharClass.Extremes
import RegularLanguages.Proofs.CharClass.Search

/-!
# The stored form of a class

A canonical class is known by its characters and its flag: parts in order with a character between
any two of them can cover the same characters in one way only. So equations between classes of the
sweep hold for the stored forms as soon as they hold for sets and flags, and the flags of a result
come from those of the operands unless the result has all characters or none.
-/

namespace RegularLanguages

open Scalar (le_iff_toNat lt_iff_toNat)

namespace CharClass

variable {r s : CharRange} {rs ss : List CharRange}

/-! ## Parts -/

theorem any_first (hr : r.Ordered) : (r :: rs).any (·.contains r.first) = true := by
  rw [List.any_cons, CharRange.contains_iff.2 ⟨Char.le_refl _, hr⟩, Bool.true_or]

/-- No part lies around a character that is not after any gap behind an earlier part. -/
theorem any_eq_false_of_le_gap (h : (r :: rs).Pairwise CharRange.Apart) {c : Char}
    (hc : ∀ d, r.last < d → c ≤ d) : rs.any (·.contains c) = false := by
  refine List.any_eq_false.2 fun t ht => Bool.not_eq_true _ ▸ ?_
  obtain ⟨d, hrd, hdt⟩ := (List.pairwise_cons.1 h).1 t ht
  exact CharRange.contains_eq_false_iff.2 (.inl (Nat.lt_of_le_of_lt (hc d hrd) hdt))

theorem first_le_of_any_eq (hr : r.Ordered) (hs : s.Ordered)
    (hss : (s :: ss).Pairwise CharRange.Apart)
    (h : ∀ c, (r :: rs).any (·.contains c) = (s :: ss).any (·.contains c)) : s.first ≤ r.first := by
  refine Char.not_lt.1 fun hlt => ?_
  have hany := (h r.first).symm.trans (any_first hr)
  rw [any_eq_false_of_lt hs hss hlt] at hany
  cases hany

/-- A part that starts where another does and ends later has the character after the other's end,
which nothing after the other has. -/
theorem last_le_of_any_eq (hr : r.Ordered) (hrs : (r :: rs).Pairwise CharRange.Apart)
    (hfirst : r.first = s.first)
    (h : ∀ c, (r :: rs).any (·.contains c) = (s :: ss).any (·.contains c)) : s.last ≤ r.last := by
  refine Char.not_lt.1 fun hlt => ?_
  cases hn : Scalar.next? r.last with
  | none => exact Char.not_lt.2 (Scalar.le_of_next?_eq_none hn s.last) hlt
  | some n =>
    have hnext := Scalar.lt_iff_of_next? hn
    have hrn : r.last < n := (hnext n).2 (Char.le_refl n)
    have hs : s.contains n = true := by
      have hr : r.first ≤ r.last := hr
      refine CharRange.contains_iff.2 ⟨?_, (hnext s.last).1 hlt⟩
      rw [← hfirst]
      simp only [le_iff_toNat, lt_iff_toNat] at *; omega
    have hrest : rs.any (·.contains n) = false :=
      any_eq_false_of_le_gap hrs fun d => (hnext d).1
    have hany := h n
    rw [List.any_cons, List.any_cons, hs, hrest,
      CharRange.contains_eq_false_iff.2 (.inr hrn)] at hany
    cases hany

/-- Parts are known by the characters that they cover. -/
theorem parts_eq_of_any_eq (hr : ∀ r ∈ rs, r.Ordered) (hrs : rs.Pairwise CharRange.Apart)
    (hs : ∀ s ∈ ss, s.Ordered) (hss : ss.Pairwise CharRange.Apart)
    (h : ∀ c, rs.any (·.contains c) = ss.any (·.contains c)) : rs = ss := by
  induction rs generalizing ss with
  | nil =>
    cases ss with
    | nil => rfl
    | cons s rest =>
      exact absurd ((h s.first).trans (any_first (hs s (by simp)))) Bool.false_ne_true
  | cons r rest ih =>
    cases ss with
    | nil =>
      exact absurd ((h r.first).symm.trans (any_first (hr r (by simp)))) Bool.false_ne_true
    | cons s rest' =>
      have hr' : r.Ordered := hr r (by simp)
      have hs' : s.Ordered := hs s (by simp)
      have hfirst : r.first = s.first :=
        Char.le_antisymm (first_le_of_any_eq hs' hr' hrs fun c => (h c).symm)
          (first_le_of_any_eq hr' hs' hss h)
      have hlast : r.last = s.last :=
        Char.le_antisymm (last_le_of_any_eq hs' hss hfirst.symm fun c => (h c).symm)
          (last_le_of_any_eq hr' hrs hfirst h)
      obtain rfl : r = s := by
        cases r
        cases s
        cases hfirst
        cases hlast
        rfl
      rw [ih (fun t ht => hr t (List.mem_cons_of_mem _ ht)) (List.pairwise_cons.1 hrs).2
        (fun t ht => hs t (List.mem_cons_of_mem _ ht)) (List.pairwise_cons.1 hss).2 fun c => ?_]
      by_cases hc : c ≤ r.last
      · have hgap : ∀ d, r.last < d → c ≤ d := fun d hd => Nat.le_of_lt (Nat.lt_of_le_of_lt hc hd)
        rw [any_eq_false_of_le_gap hrs hgap, any_eq_false_of_le_gap hss hgap]
      · have hany := h c
        rwa [List.any_cons, List.any_cons,
          CharRange.contains_eq_false_iff.2 (.inr (Char.not_le.1 hc))] at hany

/-! ## Classes -/

variable {a b k : CharClass}

/-- Canonical classes with the same flag and the same characters are stored alike. -/
theorem Canonical.eq_of_iff (ha : a.Canonical) (hb : b.Canonical) (hflag : a.inverted = b.inverted)
    (h : ∀ c, c ∈ a ↔ c ∈ b) : a = b := by
  have hparts : a.parts = b.parts :=
    parts_eq_of_any_eq ha.ordered ha.apart hb.ordered hb.apart fun c => by
      have hc : a.contains c = b.contains c := Bool.eq_iff_iff.2 (h c)
      rw [contains, contains, hflag] at hc
      exact Bool.bne_left_inj.1 hc
  obtain ⟨parts, inverted⟩ := a
  cases hparts
  cases hflag
  rfl

/-- A canonical class without parts is the only one with its characters. -/
theorem Canonical.eq_of_parts_eq_nil (ha : a.Canonical) (hb : b.Canonical) (hnil : a.parts = [])
    (h : ∀ c, c ∈ a ↔ c ∈ b) : a = b := by
  refine ha.eq_of_iff hb ?_ h
  cases hflag : a.inverted with
  | false =>
    have hempty : a.isEmpty = true := by simp [isEmpty, hnil, hflag]
    have hb := hb.isEmpty_iff.2 fun c hc => ha.isEmpty_iff.1 hempty c ((h c).2 hc)
    simpa [isEmpty] using (Bool.and_eq_true_iff.1 hb).2.symm
  | true =>
    have huniversal : a.isUniversal = true := by simp [isUniversal, hnil, hflag]
    have hb := hb.exact.isUniversal_iff.2 fun c =>
      (h c).1 (ha.exact.isUniversal_iff.1 huniversal c)
    exact (Bool.and_eq_true_iff.1 hb).2.symm

theorem inverted_ofRanges (rs : List CharRange) (inverted : Bool) :
    (ofRanges rs inverted).parts = [] ∨ (ofRanges rs inverted).inverted = inverted := by
  unfold ofRanges
  split
  · split
    · exact .inl rfl
    · exact .inr rfl
  · exact .inr rfl

/-- The sweep takes its flag from the operands, unless no part is left. -/
theorem inverted_combine (op : Bool → Bool → Bool) (a b : CharClass) :
    (combine op a b).parts = [] ∨ (combine op a b).inverted = op a.inverted b.inverted :=
  inverted_ofRanges ..

/-- Canonical classes with the same characters are stored alike if their flags, which classes
without parts do not choose, would be the same. -/
theorem Canonical.eq_of_flag (ha : a.Canonical) (hb : b.Canonical) {f : Bool}
    (hflag : a.parts = [] ∨ a.inverted = f) (hflag' : b.parts = [] ∨ b.inverted = f)
    (h : ∀ c, a.contains c = b.contains c) : a = b := by
  have hmem : ∀ c, c ∈ a ↔ c ∈ b := fun c => by rw [mem_iff_contains, mem_iff_contains, h c]
  rcases hflag with hnil | hflag
  · exact ha.eq_of_parts_eq_nil hb hnil hmem
  · rcases hflag' with hnil | hflag'
    · exact (hb.eq_of_parts_eq_nil ha hnil fun c => (hmem c).symm).symm
    · exact ha.eq_of_iff hb (hflag.trans hflag'.symm) hmem

/-- The stored form depends on the characters of the ranges alone. -/
theorem ofRanges_congr (hr : ∀ r ∈ rs, r.Ordered) (hs : ∀ s ∈ ss, s.Ordered)
    (h : ∀ c, rs.any (·.contains c) = ss.any (·.contains c)) (inverted : Bool) :
    ofRanges rs inverted = ofRanges ss inverted :=
  (canonical_ofRanges hr inverted).eq_of_flag (canonical_ofRanges hs inverted)
    (inverted_ofRanges rs inverted) (inverted_ofRanges ss inverted) fun c => by
      rw [contains_ofRanges, contains_ofRanges, h c]

/-- A canonical class is made again of its own parts. -/
theorem Canonical.ofRanges_parts (h : k.Canonical) : ofRanges k.parts k.inverted = k :=
  (canonical_ofRanges h.ordered k.inverted).eq_of_flag h (inverted_ofRanges ..) (.inr rfl) fun c =>
    contains_ofRanges k.parts k.inverted c

/-- Intersecting once more changes nothing, also in the way the result is stored. -/
theorem inter_inter_self (a k : CharClass) : a.inter (a.inter k) = a.inter k := by
  have hinner : (a.inter k).Canonical := canonical_combine ..
  have houter : (a.inter (a.inter k)).Canonical := canonical_combine ..
  have hcontains : ∀ c, (a.inter (a.inter k)).contains c = (a.inter k).contains c := fun c => by
    simp only [inter, contains_combine, Bool.and_self_left]
  rcases inverted_combine (· && ·) a k with hnil | hflag
  · exact houter.eq_of_flag hinner (.inr rfl) (.inl hnil) hcontains
  · have hflag' := inverted_combine (· && ·) a (a.inter k)
    rw [inter, hflag, Bool.and_self_left] at hflag'
    exact houter.eq_of_flag hinner hflag' (.inr hflag) hcontains

end CharClass

end RegularLanguages
