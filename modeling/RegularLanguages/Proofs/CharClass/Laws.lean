import RegularLanguages.Proofs.CharClass.StoredForm

/-!
# Laws of the stored forms

The operations obey the laws of sets, and on classes that come out of the sweep the two sides of a
law are even stored alike. Both sides have the same characters; what could differ is the flag. The
sweep computes it from those of its operands, except that a class without parts has the flag that
its characters ask for. Such a class has all characters or none: if a union inside a law has all,
so have both sides of the law, and if it has none, its operands are not inverted either.
-/

namespace RegularLanguages

open Scalar (le_iff_toNat)

namespace CharClass

variable {a b c k : CharClass} {op op' : Bool → Bool → Bool}

theorem complement_complement (k : CharClass) : k.complement.complement = k := by
  rw [complement, complement, Bool.not_not]

/-! ## Laws of every sweep -/

theorem combine_comm (hop : ∀ x y, op x y = op y x) (a b : CharClass) :
    combine op a b = combine op b a :=
  (canonical_combine op a b).eq_of_flag (canonical_combine op b a) (inverted_combine op a b)
    ((inverted_combine op b a).imp_right fun h => h.trans (hop ..)) fun x => by
      rw [contains_combine, contains_combine, hop]

theorem combine_self (hop : ∀ x, op x x = x) (h : a.Canonical) : combine op a a = a :=
  (canonical_combine op a a).eq_of_flag h (inverted_combine op a a) (.inr (hop _).symm) fun x => by
    rw [contains_combine, hop]

theorem complement_combine (hop : ∀ x y, (!op x y) = op' (!x) (!y)) (a b : CharClass) :
    (combine op a b).complement = combine op' a.complement b.complement :=
  (canonical_combine op a b).complement.eq_of_flag (canonical_combine ..)
    ((inverted_combine op a b).imp_right fun h => (congrArg (!·) h).trans (hop ..))
    (inverted_combine ..) fun x => by
      rw [contains_complement, contains_combine, contains_combine, contains_complement,
        contains_complement, hop]

theorem complement_union (a b : CharClass) :
    (a.union b).complement = a.complement.inter b.complement :=
  complement_combine Bool.not_or a b

theorem complement_inter (a b : CharClass) :
    (a.inter b).complement = a.complement.union b.complement :=
  complement_combine Bool.not_and a b

/-! ## Associativity -/

theorem eq_empty_or_universal (h : k.parts = []) : k = empty ∨ k = universal := by
  obtain ⟨parts, inverted⟩ := k
  cases h
  cases inverted with
  | false => exact .inl rfl
  | true => exact .inr rfl

theorem Canonical.inverted_eq_false (h : k.Canonical) (hnone : ∀ x, x ∉ k) :
    k.inverted = false := by
  have hempty := h.isEmpty_iff.2 hnone
  rw [isEmpty, Bool.and_eq_true, Bool.not_eq_true'] at hempty
  exact hempty.2

theorem Canonical.eq_universal (h : k.Canonical) (hall : ∀ x, x ∈ k) : k = universal :=
  (canonical_universal.eq_of_parts_eq_nil h rfl fun x =>
    iff_of_true (mem_universal x) (hall x)).symm

/-- The flag of a union comes from its operands, unless the union has all characters. -/
theorem union_eq_universal_or (ha : a.Canonical) (hb : b.Canonical) :
    a.union b = universal ∨ (a.union b).inverted = (a.inverted || b.inverted) := by
  rcases inverted_combine (· || ·) a b with hnil | hflag
  · rcases eq_empty_or_universal hnil with hempty | huniversal
    · have hempty : a.union b = empty := hempty
      have hnone : ∀ x, x ∉ a ∧ x ∉ b := fun x =>
        not_or.1 (mt mem_union.2 (hempty ▸ not_mem_empty x))
      rw [ha.inverted_eq_false fun x => (hnone x).1, hb.inverted_eq_false fun x => (hnone x).2]
      exact .inr (congrArg inverted hempty)
    · exact .inl huniversal
  · exact .inr hflag

theorem union_assoc (ha : a.Canonical) (hb : b.Canonical) (hc : c.Canonical) :
    (a.union b).union c = a.union (b.union c) := by
  have hleft : ((a.union b).union c).Canonical := canonical_combine ..
  have hright : (a.union (b.union c)).Canonical := canonical_combine ..
  have huniversal (hall : ∀ x, x ∈ a ∨ x ∈ b ∨ x ∈ c) :
      (a.union b).union c = a.union (b.union c) := by
    rw [hleft.eq_universal fun x => by simpa [or_assoc] using hall x,
      hright.eq_universal fun x => by simpa using hall x]
  -- an inner union that is universal makes both sides so; otherwise all flags are known
  rcases union_eq_universal_or ha hb with hab | hab
  · exact huniversal fun x => or_assoc.1 (.inl (mem_union.1 (hab ▸ mem_universal x)))
  · rcases union_eq_universal_or hb hc with hbc | hbc
    · exact huniversal fun x => .inr (mem_union.1 (hbc ▸ mem_universal x))
    · have hflag := inverted_combine (· || ·) (a.union b) c
      have hflag' := inverted_combine (· || ·) a (b.union c)
      rw [hab] at hflag
      rw [hbc, ← Bool.or_assoc] at hflag'
      refine hleft.eq_of_flag hright hflag hflag' fun x => ?_
      simp only [union, contains_combine, Bool.or_assoc]

/-- An intersection is the complement of a union. -/
theorem inter_assoc (ha : a.Canonical) (hb : b.Canonical) (hc : c.Canonical) :
    (a.inter b).inter c = a.inter (b.inter c) := by
  have hassoc := union_assoc ha.complement hb.complement hc.complement
  simp only [← complement_inter] at hassoc
  rw [← complement_complement ((a.inter b).inter c), hassoc, complement_complement]

/-! ## Classes of the sweep -/

/-- The class comes out of `ofRanges` or of sweeps, or it is the complement of one that does. -/
inductive Swept : CharClass → Prop where
  | ofRanges {rs : List CharRange} (inverted : Bool) :
      (∀ r ∈ rs, CharRange.between r.first r.last = .ok r) → Swept (.ofRanges rs inverted)
  | combine (op : Bool → Bool → Bool) {a b : CharClass} :
      a.Made → b.Made → Swept (.combine op a b)
  | unionAll {ks : List CharClass} : (∀ k ∈ ks, k.Made) → Swept (.unionAll ks)
  | complement {k : CharClass} : Swept k → Swept k.complement

theorem Swept.canonical (h : k.Swept) : k.Canonical := by
  induction h with
  | ofRanges inverted hrs =>
    exact canonical_ofRanges (CharRange.forall_ordered hrs) inverted
  | combine op _ _ => exact canonical_combine ..
  | unionAll _ => exact canonical_unionAll _
  | complement _ ih => exact ih.complement

theorem Swept.made (h : k.Swept) : k.Made := by
  induction h with
  | ofRanges inverted hrs => exact .ofRanges inverted hrs
  | combine op ha hb => exact .combine op ha hb
  | unionAll hks => exact .unionAll hks
  | complement _ ih => exact ih.complement

/-- The laws of sets, for the parts and the flag as they are stored. -/
structure Laws (a b c : CharClass) : Prop where
  union_comm : a.union b = b.union a
  union_assoc : (a.union b).union c = a.union (b.union c)
  union_self : a.union a = a
  inter_comm : a.inter b = b.inter a
  inter_assoc : (a.inter b).inter c = a.inter (b.inter c)
  inter_self : a.inter a = a
  complement_union : (a.union b).complement = a.complement.inter b.complement
  complement_inter : (a.inter b).complement = a.complement.union b.complement

theorem Swept.laws (ha : a.Swept) (hb : b.Swept) (hc : c.Swept) : a.Laws b c where
  union_comm := combine_comm Bool.or_comm a b
  union_assoc := CharClass.union_assoc ha.canonical hb.canonical hc.canonical
  union_self := combine_self Bool.or_self ha.canonical
  inter_comm := combine_comm Bool.and_comm a b
  inter_assoc := CharClass.inter_assoc ha.canonical hb.canonical hc.canonical
  inter_self := combine_self Bool.and_self ha.canonical
  complement_union := CharClass.complement_union a b
  complement_inter := CharClass.complement_inter a b

theorem Swept.parts_eq (ha : a.Swept) (hb : b.Swept) (h : ∀ x, a.includes x = b.includes x)
    (hflag : a.inverted = b.inverted) : a.parts = b.parts := by
  refine congrArg parts (ha.canonical.eq_of_flag hb.canonical (.inr hflag) (.inr rfl) fun x => ?_)
  rw [← ha.made.includes_eq, ← hb.made.includes_eq, h x]

/-- The stored form of what comes out of the sweep is known by the characters and the flag, and the
laws of sets hold of it; that of `ofRanges` is known by the characters of its ranges. -/
theorem Swept.stored_canonically (ha : a.Swept) (hb : b.Swept) (hc : c.Swept) :
    ((∀ x, a.includes x = b.includes x) → a.inverted = b.inverted → a.parts = b.parts) ∧
    a.Laws b c ∧
    ∀ rs ss inverted, (∀ r ∈ rs, CharRange.between r.first r.last = .ok r) →
      (∀ s ∈ ss, CharRange.between s.first s.last = .ok s) →
      (∀ x, rs.any (·.contains x) = ss.any (·.contains x)) →
      CharClass.ofRanges rs inverted = CharClass.ofRanges ss inverted :=
  ⟨ha.parts_eq hb, ha.laws hb hc, fun _ _ inverted hrs hss h =>
    ofRanges_congr (CharRange.forall_ordered hrs) (CharRange.forall_ordered hss) h inverted⟩

/-- The characters below the gap, from ranges that overlap and are out of order. -/
def belowGap : CharClass := ofRanges [⟨'n', '\ud7ff'⟩, ⟨Scalar.first, 'p'⟩] false

/-- The characters above the gap, as all but some ranges. -/
def aboveGap : CharClass := ofRanges [⟨'a', '\ud7ff'⟩, ⟨Scalar.first, 'a'⟩] true

/-- In the laws a union over the gap is universal, so the flag changes on the way; and pieces that
meet there are stored as one range. -/
theorem stored_canonically_gap : belowGap.Swept ∧ aboveGap.Swept ∧
    belowGap.parts = aboveGap.complement.parts ∧
    aboveGap.complement.union aboveGap = universal ∧ belowGap.Laws aboveGap.complement aboveGap ∧
    ofRanges [⟨'\ue000', '\ue0ff'⟩, ⟨'b', 'c'⟩, ⟨'a', '\ud7ff'⟩] true =
      ofRanges [⟨'a', '\ue0ff'⟩] true := by
  have hbelow : belowGap.Swept := .ofRanges false (CharRange.forall_between (by decide))
  have habove : aboveGap.Swept := .ofRanges true (CharRange.forall_between (by decide))
  obtain ⟨hparts, hlaws, hranges⟩ := hbelow.stored_canonically habove.complement habove
  have hsame (x : Char) : belowGap.includes x = aboveGap.complement.includes x := by
    rw [hbelow.made.includes_eq, habove.complement.made.includes_eq, contains_complement, belowGap,
      aboveGap, contains_ofRanges, contains_ofRanges, Bool.bne_false, Bool.bne_true, Bool.not_not,
      Bool.eq_iff_iff]
    simp only [List.any_cons, List.any_nil, Bool.or_false, Bool.or_eq_true, CharRange.contains_iff,
      le_iff_toNat, Scalar.first, Char.reduceToNat]
    omega
  refine ⟨hbelow, habove, hparts hsame rfl, rfl, hlaws, hranges _ _ true ?_ ?_ fun x => ?_⟩
  · exact CharRange.forall_between (by decide)
  · exact CharRange.forall_between (by decide)
  · have hx := Scalar.toNat_valid x
    rw [Bool.eq_iff_iff]
    simp only [List.any_cons, List.any_nil, Bool.or_false, Bool.or_eq_true, CharRange.contains_iff,
      le_iff_toNat, Char.reduceToNat]
    omega

end CharClass

end RegularLanguages
