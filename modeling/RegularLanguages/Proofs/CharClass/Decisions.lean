import RegularLanguages.Proofs.CharClass.Search

/-!
# The tests on two classes

`sameAs`, `overlaps` and `isSubset` look at how a swept class is stored, and the sweep stores no
characters in one way only. So they are exact, however their operands are stored. Equality as
`sameAs` decides it is an equivalence, and all operations respect it.
-/

namespace RegularLanguages.CharClass

variable {a b a' b' : CharClass}

/-! ## Equality -/

theorem sameAs_equivalence : Equivalence fun k l : CharClass => k.sameAs l = true where
  refl _ := sameAs_iff.2 fun _ => .rfl
  symm h := sameAs_iff.2 fun c => (sameAs_iff.1 h c).symm
  trans h h' := sameAs_iff.2 fun c => (sameAs_iff.1 h c).trans (sameAs_iff.1 h' c)

theorem contains_eq_of_sameAs (h : a.sameAs b = true) (c : Char) : a.contains c = b.contains c :=
  Bool.eq_iff_iff.2 (sameAs_iff.1 h c)

theorem sameAs_combine (op : Bool → Bool → Bool) (ha : a.sameAs a' = true)
    (hb : b.sameAs b' = true) : (combine op a b).sameAs (combine op a' b') = true := by
  refine sameAs_iff.2 fun c => ?_
  rw [mem_iff_contains, mem_iff_contains, contains_combine, contains_combine,
    contains_eq_of_sameAs ha, contains_eq_of_sameAs hb]

theorem sameAs_complement (h : a.sameAs a' = true) : a.complement.sameAs a'.complement = true := by
  refine sameAs_iff.2 fun c => ?_
  rw [mem_complement, mem_complement, sameAs_iff.1 h c]

/-- The operations make classes with the same characters of `a` and `b` as of `a'` and `b'`. -/
structure Interchangeable (a b a' b' : CharClass) : Prop where
  union : (a.union b).sameAs (a'.union b') = true
  inter : (a.inter b).sameAs (a'.inter b') = true
  diff : (a.diff b).sameAs (a'.diff b') = true
  complement : a.complement.sameAs a'.complement = true

theorem interchangeable (ha : a.sameAs a' = true) (hb : b.sameAs b' = true) :
    Interchangeable a b a' b' where
  union := sameAs_combine (· || ·) ha hb
  inter := sameAs_combine (· && ·) ha hb
  diff := sameAs_combine (· && ·) ha (sameAs_complement hb)
  complement := sameAs_complement ha

/-! ## The tests and the search -/

/-- What the tests say, in terms of the characters that are found in the classes. -/
structure Decided (a b : CharClass) : Prop where
  sameAs_iff : a.sameAs b = true ↔ ∀ c, a.includes c = b.includes c
  overlaps_iff : a.overlaps b = true ↔ ∃ c, a.includes c = true ∧ b.includes c = true
  isSubset_iff : a.isSubset b = true ↔ ∀ c, a.includes c = true → b.includes c = true

theorem Made.includes_iff {k : CharClass} (h : k.Made) {c : Char} : k.includes c = true ↔ c ∈ k :=
  iff_of_eq (congrArg (· = true) (h.includes_eq c))

theorem Made.decided (ha : a.Made) (hb : b.Made) : a.Decided b where
  sameAs_iff := CharClass.sameAs_iff.trans <| forall_congr' fun c => by
    rw [Bool.eq_iff_iff, ha.includes_iff, hb.includes_iff]
  overlaps_iff := CharClass.overlaps_iff.trans <| exists_congr fun c => by
    rw [ha.includes_iff, hb.includes_iff]
  isSubset_iff := CharClass.isSubset_iff.trans <| forall_congr' fun c => by
    rw [ha.includes_iff, hb.includes_iff]

/-- The tests are exact on all classes that can be made. `sameAs` is an equivalence, and classes
that it does not tell apart are interchangeable in all operations. -/
theorem Made.tests_exact (ha : a.Made) (hb : b.Made) :
    a.Decided b ∧ (Equivalence fun k l : CharClass => k.sameAs l = true) ∧
      ∀ a' b', a.sameAs a' = true → b.sameAs b' = true → Interchangeable a b a' b' :=
  ⟨ha.decided hb, sameAs_equivalence, fun _ _ => interchangeable⟩

/-- All characters as one range, which is not the canonical form. -/
def everything : CharClass := .ofRange .full

/-- The characters from `a` on, as all but those before. -/
def fromA : CharClass := .ofRanges [⟨Scalar.first, '`'⟩] true

theorem tests_exact_everything : everything.Made ∧ fromA.Made ∧ everything.Decided fromA ∧
    Interchangeable everything fromA .universal (.ofRange ⟨'a', Scalar.last⟩) := by
  have ha : everything.Made := .ofRange (if_pos (by decide))
  have hb : fromA.Made := .ofRanges true (CharRange.forall_between (by decide))
  obtain ⟨hdecided, -, hinterchangeable⟩ := ha.tests_exact hb
  exact ⟨ha, hb, hdecided, hinterchangeable _ _ (by decide) (by decide)⟩

end RegularLanguages.CharClass
