import RegularLanguages.CharClass.Basic

/-!
# Membership after each class operation

`contains` looks at the parts of a class one by one, so what an operation does to a class is said
by one equation about one character. None of the equations asks how the operands are stored: the
parts may overlap, touch, be out of order or have their bounds in the wrong order.

The sweep of `combine` rests on `contains_eq_of_mem_stretch`: a stretch contains no cut but its own
start, so all its characters are in the same ranges.
-/

namespace RegularLanguages

open Scalar (le_iff_toNat lt_iff_toNat)

namespace CharRange

theorem contains_iff {r : CharRange} {c : Char} :
    r.contains c = true ↔ r.first ≤ c ∧ c ≤ r.last := by
  simp [contains]

theorem contains_eq_false_iff {r : CharRange} {c : Char} :
    r.contains c = false ↔ c < r.first ∨ r.last < c := by
  rw [← Bool.not_eq_true, contains_iff, Decidable.not_and_iff_or_not, Char.not_le, Char.not_le]

theorem contains_full (c : Char) : full.contains c = true :=
  contains_iff.2 ⟨Scalar.first_le c, Scalar.le_last c⟩

/-- Joining two ranges that touch loses and adds nothing. -/
theorem contains_join {r s : CharRange} (hrs : r.first ≤ s.first) (ht : r.touches s = true)
    (c : Char) : (r.join s).contains c = (r.contains c || s.contains c) := by
  have hgap : ¬(r.last < c ∧ c < s.first) := by
    rintro ⟨h1, h2⟩
    unfold touches at ht
    split at ht
    · rename_i hn
      have := Scalar.le_of_next?_eq_none hn c
      simp only [le_iff_toNat, lt_iff_toNat] at *; omega
    · rename_i n hn
      have := (Scalar.lt_iff_of_next? hn c).1 h1
      simp only [decide_eq_true_eq] at ht
      simp only [le_iff_toNat, lt_iff_toNat] at *; omega
  rw [Bool.eq_iff_iff, Bool.or_eq_true]
  simp only [contains_iff, join]
  simp only [le_iff_toNat, lt_iff_toNat] at *
  split <;> omega

end CharRange

namespace CharClass

/-! ## Sorting and joining -/

theorem any_insertRange (p : CharRange → Bool) (r : CharRange) (rs : List CharRange) :
    (insertRange r rs).any p = (r :: rs).any p := by
  induction rs with
  | nil => rfl
  | cons s rest ih =>
    unfold insertRange
    split
    · rfl
    · simp only [List.any_cons] at ih ⊢
      rw [ih, Bool.or_left_comm]

theorem any_sortRanges (p : CharRange → Bool) (rs : List CharRange) :
    (sortRanges rs).any p = rs.any p := by
  induction rs with
  | nil => rfl
  | cons r rest ih => rw [sortRanges, any_insertRange, List.any_cons, ih, List.any_cons]

theorem mem_insertRange {r s : CharRange} {rs : List CharRange} :
    s ∈ insertRange r rs ↔ s = r ∨ s ∈ rs := by
  have h := any_insertRange (· = s) r rs
  rw [Bool.eq_iff_iff] at h
  simpa only [List.any_eq_true, decide_eq_true_eq, exists_eq_right, List.mem_cons] using h

theorem mem_sortRanges {r : CharRange} {rs : List CharRange} : r ∈ sortRanges rs ↔ r ∈ rs := by
  have h := any_sortRanges (· = r) rs
  rw [Bool.eq_iff_iff] at h
  simpa only [List.any_eq_true, decide_eq_true_eq, exists_eq_right] using h

/-- Sorted by start. -/
abbrev Sorted (rs : List CharRange) : Prop := rs.Pairwise (·.first ≤ ·.first)

theorem sorted_insertRange {r : CharRange} {rs : List CharRange} (h : Sorted rs) :
    Sorted (insertRange r rs) := by
  induction rs with
  | nil => simp [insertRange]
  | cons s rest ih =>
    obtain ⟨hs, hrest⟩ := List.pairwise_cons.1 h
    unfold insertRange
    split
    · rename_i hrs
      refine List.pairwise_cons.2 ⟨fun t ht => ?_, h⟩
      rcases List.mem_cons.1 ht with rfl | ht
      · exact hrs
      · exact Nat.le_trans hrs (hs t ht)
    · rename_i hrs
      refine List.pairwise_cons.2 ⟨fun t ht => ?_, ih hrest⟩
      rcases mem_insertRange.1 ht with rfl | ht
      · exact Nat.le_of_not_le hrs
      · exact hs t ht

theorem sorted_sortRanges (rs : List CharRange) : Sorted (sortRanges rs) := by
  induction rs with
  | nil => exact .nil
  | cons r rest ih => exact sorted_insertRange ih

/-- A joined range starts where the first one does, so the list stays sorted. -/
theorem sorted_join {r s : CharRange} {rs : List CharRange} (h : Sorted (r :: s :: rs)) :
    Sorted (r.join s :: rs) := by
  simp only [List.pairwise_cons, List.mem_cons, forall_eq_or_imp] at h ⊢
  exact ⟨h.1.2, h.2.2⟩

theorem any_coalesceFrom {r : CharRange} {rs : List CharRange} (h : Sorted (r :: rs)) (c : Char) :
    (coalesceFrom r rs).any (·.contains c) = (r :: rs).any (·.contains c) := by
  induction rs generalizing r with
  | nil => rfl
  | cons s rest ih =>
    have hrs := (List.pairwise_cons.1 h).1 s (List.mem_cons_self ..)
    unfold coalesceFrom
    split
    · rename_i ht
      rw [ih (sorted_join h), List.any_cons, CharRange.contains_join hrs ht]
      simp only [List.any_cons, Bool.or_assoc]
    · rw [List.any_cons, ih (List.pairwise_cons.1 h).2, List.any_cons (a := r)]

theorem any_coalesce {rs : List CharRange} (h : Sorted rs) (c : Char) :
    (coalesce rs).any (·.contains c) = rs.any (·.contains c) := by
  cases rs with
  | nil => rfl
  | cons r rest => exact any_coalesceFrom h c

theorem contains_ofRanges (rs : List CharRange) (inverted : Bool) (c : Char) :
    (ofRanges rs inverted).contains c = (rs.any (·.contains c) != inverted) := by
  have h := (any_coalesce (sorted_sortRanges rs) c).trans (any_sortRanges _ rs)
  unfold ofRanges
  split
  · rename_i r hr
    rw [hr] at h
    split
    · rename_i hfull
      subst hfull
      rw [← h]
      simp [contains, CharRange.contains_full]
    · rw [← h]; rfl
  · rw [← h]; rfl

/-! ## The sweep -/

theorem mem_insertCut {c d : Char} {cs : List Char} : d ∈ insertCut c cs ↔ d = c ∨ d ∈ cs := by
  induction cs with
  | nil => simp [insertCut]
  | cons e rest ih =>
    unfold insertCut
    split
    · simp
    · split
      · rename_i h; simp [h]
      · simp only [List.mem_cons, ih]; exact or_left_comm

theorem pairwise_insertCut {c : Char} {cs : List Char} (h : cs.Pairwise (· < ·)) :
    (insertCut c cs).Pairwise (· < ·) := by
  induction cs with
  | nil => simp [insertCut]
  | cons d rest ih =>
    obtain ⟨hd, hrest⟩ := List.pairwise_cons.1 h
    unfold insertCut
    split
    · rename_i hcd
      refine List.pairwise_cons.2 ⟨fun e he => ?_, h⟩
      rcases List.mem_cons.1 he with rfl | he
      · exact hcd
      · exact Nat.lt_trans hcd (hd e he)
    · split
      · exact h
      · rename_i h1 h2
        refine List.pairwise_cons.2 ⟨fun e he => ?_, ih hrest⟩
        rcases mem_insertCut.1 he with rfl | he
        · have : ¬ e.toNat = d.toNat := fun h => h2 (Char.toNat_inj.1 h)
          simp only [lt_iff_toNat] at *; omega
        · exact hd e he

/-- Where a range begins, and where what follows it begins. -/
def IsCut (rs : List CharRange) (c : Char) : Prop :=
  ∃ r ∈ rs, c = r.first ∨ Scalar.next? r.last = some c

theorem mem_cuts {rs : List CharRange} {c : Char} : c ∈ cuts rs ↔ IsCut rs c := by
  induction rs with
  | nil => simp [cuts, IsCut]
  | cons r rest ih =>
    have hcons : IsCut (r :: rest) c ↔
        (c = r.first ∨ Scalar.next? r.last = some c) ∨ IsCut rest c := by
      simp [IsCut]
    rw [hcons, cuts, mem_insertCut, or_assoc, ← ih]
    cases Scalar.next? r.last with
    | none => simp
    | some d => simp only [mem_insertCut, Option.some.injEq, eq_comm (a := c)]

theorem pairwise_cuts (rs : List CharRange) : (cuts rs).Pairwise (· < ·) := by
  induction rs with
  | nil => exact .nil
  | cons r rest ih =>
    unfold cuts
    apply pairwise_insertCut
    split
    · exact pairwise_insertCut ih
    · exact ih

/-- The character before a later one is no earlier than the former. -/
theorem lt_iff_le_getD_prev? {c d : Char} (h : c < d) (x : Char) :
    x < d ↔ x ≤ (Scalar.prev? d).getD c := by
  cases hp : Scalar.prev? d with
  | none =>
    have hle := Scalar.le_of_prev?_eq_none hp c
    simp only [le_iff_toNat, lt_iff_toNat] at hle h
    omega
  | some p => exact Scalar.lt_iff_of_prev? hp x

/-- A stretch starts at a cut and has no other cut in it. -/
theorem of_mem_stretches {s : CharRange} {cs : List Char} (h : cs.Pairwise (· < ·))
    (hs : s ∈ stretches cs) :
    s.first ∈ cs ∧ s.Ordered ∧ ∀ c d, s.contains c = true → d ∈ cs → d ≤ c → d ≤ s.first := by
  induction cs with
  | nil => cases hs
  | cons c rest ih =>
    cases rest with
    | nil =>
      rw [stretches, List.mem_singleton] at hs
      subst hs
      refine ⟨List.mem_singleton_self c, Scalar.le_last c, fun x d _ hd _ => ?_⟩
      obtain rfl := List.mem_singleton.1 hd
      exact Char.le_refl _
    | cons d rest =>
      obtain ⟨hc, hrest⟩ := List.pairwise_cons.1 h
      have hcd := hc d (List.mem_cons_self ..)
      rcases List.mem_cons.1 hs with rfl | hs
      · refine ⟨List.mem_cons_self .., (lt_iff_le_getD_prev? hcd c).1 hcd, fun x e hx he hex => ?_⟩
        have hxd := (lt_iff_le_getD_prev? hcd x).2 (CharRange.contains_iff.1 hx).2
        rcases List.mem_cons.1 he with rfl | he
        · exact Nat.le_refl _
        · have hde : d ≤ e := by
            rcases List.mem_cons.1 he with rfl | he
            · exact Nat.le_refl _
            · exact Nat.le_of_lt ((List.pairwise_cons.1 hrest).1 e he)
          simp only [le_iff_toNat, lt_iff_toNat] at *; omega
      · obtain ⟨h1, h2, h3⟩ := ih hrest hs
        refine ⟨List.mem_cons_of_mem _ h1, h2, fun x e hx he hex => ?_⟩
        rcases List.mem_cons.1 he with rfl | he
        · exact Nat.le_of_lt (hc _ h1)
        · exact h3 x e hx he hex

/-- From the first cut on, every character is in a stretch. -/
theorem exists_mem_stretches {cs : List Char} {c d : Char} (hd : d ∈ cs) (hdc : d ≤ c)
    (h : cs.Pairwise (· < ·)) : ∃ s ∈ stretches cs, s.contains c = true := by
  induction cs generalizing d with
  | nil => cases hd
  | cons e rest ih =>
    have hec : e ≤ c := by
      rcases List.mem_cons.1 hd with rfl | hd
      · exact hdc
      · exact Nat.le_trans (Nat.le_of_lt ((List.pairwise_cons.1 h).1 d hd)) hdc
    cases rest with
    | nil => exact ⟨_, List.mem_singleton_self _, CharRange.contains_iff.2 ⟨hec, Scalar.le_last c⟩⟩
    | cons f rest =>
      obtain ⟨he, hrest⟩ := List.pairwise_cons.1 h
      by_cases hcf : c < f
      · refine ⟨_, List.mem_cons_self .., CharRange.contains_iff.2 ⟨hec, ?_⟩⟩
        exact (lt_iff_le_getD_prev? (he f (List.mem_cons_self ..)) c).1 hcf
      · obtain ⟨s, hs, hsc⟩ := ih (List.mem_cons_self ..) (Nat.le_of_not_lt hcf) hrest
        exact ⟨s, List.mem_cons_of_mem _ hs, hsc⟩

/-- No range begins or ends between the start of a stretch and any other character of it. -/
theorem contains_eq_of_mem_stretch {rs : List CharRange} {s r : CharRange} {c : Char}
    (hs : s ∈ stretches (cuts rs)) (hc : s.contains c = true) (hr : r ∈ rs) :
    r.contains c = r.contains s.first := by
  obtain ⟨-, -, hno⟩ := of_mem_stretches (pairwise_cuts rs) hs
  have hsc := (CharRange.contains_iff.1 hc).1
  have hfirst : r.first ≤ c → r.first ≤ s.first := hno c _ hc (mem_cuts.2 ⟨r, hr, .inl rfl⟩)
  have hlast : s.first ≤ r.last → c ≤ r.last := by
    intro hle
    cases hn : Scalar.next? r.last with
    | none => exact Scalar.le_of_next?_eq_none hn c
    | some d =>
      have hd := hno c d hc (mem_cuts.2 ⟨r, hr, .inr hn⟩)
      have h1 := Scalar.lt_iff_of_next? hn c
      have h2 := Scalar.lt_iff_of_next? hn s.first
      simp only [le_iff_toNat, lt_iff_toNat] at *; omega
  rw [Bool.eq_iff_iff, CharRange.contains_iff, CharRange.contains_iff]
  simp only [le_iff_toNat] at *; omega

/-- Before the first cut there is no range. -/
theorem contains_eq_false_of_lt {rs : List CharRange} {r : CharRange} {c : Char} (hr : r ∈ rs)
    (h : ∀ s ∈ stretches (cuts rs), s.contains c = false) : r.contains c = false := by
  rw [Bool.eq_false_iff]
  intro hc
  obtain ⟨s, hs, hsc⟩ := exists_mem_stretches (mem_cuts.2 ⟨r, hr, .inl rfl⟩)
    (CharRange.contains_iff.1 hc).1 (pairwise_cuts rs)
  rw [h s hs] at hsc
  cases hsc

theorem contains_congr {k : CharClass} {c d : Char}
    (h : ∀ r ∈ k.parts, r.contains c = r.contains d) : k.contains c = k.contains d := by
  have h : k.parts.any (·.contains c) = k.parts.any (·.contains d) := by
    rw [Bool.eq_iff_iff, List.any_eq_true, List.any_eq_true]
    exact exists_congr fun r => and_congr_right fun hr => by rw [h r hr]
  rw [contains, h, contains]

theorem contains_combine (op : Bool → Bool → Bool) (a b : CharClass) (c : Char) :
    (combine op a b).contains c = op (a.contains c) (b.contains c) := by
  have hparts : ∀ r, r ∈ a.parts ∨ r ∈ b.parts → r ∈ a.parts ++ b.parts :=
    fun _ => List.mem_append.2
  unfold combine
  rw [contains_ofRanges, List.any_filter]
  generalize hinv : op a.inverted b.inverted = inv
  by_cases hout : ∀ s ∈ stretches (cuts (a.parts ++ b.parts)), s.contains c = false
  · -- outside all stretches only the flags count
    have hflag : ∀ k : CharClass, (∀ r ∈ k.parts, r ∈ a.parts ++ b.parts) →
        k.contains c = k.inverted := by
      intro k hk
      have : k.parts.any (·.contains c) = false :=
        List.any_eq_false.2 fun r hr => by simp [contains_eq_false_of_lt (hk r hr) hout]
      simp [contains, this]
    rw [hflag a fun r hr => hparts r (.inl hr), hflag b fun r hr => hparts r (.inr hr), hinv,
      List.any_eq_false.2 fun s hs => by simp [hout s hs]]
    exact Bool.false_bne inv
  · -- all stretches that contain `c` are kept or dropped alike
    obtain ⟨s, hs, hsc⟩ : ∃ s ∈ stretches (cuts (a.parts ++ b.parts)), s.contains c = true := by
      simpa using hout
    have hkeep : ∀ t ∈ stretches (cuts (a.parts ++ b.parts)), t.contains c = true →
        op (a.contains t.first) (b.contains t.first) = op (a.contains c) (b.contains c) := by
      intro t ht htc
      rw [contains_congr fun r hr => contains_eq_of_mem_stretch ht htc (hparts r (.inl hr)),
        contains_congr fun r hr => contains_eq_of_mem_stretch ht htc (hparts r (.inr hr))]
    by_cases hop : op (a.contains c) (b.contains c) = inv
    · rw [List.any_eq_false.2, Bool.false_bne, hop]
      intro t ht
      by_cases htc : t.contains c = true
      · simp [hkeep t ht htc, hop]
      · simp [htc]
    · rw [List.any_eq_true.2 ⟨s, hs, by simp [hsc, hkeep s hs hsc, hop]⟩]
      revert hop
      cases op (a.contains c) (b.contains c) <;> cases inv <;> simp

/-! ## Membership -/

theorem mem_iff_contains {k : CharClass} {c : Char} : c ∈ k ↔ k.contains c = true := Iff.rfl

@[simp] theorem not_mem_empty (c : Char) : c ∉ empty := by simp [mem_iff_contains, contains, empty]

@[simp] theorem mem_universal (c : Char) : c ∈ universal := by
  simp [mem_iff_contains, contains, universal]

@[simp] theorem mem_single {c d : Char} : c ∈ single d ↔ c = d := by
  simp only [mem_iff_contains, contains, single, List.any_cons, List.any_nil, Bool.or_false,
    Bool.bne_false, CharRange.contains_iff, CharRange.single]
  exact ⟨fun h => Char.le_antisymm h.2 h.1, fun h => h ▸ ⟨Char.le_refl _, Char.le_refl _⟩⟩

@[simp] theorem mem_complement {k : CharClass} {c : Char} : c ∈ k.complement ↔ c ∉ k := by
  simp [mem_iff_contains, contains, complement]

@[simp] theorem mem_union {a b : CharClass} {c : Char} : c ∈ a.union b ↔ c ∈ a ∨ c ∈ b := by
  simp [mem_iff_contains, union, contains_combine]

@[simp] theorem mem_inter {a b : CharClass} {c : Char} : c ∈ a.inter b ↔ c ∈ a ∧ c ∈ b := by
  simp [mem_iff_contains, inter, contains_combine]

@[simp] theorem mem_diff {a b : CharClass} {c : Char} : c ∈ a.diff b ↔ c ∈ a ∧ c ∉ b := by
  simp [diff]

theorem mem_foldl_union {ks : List CharClass} {k : CharClass} {c : Char} :
    c ∈ ks.foldl union k ↔ c ∈ k ∨ ∃ l ∈ ks, c ∈ l := by
  induction ks generalizing k with
  | nil => simp
  | cons l rest ih => simp [ih, or_assoc]

@[simp] theorem mem_unionAll {ks : List CharClass} {c : Char} :
    c ∈ unionAll ks ↔ ∃ k ∈ ks, c ∈ k := by
  simp [unionAll, mem_foldl_union]

theorem not_mem_of_isEmpty {k : CharClass} (h : k.isEmpty = true) (c : Char) : c ∉ k := by
  obtain ⟨parts, inverted⟩ := k
  cases parts <;> cases inverted <;> simp_all [isEmpty, mem_iff_contains, contains]

end CharClass

end RegularLanguages
