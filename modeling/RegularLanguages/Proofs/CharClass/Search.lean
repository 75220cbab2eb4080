import RegularLanguages.Proofs.CharClass.Canonical

/-!
# Searching the parts of a class

Every class that the operations can make has its parts in increasing order, with a character
between any two of them. So, seen from a character, the parts that lie before it come first, then at
most one around it, then those after it, and a search that halves the parts finds the one around it
if there is one. `includes` decides membership in this way.

`Made.includes_pointwise` says what the operations do to membership so decided: on classes that can
be made, they are the Boolean operations.
-/

namespace RegularLanguages

open Scalar (le_iff_toNat lt_iff_toNat)

namespace CharRange

/-- Where the range lies, seen from `c`: before it, around it or after it. -/
def side (r : CharRange) (c : Char) : Ordering :=
  if r.last < c then .lt else if c < r.first then .gt else .eq

theorem side_eq_gt_iff {r : CharRange} (hr : r.Ordered) {c : Char} :
    r.side c = .gt ↔ c < r.first := by
  have hr : r.first ≤ r.last := hr
  unfold side
  split
  · simp only [le_iff_toNat, lt_iff_toNat] at *
    simp; omega
  · split <;> simp [*]

theorem side_eq_eq_iff {r : CharRange} {c : Char} : r.side c = .eq ↔ r.contains c = true := by
  rw [contains_iff, ← Char.not_lt, ← Char.not_lt]
  unfold side
  split
  · simp [*]
  · split <;> simp [*]

theorem between_of_ordered {r : CharRange} (hr : r.Ordered) : between r.first r.last = .ok r :=
  if_pos hr

theorem forall_between {rs : List CharRange} (h : ∀ r ∈ rs, r.Ordered) :
    ∀ r ∈ rs, between r.first r.last = .ok r := fun r hr => between_of_ordered (h r hr)

/-- What lies before the start of a range lies before those after it. -/
theorem Apart.contains_eq_false_of_lt {r s : CharRange} (h : r.Apart s) (hr : r.Ordered) {c : Char}
    (hc : c < r.first) : s.contains c = false := by
  obtain ⟨d, hrd, hds⟩ := h
  have hr : r.first ≤ r.last := hr
  refine contains_eq_false_iff.2 (.inl ?_)
  simp only [le_iff_toNat, lt_iff_toNat] at *; omega

/-- What does not lie before the start of a range lies after those before it. -/
theorem Apart.contains_eq_false_of_le {r s : CharRange} (h : r.Apart s) {c : Char}
    (hc : s.first ≤ c) : r.contains c = false := by
  obtain ⟨d, hrd, hds⟩ := h
  refine contains_eq_false_iff.2 (.inr ?_)
  simp only [le_iff_toNat, lt_iff_toNat] at *; omega

end CharRange

namespace CharClass

/-! ## Search by halves -/

/-- Whether a part is around `c`: the half of the parts that can still hold it is searched. -/
def search (c : Char) (parts : List CharRange) : Bool :=
  if h : 1 < parts.length then
    let half := parts.length / 2
    if parts[half].side c = .gt then search c (parts.take half) else search c (parts.drop half)
  else parts.any (·.side c = .eq)
termination_by parts.length
decreasing_by all_goals simp only [List.length_take, List.length_drop]; omega

/-- Whether `c` belongs to the class, by a search of its parts. -/
def includes (k : CharClass) (c : Char) : Bool := search c k.parts != k.inverted

/-- The parts are in increasing order, and a character lies between any two. -/
structure Spaced (k : CharClass) : Prop where
  ordered : k.Ordered
  apart : k.parts.Pairwise CharRange.Apart

/-- No part lies around a character before all of them. -/
theorem any_eq_false_of_lt {c : Char} {r : CharRange} {rs : List CharRange} (hr : r.Ordered)
    (h : (r :: rs).Pairwise CharRange.Apart) (hc : c < r.first) :
    (r :: rs).any (·.contains c) = false := by
  rw [List.any_cons, CharRange.contains_eq_false_iff.2 (.inl hc), Bool.false_or]
  refine List.any_eq_false.2 fun s hs => ?_
  rw [((List.pairwise_cons.1 h).1 s hs).contains_eq_false_of_lt hr hc]
  exact Bool.false_ne_true

/-- No part lies around a character if a later one starts before it. -/
theorem any_eq_false_of_le {c : Char} {r : CharRange} {rs ss : List CharRange}
    (h : (rs ++ r :: ss).Pairwise CharRange.Apart) (hc : r.first ≤ c) :
    rs.any (·.contains c) = false := by
  refine List.any_eq_false.2 fun s hs => ?_
  rw [((List.pairwise_append.1 h).2.2 s hs r (List.mem_cons_self ..)).contains_eq_false_of_le hc]
  exact Bool.false_ne_true

theorem search_eq_any {c : Char} {parts : List CharRange} (hordered : ∀ r ∈ parts, r.Ordered)
    (hapart : parts.Pairwise CharRange.Apart) :
    search c parts = parts.any (·.contains c) := by
  fun_induction search c parts with
  | case1 parts hlen half hgt ih =>
    have hhalf : half < parts.length := by omega
    have hmiddle := hordered _ (List.getElem_mem hhalf)
    have hdrop := hapart.sublist (List.drop_sublist half parts)
    have hupper : (parts.drop half).any (·.contains c) = false := by
      rw [List.drop_eq_getElem_cons hhalf] at hdrop ⊢
      exact any_eq_false_of_lt hmiddle hdrop ((CharRange.side_eq_gt_iff hmiddle).1 hgt)
    rw [ih (fun r hr => hordered r (List.mem_of_mem_take hr))
      (hapart.sublist (List.take_sublist half parts))]
    conv => rhs; rw [← List.take_append_drop half parts, List.any_append, hupper, Bool.or_false]
  | case2 parts hlen half hgt ih =>
    have hhalf : half < parts.length := by omega
    have hmiddle := hordered _ (List.getElem_mem hhalf)
    have hsplit : parts = parts.take half ++ parts[half] :: parts.drop (half + 1) := by
      rw [← List.drop_eq_getElem_cons hhalf, List.take_append_drop]
    have hle := Char.not_lt.1 (mt (CharRange.side_eq_gt_iff hmiddle).2 hgt)
    have hlower : (parts.take half).any (·.contains c) = false :=
      any_eq_false_of_le (hsplit ▸ hapart) hle
    rw [ih (fun r hr => hordered r (List.mem_of_mem_drop hr))
      (hapart.sublist (List.drop_sublist half parts))]
    conv => rhs; rw [← List.take_append_drop half parts, List.any_append, hlower, Bool.false_or]
  | case3 parts hlen =>
    simp only [CharRange.side_eq_eq_iff, Bool.decide_eq_true]

theorem Spaced.includes_eq {k : CharClass} (h : k.Spaced) (c : Char) :
    k.includes c = k.contains c := by
  rw [includes, search_eq_any h.ordered h.apart, contains]

/-! ## Classes that can be made -/

theorem Made.spaced {k : CharClass} (h : k.Made) : k.Spaced := by
  refine ⟨h.ordered, ?_⟩
  induction h with
  | empty => exact .nil
  | universal => exact .nil
  | single c => exact List.pairwise_singleton ..
  | ofRange _ => exact List.pairwise_singleton ..
  | ofRanges inverted hrs =>
    exact (canonical_ofRanges (CharRange.forall_ordered hrs) inverted).apart
  | complement _ ih => exact ih
  | combine op _ _ _ _ => exact (canonical_combine op _ _).apart

theorem Made.union {a b : CharClass} (ha : a.Made) (hb : b.Made) : (a.union b).Made :=
  .combine _ ha hb

theorem Made.inter {a b : CharClass} (ha : a.Made) (hb : b.Made) : (a.inter b).Made :=
  .combine _ ha hb

theorem Made.diff {a b : CharClass} (ha : a.Made) (hb : b.Made) : (a.diff b).Made :=
  ha.inter hb.complement

theorem Made.foldl_union {ks : List CharClass} {k : CharClass} (hk : k.Made)
    (hks : ∀ l ∈ ks, l.Made) : (ks.foldl CharClass.union k).Made := by
  induction ks generalizing k with
  | nil => exact hk
  | cons l rest ih =>
    obtain ⟨hl, hrest⟩ := List.forall_mem_cons.1 hks
    exact ih (hk.union hl) hrest

theorem Made.unionAll {ks : List CharClass} (h : ∀ k ∈ ks, k.Made) :
    (CharClass.unionAll ks).Made :=
  Made.empty.foldl_union h

theorem Made.includes_eq {k : CharClass} (h : k.Made) (c : Char) : k.includes c = k.contains c :=
  h.spaced.includes_eq c

/-! ## Membership by search -/

/-- What `includes` says of the operands and of what the operations make of them. -/
structure Pointwise (a b : CharClass) : Prop where
  spaced : a.Spaced ∧ b.Spaced
  includes_eq : ∀ c, a.includes c = a.contains c ∧ b.includes c = b.contains c
  union : ∀ c, (a.union b).includes c = (a.includes c || b.includes c)
  inter : ∀ c, (a.inter b).includes c = (a.includes c && b.includes c)
  diff : ∀ c, (a.diff b).includes c = (a.includes c && !b.includes c)
  complement : ∀ c, a.complement.includes c = !a.includes c

theorem contains_complement (k : CharClass) (c : Char) :
    k.complement.contains c = !k.contains c := by
  rw [Bool.eq_iff_iff, Bool.not_eq_true', ← Bool.not_eq_true]
  exact mem_complement

theorem contains_unionAll (ks : List CharClass) (c : Char) :
    (unionAll ks).contains c = ks.any (·.contains c) := by
  rw [Bool.eq_iff_iff, List.any_eq_true]
  exact mem_unionAll

/-- On classes that can be made the operations are the Boolean ones, one character at a time. -/
theorem Made.includes_pointwise {a b : CharClass} (ha : a.Made) (hb : b.Made) :
    a.Pointwise b ∧
    (∀ ks : List CharClass, (∀ k ∈ ks, k.Made) → ∀ c,
      (CharClass.unionAll ks).includes c = ks.any (·.includes c)) ∧
    ∀ rs inverted, (∀ r ∈ rs, CharRange.between r.first r.last = .ok r) → ∀ c,
      (CharClass.ofRanges rs inverted).includes c = (rs.any (·.contains c) != inverted) := by
  refine ⟨⟨⟨ha.spaced, hb.spaced⟩, fun c => ⟨ha.includes_eq c, hb.includes_eq c⟩, fun c => ?_,
    fun c => ?_, fun c => ?_, fun c => ?_⟩, fun ks hks c => ?_, fun rs inverted hrs c => ?_⟩
  · rw [(ha.union hb).includes_eq, ha.includes_eq, hb.includes_eq]
    exact contains_combine (· || ·) a b c
  · rw [(ha.inter hb).includes_eq, ha.includes_eq, hb.includes_eq]
    exact contains_combine (· && ·) a b c
  · rw [(ha.diff hb).includes_eq, ha.includes_eq, hb.includes_eq, ← contains_complement]
    exact contains_combine (· && ·) a b.complement c
  · rw [ha.complement.includes_eq, ha.includes_eq]
    exact contains_complement a c
  · have hmembers : ks.any (·.includes c) = ks.any (·.contains c) := by
      rw [Bool.eq_iff_iff, List.any_eq_true, List.any_eq_true]
      exact exists_congr fun k => and_congr_right fun hk => by rw [(hks k hk).includes_eq]
    rw [(Made.unionAll hks).includes_eq, hmembers]
    exact contains_unionAll ks c
  · rw [(Made.ofRanges inverted hrs).includes_eq]
    exact contains_ofRanges rs inverted c

/-- The characters up to the gap and the greatest one. -/
def lowAndLast : CharClass := unionAll [.ofRange ⟨Scalar.first, '\ud7ff'⟩, .single Scalar.last]

/-- All but the characters around the gap and the letters, from ranges out of order. -/
def offGap : CharClass := ofRanges [⟨'\ue000', '\ue0ff'⟩, ⟨'a', 'z'⟩, ⟨'\ud700', '\ud7ff'⟩] true

theorem includes_pointwise_offGap : lowAndLast.Made ∧ offGap.Made ∧
    lowAndLast.Pointwise offGap ∧ ∀ c, (unionAll [lowAndLast, offGap]).includes c =
      (lowAndLast.includes c || offGap.includes c) := by
  have ha : lowAndLast.Made := .unionAll (List.forall_mem_cons.2
    ⟨.ofRange (CharRange.between_of_ordered (by decide)), List.forall_mem_singleton.2 (.single _)⟩)
  have hordered : ∀ r ∈ [⟨'\ue000', '\ue0ff'⟩, ⟨'a', 'z'⟩, ⟨'\ud700', '\ud7ff'⟩],
      CharRange.Ordered r := by decide
  have hb : offGap.Made := .ofRanges true fun r hr => CharRange.between_of_ordered (hordered r hr)
  obtain ⟨hpointwise, hall, -⟩ := ha.includes_pointwise hb
  refine ⟨ha, hb, hpointwise, fun c => ?_⟩
  rw [hall _ (by simp [ha, hb]), List.any_cons, List.any_cons, List.any_nil, Bool.or_false]

end CharClass

end RegularLanguages
