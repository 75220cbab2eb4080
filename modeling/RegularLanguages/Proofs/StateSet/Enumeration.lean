import Mathlib.Algebra.Group.Nat.Defs
import Mathlib.Data.List.Sort
import Mathlib.Data.List.Sublists
import RegularLanguages.StateSet

/-!
# Sets as lists

`Enumerates s P` says that the list `s` is the set of the numbers with the property `P`. There is at
most one such list.
-/

namespace RegularLanguages.StateSet

/-- `s` lists the numbers with the property, in increasing order. -/
structure Enumerates (s : List Nat) (P : Nat → Prop) : Prop where
  ordered : s.Pairwise (· < ·)
  mem_iff : ∀ j, j ∈ s ↔ P j

theorem Enumerates.unique {s t : List Nat} {P : Nat → Prop} (hs : Enumerates s P)
    (ht : Enumerates t P) : s = t :=
  hs.ordered.eq_of_mem_iff ht.ordered fun j => (hs.mem_iff j).trans (ht.mem_iff j).symm

theorem Enumerates.congr {s : List Nat} {P Q : Nat → Prop} (hs : Enumerates s P)
    (hPQ : ∀ j, P j ↔ Q j) : Enumerates s Q :=
  ⟨hs.ordered, fun j => (hs.mem_iff j).trans (hPQ j)⟩

theorem Enumerates.union {s t : List Nat} {P Q R : Nat → Prop} (hs : Enumerates s P)
    (ht : Enumerates t Q) (hR : ∀ j, R j ↔ P j ∨ Q j) : Enumerates (ofList (s ++ t)) R where
  ordered := pairwise_ofList _
  mem_iff j := by rw [mem_ofList, List.mem_append, hs.mem_iff, ht.mem_iff, hR]

/-- An optional number as a set. -/
theorem enumerates_toList (o : Option Nat) : Enumerates o.toList fun j => o = some j where
  ordered := by cases o <;> simp
  mem_iff j := by cases o <;> simp [eq_comm]

theorem length_insert {id : Nat} {s : List Nat} (h : id ∉ s) :
    (insert id s).length = s.length + 1 := by
  induction s with
  | nil => rfl
  | cons i rest ih =>
    rw [List.mem_cons, not_or] at h
    unfold insert
    split
    · rfl
    · rw [if_neg h.1, List.length_cons, ih h.2, List.length_cons]

/-- A set of numbers below `n` has at most `n` members. -/
theorem length_le {s : List Nat} {n : Nat} (hs : s.Pairwise (· < ·)) (h : ∀ j ∈ s, j < n) :
    s.length ≤ n := by
  have hsub : s.Subperm (List.range n) :=
    List.subperm_of_subset (hs.imp Nat.ne_of_lt) fun j hj => List.mem_range.2 (h j hj)
  simpa using hsub.length_le

/-- There are at most `2^n` sets of numbers below `n`. -/
theorem length_le_two_pow {sets : List (List Nat)} {n : Nat} (hsets : sets.Nodup)
    (h : ∀ s ∈ sets, s.Pairwise (· < ·) ∧ ∀ j ∈ s, j < n) : sets.length ≤ 2 ^ n := by
  have hsub : sets.Subperm (List.range n).sublists := by
    refine List.subperm_of_subset hsets fun s hs => ?_
    obtain ⟨hordered, hlt⟩ := h s hs
    have heq : (List.range n).filter (· ∈ s) = s := by
      refine (List.pairwise_lt_range.filter _).eq_of_mem_iff hordered fun j => ?_
      simpa using hlt j
    rw [List.mem_sublists, ← heq]
    exact List.filter_sublist
  simpa using hsub.length_le

end RegularLanguages.StateSet
