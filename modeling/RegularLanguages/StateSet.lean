/-!
# Sets of states

A set of states is the list of their numbers in increasing order, each once. Two sets are then equal
if and only if their lists are.
-/

namespace RegularLanguages.StateSet

def insert (id : Nat) : List Nat → List Nat
  | [] => [id]
  | j :: rest =>
    if id < j then id :: j :: rest else if id = j then j :: rest else j :: insert id rest

/-- The numbers in a list, as a set. -/
def ofList (ids : List Nat) : List Nat := ids.foldr insert []

theorem mem_insert {id j : Nat} {s : List Nat} : j ∈ insert id s ↔ j = id ∨ j ∈ s := by
  induction s with
  | nil => simp [insert]
  | cons i rest ih =>
    unfold insert
    split
    · simp
    · split
      · rename_i h
        simp [h]
      · simp only [List.mem_cons, ih]
        exact or_left_comm

theorem mem_ofList {j : Nat} {ids : List Nat} : j ∈ ofList ids ↔ j ∈ ids := by
  induction ids with
  | nil => simp [ofList]
  | cons i rest ih =>
    simp only [ofList, List.foldr_cons, mem_insert, List.mem_cons] at ih ⊢
    rw [ih]

theorem pairwise_insert {id : Nat} {s : List Nat} (h : s.Pairwise (· < ·)) :
    (insert id s).Pairwise (· < ·) := by
  induction s with
  | nil => simp [insert]
  | cons i rest ih =>
    have hi := (List.pairwise_cons.1 h).1
    unfold insert
    split
    · rename_i hlt
      refine List.pairwise_cons.2 ⟨fun j hj => ?_, h⟩
      rcases List.mem_cons.1 hj with rfl | hj
      · exact hlt
      · exact Nat.lt_trans hlt (hi j hj)
    · split
      · exact h
      · refine List.pairwise_cons.2 ⟨fun j hj => ?_, ih (List.pairwise_cons.1 h).2⟩
        rcases mem_insert.1 hj with rfl | hj
        · omega
        · exact hi j hj

theorem pairwise_ofList (ids : List Nat) : (ofList ids).Pairwise (· < ·) := by
  induction ids with
  | nil => exact List.Pairwise.nil
  | cons i rest ih => exact pairwise_insert ih

end RegularLanguages.StateSet
