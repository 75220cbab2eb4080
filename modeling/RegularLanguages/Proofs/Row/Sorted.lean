import Mathlib.Data.List.Perm.Subperm
import RegularLanguages.Row

/-!
# Rows in order

Every row that the operations build is `Sorted`: its symbols increase. Looking a symbol up in a
sorted row and finding its entry in the list are then the same thing, which is how the lemmas on
machines read a row.
-/

namespace RegularLanguages.Row

variable {α : Type}

/-- The symbols of the entries increase. -/
def Sorted (r : Row α) : Prop := r.entries.Pairwise (·.1 < ·.1)

theorem sorted_empty : (empty : Row α).Sorted := .nil

theorem mem_of_find?_eq_some {s : Nat} {a : α} {entries : List (Nat × α)}
    (h : find? s entries = some a) : (s, a) ∈ entries := by
  induction entries with
  | nil => cases h
  | cons e rest ih =>
    obtain ⟨t, b⟩ := e
    unfold find? at h
    split at h
    · rename_i hst
      cases h
      exact hst ▸ List.mem_cons_self ..
    · exact List.mem_cons_of_mem _ (ih h)

theorem find?_eq_some_of_mem {s : Nat} {a : α} {entries : List (Nat × α)}
    (hsorted : entries.Pairwise (·.1 < ·.1)) (h : (s, a) ∈ entries) :
    find? s entries = some a := by
  induction entries with
  | nil => cases h
  | cons e rest ih =>
    obtain ⟨t, b⟩ := e
    obtain ⟨ht, hrest⟩ := List.pairwise_cons.1 hsorted
    rcases List.mem_cons.1 h with heq | h
    · cases heq
      simp [find?]
    · have hts : t < s := ht (s, a) h
      rw [find?, if_neg (by omega)]
      exact ih hrest h

theorem find?_eq_none_of_lt {s : Nat} {entries : List (Nat × α)} (h : ∀ e ∈ entries, s < e.1) :
    find? s entries = none :=
  Option.eq_none_iff_forall_ne_some.2 fun _ ha =>
    Nat.lt_irrefl s (h _ (mem_of_find?_eq_some ha))

theorem mem_entries_of_get? {r : Row α} {s : Nat} {a : α} (h : r.get? s = some a) :
    (s, a) ∈ r.entries :=
  mem_of_find?_eq_some h

theorem Sorted.get?_eq_some_iff {r : Row α} (h : r.Sorted) {s : Nat} {a : α} :
    r.get? s = some a ↔ (s, a) ∈ r.entries :=
  ⟨mem_entries_of_get?, find?_eq_some_of_mem h⟩

/-- The symbols that have an entry. -/
def symbols (r : Row α) : List Nat := r.entries.map Prod.fst

theorem Sorted.pairwise_symbols {r : Row α} (h : r.Sorted) : r.symbols.Pairwise (· < ·) :=
  List.pairwise_map.2 h

theorem Sorted.mem_symbols {r : Row α} (h : r.Sorted) {s : Nat} :
    s ∈ r.symbols ↔ ∃ a, r.get? s = some a := by
  simp only [symbols, h.get?_eq_some_iff, List.mem_map, Prod.exists, exists_and_right,
    exists_eq_right]

/-! ## Setting an entry -/

theorem mem_insertEntry {s : Nat} {a : α} {entries : List (Nat × α)} {e : Nat × α}
    (h : e ∈ insertEntry s a entries) : e = (s, a) ∨ e ∈ entries := by
  induction entries with
  | nil => exact .inl (List.mem_singleton.1 h)
  | cons f rest ih =>
    obtain ⟨t, b⟩ := f
    unfold insertEntry at h
    split at h
    · exact List.mem_cons.1 h
    · split at h
      · exact (List.mem_cons.1 h).imp_right (List.mem_cons_of_mem _)
      · rcases List.mem_cons.1 h with rfl | h
        · exact .inr (List.mem_cons_self ..)
        · exact (ih h).imp_right (List.mem_cons_of_mem _)

theorem mem_set {r : Row α} {s : Nat} {a : α} {e : Nat × α} (h : e ∈ (r.set s a).entries) :
    e = (s, a) ∨ e ∈ r.entries :=
  mem_insertEntry h

theorem Sorted.set {r : Row α} (h : r.Sorted) (s : Nat) (a : α) : (r.set s a).Sorted := by
  suffices ∀ entries : List (Nat × α), entries.Pairwise (·.1 < ·.1) →
      (insertEntry s a entries).Pairwise (·.1 < ·.1) from this _ h
  intro entries h
  induction entries with
  | nil => exact List.pairwise_singleton ..
  | cons f rest ih =>
    obtain ⟨t, b⟩ := f
    obtain ⟨ht, hrest⟩ := List.pairwise_cons.1 h
    unfold insertEntry
    split
    · rename_i hst
      refine List.pairwise_cons.2 ⟨fun e he => ?_, h⟩
      rcases List.mem_cons.1 he with rfl | he
      · exact hst
      · exact Nat.lt_trans hst (ht e he)
    · split
      · rename_i hst
        exact List.pairwise_cons.2 ⟨hst ▸ ht, hrest⟩
      · rename_i h1 h2
        refine List.pairwise_cons.2 ⟨fun e he => ?_, ih hrest⟩
        rcases mem_insertEntry he with rfl | he
        · show t < s
          omega
        · exact ht e he

/-- The row with the same entry for each of the symbols. -/
def setAll (r : Row α) (symbols : List Nat) (a : α) : Row α :=
  symbols.foldl (fun r symbol => r.set symbol a) r

theorem get?_setAll (r : Row α) (symbols : List Nat) (a : α) (s : Nat) :
    (r.setAll symbols a).get? s = if s ∈ symbols then some a else r.get? s := by
  induction symbols generalizing r with
  | nil => rfl
  | cons x rest ih =>
    rw [setAll, List.foldl_cons, ← setAll, ih, get?_set]
    by_cases hs : s = x <;> simp [hs]

theorem mem_setAll {r : Row α} {symbols : List Nat} {a : α} {e : Nat × α}
    (h : e ∈ (r.setAll symbols a).entries) : (e.1 ∈ symbols ∧ e.2 = a) ∨ e ∈ r.entries := by
  induction symbols generalizing r with
  | nil => exact .inr h
  | cons x rest ih =>
    rcases ih h with ⟨hx, ha⟩ | h
    · exact .inl ⟨List.mem_cons_of_mem _ hx, ha⟩
    · rcases mem_set h with rfl | h
      · exact .inl ⟨List.mem_cons_self .., rfl⟩
      · exact .inr h

theorem Sorted.setAll {r : Row α} (h : r.Sorted) (symbols : List Nat) (a : α) :
    (r.setAll symbols a).Sorted := by
  induction symbols generalizing r with
  | nil => exact h
  | cons x rest ih => exact ih (h.set x a)

/-! ## Renumbering -/

theorem mem_renumber {r : Row α} {origins : List Nat} {e : Nat × α} :
    e ∈ (r.renumber origins).entries ↔ ∃ old, origins[e.1]? = some old ∧ r.get? old = some e.2 := by
  obtain ⟨s, a⟩ := e
  simp only [renumber, List.mem_filterMap, Prod.exists, List.mem_zipIdx_iff_getElem?,
    Option.map_eq_some_iff, Prod.mk.injEq]
  constructor
  · rintro ⟨old, new, hnew, b, hb, rfl, rfl⟩
    exact ⟨old, hnew, hb⟩
  · rintro ⟨old, hold, ha⟩
    exact ⟨old, s, hold, a, ha, rfl, rfl⟩

theorem sorted_renumber (r : Row α) (origins : List Nat) : (r.renumber origins).Sorted := by
  have hlt : (origins.zipIdx 0).Pairwise (·.2 < ·.2) := by
    rw [← List.pairwise_map, List.zipIdx_map_snd]
    exact List.pairwise_lt_range'
  refine List.pairwise_filterMap.2 (hlt.imp fun {p q} hpq => ?_)
  intro e he f hf
  obtain ⟨_, -, rfl⟩ := Option.map_eq_some_iff.1 he
  obtain ⟨_, -, rfl⟩ := Option.map_eq_some_iff.1 hf
  exact hpq

/-! ## Filling -/

theorem mem_fill {r : Row α} {symbols : Nat} {a : α} {e : Nat × α} :
    e ∈ (r.fill symbols a).entries ↔ e.1 < symbols ∧ (r.get? e.1).getD a = e.2 := by
  obtain ⟨s, b⟩ := e
  simp only [fill, List.mem_map, List.mem_range, Prod.mk.injEq]
  constructor
  · rintro ⟨t, ht, rfl, hb⟩
    exact ⟨ht, hb⟩
  · rintro ⟨hs, hb⟩
    exact ⟨s, hs, rfl, hb⟩

theorem sorted_fill (r : Row α) (symbols : Nat) (a : α) : (r.fill symbols a).Sorted :=
  List.pairwise_map.2 List.pairwise_lt_range

/-- A row whose symbols are among the first `symbols` has an entry for each of these if and only if
it has that many entries. -/
theorem Sorted.size_eq_iff {r : Row α} (h : r.Sorted) {symbols : Nat}
    (hlt : ∀ e ∈ r.entries, e.1 < symbols) :
    r.size = symbols ↔ ∀ s, s < symbols → ∃ a, r.get? s = some a := by
  have hnodup : r.symbols.Nodup := h.pairwise_symbols.imp Nat.ne_of_lt
  have hsub : r.symbols ⊆ List.range symbols := by
    intro s hs
    obtain ⟨e, he, rfl⟩ := List.mem_map.1 hs
    exact List.mem_range.2 (hlt e he)
  have hsize : r.size = r.symbols.length := (List.length_map _).symm
  simp only [← h.mem_symbols, hsize]
  constructor
  · intro hlen s hs
    have hperm := (hnodup.subperm hsub).perm_of_length_le (by simp [hlen])
    exact hperm.mem_iff.2 (List.mem_range.2 hs)
  · intro hall
    have hle := (hnodup.subperm hsub).length_le
    have hge := (List.nodup_range.subperm fun s hs => hall s (List.mem_range.1 hs)).length_le
    rw [List.length_range] at hle hge
    exact Nat.le_antisymm hle hge

end RegularLanguages.Row
