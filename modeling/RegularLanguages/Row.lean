/-!
# Rows of a transition table

A `Row` gives some symbols an entry. The entries are kept in increasing order of their symbols, each
symbol at most once. `renumber` follows a refinement of the alphabet: each new symbol takes the
entry of the symbol that it came from.
-/

namespace RegularLanguages

structure Row (α : Type) where
  entries : List (Nat × α)
  deriving Inhabited

namespace Row

variable {α : Type}

def empty : Row α := ⟨[]⟩

def size (r : Row α) : Nat := r.entries.length

/-- The first entry for `symbol` in a list of entries. -/
def find? (symbol : Nat) : List (Nat × α) → Option α
  | [] => none
  | (s, a) :: rest => if symbol = s then some a else find? symbol rest

/-- The entry of `symbol`. -/
def get? (r : Row α) (symbol : Nat) : Option α := find? symbol r.entries

/-- Gives `symbol` an entry, in place of the one it has. -/
def insertEntry (symbol : Nat) (a : α) : List (Nat × α) → List (Nat × α)
  | [] => [(symbol, a)]
  | (s, b) :: rest =>
    if symbol < s then (symbol, a) :: (s, b) :: rest
    else if symbol = s then (symbol, a) :: rest
    else (s, b) :: insertEntry symbol a rest

def set (r : Row α) (symbol : Nat) (a : α) : Row α := ⟨insertEntry symbol a r.entries⟩

/-- The row over new symbols with the given origins. -/
def renumber (r : Row α) (origins : List Nat) : Row α :=
  ⟨origins.zipIdx.filterMap fun (old, new) => (r.get? old).map fun a => (new, a)⟩

/-- The row in which each of the first `symbols` symbols without an entry gets `a`. -/
def fill (r : Row α) (symbols : Nat) (a : α) : Row α :=
  ⟨(List.range symbols).map fun symbol => (symbol, (r.get? symbol).getD a)⟩

/-! ## Entries after each operation -/

@[simp] theorem get?_empty (symbol : Nat) : (empty : Row α).get? symbol = none := rfl

theorem find?_insertEntry (symbol : Nat) (a : α) (entries : List (Nat × α)) (s : Nat) :
    find? s (insertEntry symbol a entries) = if s = symbol then some a else find? s entries := by
  induction entries with
  | nil => rfl
  | cons e rest ih =>
    obtain ⟨t, b⟩ := e
    unfold insertEntry
    split
    · rfl
    · split
      · rename_i h
        subst h
        by_cases h : s = symbol <;> simp [find?, h]
      · rename_i h
        by_cases h' : s = t
        · subst h'
          simp [find?, Ne.symm h]
        · simp [find?, h', ih]

theorem get?_set (r : Row α) (symbol : Nat) (a : α) (s : Nat) :
    (r.set symbol a).get? s = if s = symbol then some a else r.get? s :=
  find?_insertEntry symbol a r.entries s

theorem find?_renumbered (f : Nat → Option α) (origins : List Nat) (start s : Nat) :
    find? s ((origins.zipIdx start).filterMap fun (old, new) => (f old).map fun a => (new, a)) =
      if start ≤ s then origins[s - start]?.bind f else none := by
  induction origins generalizing start with
  | nil => simp [find?]
  | cons old rest ih =>
    rw [List.zipIdx_cons, List.filterMap_cons]
    have ih := ih (start + 1)
    by_cases h : s = start
    · subst h
      have hs : ¬s + 1 ≤ s := by omega
      cases hf : f old <;> simp [hf, find?, ih, hs]
    · by_cases hs : start ≤ s
      · obtain ⟨k, rfl⟩ : ∃ k, s = start + 1 + k := ⟨s - (start + 1), by omega⟩
        have hk : start + 1 + k - start = k + 1 := by omega
        have hk' : start + 1 + k - (start + 1) = k := by omega
        cases hf : f old <;> simp [hf, find?, ih, hs, h, hk, hk']
      · have hs' : ¬start + 1 ≤ s := by omega
        cases hf : f old <;> simp [hf, find?, ih, hs, h, hs']

theorem get?_renumber (r : Row α) (origins : List Nat) (s : Nat) :
    (r.renumber origins).get? s = origins[s]?.bind r.get? :=
  (find?_renumbered r.get? origins 0 s).trans (by simp)

theorem find?_map (f : Nat → α) (symbols : List Nat) (s : Nat) :
    find? s (symbols.map fun symbol => (symbol, f symbol)) =
      if s ∈ symbols then some (f s) else none := by
  induction symbols with
  | nil => rfl
  | cons t rest ih =>
    by_cases h : s = t
    · subst h
      simp [find?]
    · simp [find?, h, ih]

theorem get?_fill (r : Row α) (symbols : Nat) (a : α) (s : Nat) :
    (r.fill symbols a).get? s = if s < symbols then some ((r.get? s).getD a) else none :=
  (find?_map (fun symbol => (r.get? symbol).getD a) (List.range symbols) s).trans (by simp)

end Row

end RegularLanguages
