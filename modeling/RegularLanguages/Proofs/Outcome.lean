import Mathlib.Data.List.Forall2
import RegularLanguages.Logged

/-!
# Outcomes of computations over lists

A computation that goes through a list succeeds if it succeeds on each element, and what it gives
for the list is what it gives for the elements.
-/

namespace RegularLanguages.Outcome

variable {α β : Type}

theorem exists_ok_of_isOk {x : Except Fault α} (h : x.isOk = true) : ∃ a, x = .ok a := by
  cases x with
  | error fault => cases h
  | ok a => exact ⟨a, rfl⟩

theorem eq_ok_of_toOption {x : Except Fault α} {a : α} (h : x.toOption = some a) : x = .ok a := by
  cases x with
  | error fault => cases h
  | ok b =>
    cases h
    rfl

/-- What is known of some outcome is known of the outcome. -/
theorem of_exists_ok {x : Except Fault α} {P : α → Prop} {a : α} (h : ∃ b, x = .ok b ∧ P b)
    (ha : x = .ok a) : P a := by
  obtain ⟨b, hb, hP⟩ := h
  cases hb.symm.trans ha
  exact hP

/-- Tests that decide equivalent things give the same answer. -/
theorem same_answer {x y : Except Fault Bool} {P Q : Prop} (hx : ∃ b, x = .ok b ∧ (b = true ↔ P))
    (hy : ∃ b, y = .ok b ∧ (b = true ↔ Q)) (h : P ↔ Q) : ∃ b, x = .ok b ∧ y = .ok b := by
  obtain ⟨b, hb, hP⟩ := hx
  obtain ⟨b', hb', hQ⟩ := hy
  have hsame : b' = b := Bool.eq_iff_iff.2 (hQ.trans (h.symm.trans hP.symm))
  exact ⟨b, hb, hsame ▸ hb'⟩

theorem mapM_spec {f : α → Except Fault β} {Q : α → β → Prop} {l : List α}
    (h : ∀ a ∈ l, ∃ b, f a = .ok b ∧ Q a b) : ∃ bs, l.mapM f = .ok bs ∧ List.Forall₂ Q l bs := by
  induction l with
  | nil => exact ⟨[], rfl, .nil⟩
  | cons a rest ih =>
    obtain ⟨b, hb, hQ⟩ := h a (List.mem_cons_self ..)
    obtain ⟨bs, hbs, hQs⟩ := ih fun a' ha' => h a' (List.mem_cons_of_mem _ ha')
    exact ⟨b :: bs, by simp [List.mapM_cons, hb, hbs], .cons hQ hQs⟩

/-- A traversal of elements that all succeed is a map. -/
theorem mapM_eq_map {f : α → Except Fault β} {g : α → β} {l : List α}
    (h : ∀ a ∈ l, f a = .ok (g a)) : l.mapM f = .ok (l.map g) := by
  induction l with
  | nil => rfl
  | cons a rest ih =>
    obtain ⟨ha, hrest⟩ := List.forall_mem_cons.1 h
    rw [List.mapM_cons, ha, Logged.ok_bind, ih hrest]
    rfl

/-- What a traversal gives it gives for some element. -/
theorem exists_of_mem_mapM {f : α → Except Fault β} {l : List α} {bs : List β}
    (h : l.mapM f = .ok bs) {b : β} (hb : b ∈ bs) : ∃ a ∈ l, f a = .ok b := by
  induction l generalizing bs with
  | nil =>
    cases h
    cases hb
  | cons a rest ih =>
    rw [List.mapM_cons] at h
    obtain ⟨b₁, hb₁, hrest⟩ := Logged.bind_eq_ok_iff.1 h
    obtain ⟨bs₁, hbs₁, heq⟩ := Logged.bind_eq_ok_iff.1 hrest
    cases heq
    rcases List.mem_cons.1 hb with rfl | hb
    · exact ⟨a, List.mem_cons_self .., hb₁⟩
    · obtain ⟨a', ha', hfa⟩ := ih hbs₁ hb
      exact ⟨a', List.mem_cons_of_mem _ ha', hfa⟩

theorem anyM_spec {f : α → Except Fault Bool} {Q : α → Prop} {l : List α}
    (h : ∀ a ∈ l, ∃ b, f a = .ok b ∧ (b = true ↔ Q a)) :
    ∃ b, l.anyM f = .ok b ∧ (b = true ↔ ∃ a ∈ l, Q a) := by
  induction l with
  | nil => exact ⟨false, rfl, by simp⟩
  | cons a rest ih =>
    obtain ⟨b, hb, hQ⟩ := h a (List.mem_cons_self ..)
    obtain ⟨b', hb', hQ'⟩ := ih fun a' ha' => h a' (List.mem_cons_of_mem _ ha')
    cases b with
    | false => exact ⟨b', by simp [List.anyM, hb, hb'], by simp [hQ', ← hQ]⟩
    | true => exact ⟨true, by simp [List.anyM, hb], by simp [← hQ]⟩

theorem outcome_foldlM_cons (f : β → α → Logged β) (b : β) (a : α) (l : List α) :
    ((a :: l).foldlM f b).outcome = (f b a).outcome >>= fun b => (l.foldlM f b).outcome := by
  rw [List.foldlM_cons, Logged.outcome_bind]

/-- The last step of a loop comes after those before it. -/
theorem outcome_foldlM_concat (f : β → α → Logged β) (b : β) (l : List α) (a : α) :
    ((l ++ [a]).foldlM f b).outcome = (l.foldlM f b).outcome >>= fun b => (f b a).outcome := by
  induction l generalizing b with
  | nil =>
    rw [List.nil_append, outcome_foldlM_cons]
    show (f b a).outcome >>= Except.ok = (f b a).outcome
    cases (f b a).outcome <;> rfl
  | cons a' rest ih =>
    simp only [List.cons_append, outcome_foldlM_cons, ih, bind_assoc]

/-- What every step of a loop keeps the loop keeps, if it goes through. -/
theorem foldlM_invariant {f : β → α → Logged β} {P : β → Prop} {l : List α} {b b' : β}
    (h : ∀ b a b', P b → (f b a).outcome = .ok b' → P b') (hb : P b)
    (hb' : (l.foldlM f b).outcome = .ok b') : P b' := by
  induction l generalizing b with
  | nil =>
    cases hb'
    exact hb
  | cons a rest ih =>
    rw [outcome_foldlM_cons] at hb'
    obtain ⟨b₁, hb₁, hrest⟩ := Logged.bind_eq_ok_iff.1 hb'
    exact ih (h b a b₁ hb hb₁) hrest

/-- What the steps of a loop over a numbered list keep up to their number. -/
theorem foldlM_zipIdx_spec {f : β → α × Nat → Logged β} {P : Nat → β → Prop} {l : List α} {n : Nat}
    {b : β} (h : ∀ i a b, l[i]? = some a → P (n + i) b →
      ∃ b', (f b (a, n + i)).outcome = .ok b' ∧ P (n + i + 1) b') (hb : P n b) :
    ∃ b', ((l.zipIdx n).foldlM f b).outcome = .ok b' ∧ P (n + l.length) b' := by
  induction l generalizing n b with
  | nil => exact ⟨b, rfl, hb⟩
  | cons a rest ih =>
    obtain ⟨b₁, hb₁, hP₁⟩ := h 0 a b rfl hb
    rw [Nat.add_zero] at hb₁ hP₁
    obtain ⟨b', hb', hP'⟩ := ih (fun i a' b hi hP => by
      rw [Nat.add_right_comm] at hP ⊢
      exact h (i + 1) a' b hi hP) hP₁
    refine ⟨b', ?_, by rwa [List.length_cons, Nat.add_comm rest.length, ← Nat.add_assoc]⟩
    rw [List.zipIdx_cons, List.foldlM_cons, Logged.outcome_bind, hb₁]
    exact hb'

theorem exists_of_forall₂ {R : α → β → Prop} {as : List α} {bs : List β} {i : Nat} {a : α}
    (h : List.Forall₂ R as bs) (ha : as[i]? = some a) : ∃ b, bs[i]? = some b ∧ R a b := by
  induction h generalizing i with
  | nil => cases ha
  | cons hr _ ih =>
    cases i with
    | zero =>
      cases ha
      exact ⟨_, rfl, hr⟩
    | succ i => exact ih ha

theorem forall₂_set {R : α → β → Prop} {as : List α} {bs : List β} {i : Nat} {a : α} {b : β}
    (h : List.Forall₂ R as bs) (hb : bs[i]? = some b) (hab : R a b) :
    List.Forall₂ R (as.set i a) bs := by
  induction h generalizing i with
  | nil => exact .nil
  | cons hr hrest ih =>
    cases i with
    | zero =>
      cases hb
      exact .cons hab hrest
    | succ i => exact .cons hr (ih hb)

theorem exists_mem_iff_of_forall₂ {P : α → Prop} {R : β → Prop} {l : List α} {bs : List β}
    (h : List.Forall₂ (fun a b => R b ↔ P a) l bs) : (∃ b ∈ bs, R b) ↔ ∃ a ∈ l, P a := by
  induction h with
  | nil => simp
  | cons hb _ ih => simp [hb, ih]

theorem mem_flatten_of_forall₂ {P : α → β → Prop} {l : List α} {bs : List (List β)}
    (h : List.Forall₂ (fun a b => ∀ v, v ∈ b ↔ P a v) l bs) {v : β} :
    v ∈ bs.flatten ↔ ∃ a ∈ l, P a v :=
  List.mem_flatten.trans (exists_mem_iff_of_forall₂ (h.imp fun _ _ hb => hb v))

end RegularLanguages.Outcome
