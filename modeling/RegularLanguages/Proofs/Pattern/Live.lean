import RegularLanguages.Proofs.Pattern.Closed

/-!
# Patterns without a dead part

Every node of a `Live` pattern matches some text. A dead part of a tree makes dead whatever needs
it, and the reducing constructors drop the rest: they make nothing but live patterns and `null` of
live patterns and `null`. So what they build is `null` if and only if it matches no text.
-/

open Computability

namespace RegularLanguages.Pattern

/-- Every node of the tree matches some text. -/
def Live (p : Pattern) : Prop := ∀ q, Occurs q p → ∃ w, w ∈ q.language

variable {p q : Pattern} {ps : List Pattern}

theorem Live.inhabited (h : p.Live) : ∃ w, w ∈ p.language := h p .here

/-! ## Nodes -/

theorem live_literal {k : CharClass} {c : Char} (hc : c ∈ k) : (literal k).Live := by
  rintro q ⟨⟩
  exact ⟨[c], mem_language_literal.2 ⟨c, hc, rfl⟩⟩

theorem live_empty : empty.Live := by
  rintro q ⟨⟩
  exact ⟨[], by rw [language_empty]; exact Language.nil_mem_one⟩

theorem exists_mem_prod (h : ∀ p ∈ ps, ∃ w, w ∈ p.language) :
    ∃ w, w ∈ (ps.map language).prod := by
  induction ps with
  | nil => exact ⟨[], Language.nil_mem_one⟩
  | cons p rest ih =>
    obtain ⟨⟨v, hv⟩, hrest⟩ := List.forall_mem_cons.1 h
    obtain ⟨w, hw⟩ := ih hrest
    exact ⟨v ++ w, Language.append_mem_mul hv hw⟩

theorem live_concat (h : ∀ p ∈ ps, p.Live) : (concat ps).Live := by
  intro q hq
  cases hq with
  | here =>
    rw [language_concat]
    exact exists_mem_prod fun p hp => (h p hp).inhabited
  | part hp hq => exact h _ hp q hq

theorem live_alternation (hp : p.Live) (hq : q.Live) : (alternation p q).Live := by
  intro r hr
  cases hr with
  | here =>
    obtain ⟨w, hw⟩ := hp.inhabited
    exact ⟨w, by rw [language_alternation]; exact .inl hw⟩
  | left hr => exact hp r hr
  | right hr => exact hq r hr

theorem live_star (hp : p.Live) : (star p).Live := by
  intro r hr
  cases hr with
  | here => exact ⟨[], by rw [language_star]; exact Language.nil_mem_kstar _⟩
  | base hr => exact hp r hr

/-! ## The reducing constructors -/

theorem live_ofClass {k : CharClass} (hk : k.isEmpty = true ↔ ∀ c, c ∉ k) :
    ofClass k = null ∨ (ofClass k).Live := by
  unfold ofClass
  split
  · exact .inl rfl
  · rename_i hempty
    obtain ⟨c, hc⟩ := not_forall_not.1 (mt hk.2 hempty)
    exact .inr (live_literal hc)

theorem live_ofParts (h : ∀ p ∈ ps, p.Live) : (ofParts ps).Live := by
  unfold ofParts
  split
  · exact live_empty
  · exact h _ (List.mem_singleton_self _)
  · exact live_concat h

theorem null_not_mem_of_flatten {flat : List Pattern} (h : flatten ps = some flat) : null ∉ ps := by
  induction ps using flatten.induct generalizing flat with
  | case1 => exact List.not_mem_nil
  | case2 => cases h
  | case3 rest ih => exact List.not_mem_cons_of_ne_of_not_mem (by simp) (ih h)
  | case4 inner rest ih =>
    obtain ⟨flat', hflat', -⟩ := Option.map_eq_some_iff.1 h
    exact List.not_mem_cons_of_ne_of_not_mem (by simp) (ih hflat')
  | case5 p rest hnull hempty hconcat ih =>
    rw [flatten] at h
    · obtain ⟨flat', hflat', -⟩ := Option.map_eq_some_iff.1 h
      exact List.not_mem_cons_of_ne_of_not_mem (Ne.symm hnull) (ih hflat')
    · exact hnull
    · exact hempty
    · exact hconcat

/-- What is `null` or live stays so. -/
theorem closed_live : Closed fun p => p = null ∨ p.Live where
  empty := .inr live_empty
  null := .inl rfl
  seq ps hps := by
    unfold seq
    split
    · exact .inl rfl
    · rename_i flat hflat
      -- a list with a `null` is not flattened, so all of these are live
      have hnull := null_not_mem_of_flatten hflat
      have hlive : ∀ p ∈ ps, p.Live := fun p hp =>
        (hps p hp).resolve_left fun heq => hnull (heq ▸ hp)
      refine .inr (live_ofParts (forall_mem_of_flatten hflat (fun p hp _ _ _ => hlive p hp) ?_))
      exact fun inner hinner q hq r hr => hlive _ hinner r (.part hq hr)
  alt p q hp hq := by
    unfold alt
    split
    · exact hq
    · exact hp
    · rename_i hpnull hqnull
      exact .inr (live_alternation (hp.resolve_left hpnull) (hq.resolve_left hqnull))
  many p hp := by
    unfold many
    split
    · exact .inr live_empty
    · exact .inr live_empty
    · rename_i hnull
      exact .inr (live_star (hp.resolve_left hnull))

/-! ## Whole trees -/

theorem live_simplify (h : ∀ k, Occurs (.literal k) p → (k.isEmpty = true ↔ ∀ c, c ∉ k)) :
    p.simplify = null ∨ p.simplify.Live :=
  closed_live.simplify p fun k hk => live_ofClass (h k hk)

theorem eq_null_iff_of_live (h : p = null ∨ p.Live) : p = null ↔ ∀ w, w ∉ p.language := by
  refine ⟨?_, fun hnone => h.resolve_right fun hlive => ?_⟩
  · rintro rfl w
    rw [language_null]
    exact Language.notMem_zero w
  · obtain ⟨w, hw⟩ := hlive.inhabited
    exact hnone w hw

end RegularLanguages.Pattern
