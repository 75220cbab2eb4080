import RegularLanguages.Proofs.Nfa.Resemblance
import RegularLanguages.Proofs.Nfa.Safety

/-!
# Closures are sets of reached states

The closure of a set of states holds what edges that read nothing lead to from it, whatever the
order in which the search meets them and however they run in circles. That alone determines it, so
the laws of closures are those of reachability, and `step` inherits them.
-/

namespace RegularLanguages

namespace Nfa

open StateSet (Enumerates)

/-- Edges that read nothing lead to `v` from one of `ids`. -/
def Drifts (m : Nfa) (ids : List Nat) (v : Nat) : Prop :=
  ∃ u ∈ ids, Relation.ReflTransGen m.Skips u v

/-- An edge on `symbol` leads to `v` from one of `ids`, with edges that read nothing after it. -/
def Advances (m : Nfa) (ids : List Nat) (symbol v : Nat) : Prop :=
  ∃ u ∈ ids, ∃ targets, m.targetsOn u symbol = .ok targets ∧ m.Drifts targets v

/-- `closure` is reachability and `step` one more symbol, on all sets of states that are there. -/
structure ClosesExactly (m : Nfa) : Prop where
  /-- The search ends, and what it has seen then is what is reached. -/
  closure : ∀ ids, (∀ u ∈ ids, m.Live u) → ∃ cl, m.closure ids = .ok cl ∧
    m.Searches (ids.foldl visit ([], [])) cl ∧ Enumerates cl (m.Drifts ids)
  closure_congr : ∀ ids ids', (∀ u ∈ ids, m.Live u) → (∀ u, u ∈ ids' ↔ u ∈ ids) →
    m.closure ids' = m.closure ids
  idempotent : ∀ ids cl, (∀ u ∈ ids, m.Live u) → m.closure ids = .ok cl → m.closure cl = .ok cl
  monotone : ∀ ids ids' cl cl', (∀ u ∈ ids', m.Live u) → (∀ u ∈ ids, u ∈ ids') →
    m.closure ids = .ok cl → m.closure ids' = .ok cl' → ∀ v ∈ cl, v ∈ cl'
  closure_union : ∀ ids ids' both cl cl', (∀ u ∈ ids, m.Live u) → (∀ u ∈ ids', m.Live u) →
    (∀ u, u ∈ both ↔ u ∈ ids ∨ u ∈ ids') → m.closure ids = .ok cl → m.closure ids' = .ok cl' →
    m.closure both = .ok (StateSet.ofList (cl ++ cl'))
  step : ∀ ids symbol, (∀ u ∈ ids, m.Live u) →
    ∃ next, m.step ids symbol = .ok next ∧ Enumerates next (m.Advances ids symbol)
  step_closed : ∀ ids symbol next, (∀ u ∈ ids, m.Live u) → m.step ids symbol = .ok next →
    m.closure next = .ok next
  step_union : ∀ ids ids' both symbol next next', (∀ u ∈ ids, m.Live u) →
    (∀ u ∈ ids', m.Live u) → (∀ u, u ∈ both ↔ u ∈ ids ∨ u ∈ ids') →
    m.step ids symbol = .ok next → m.step ids' symbol = .ok next' →
    m.step both symbol = .ok (StateSet.ofList (next ++ next'))

variable {m : Nfa} {ids ids' both cl cl' next next' : List Nat} {u v symbol : Nat}

/-! ## What is reached -/

theorem reflTransGen_skips : Relation.ReflTransGen m.Skips = m.graph.EpsilonReach :=
  congrArg Relation.ReflTransGen (funext fun _ => funext fun _ => propext skips_iff)

theorem drifts_iff : m.Drifts ids v ↔ ∃ u ∈ ids, m.graph.EpsilonReach u v := by
  rw [Drifts, reflTransGen_skips]

theorem Drifts.mono (h : ∀ u ∈ ids, u ∈ ids') (hv : m.Drifts ids v) : m.Drifts ids' v :=
  hv.imp fun u hu => ⟨h u hu.1, hu.2⟩

theorem drifts_union (h : ∀ u, u ∈ both ↔ u ∈ ids ∨ u ∈ ids') :
    m.Drifts both v ↔ m.Drifts ids v ∨ m.Drifts ids' v := by
  simp only [Drifts, h, or_and_right, exists_or]

theorem advances_union (h : ∀ u, u ∈ both ↔ u ∈ ids ∨ u ∈ ids') :
    m.Advances both symbol v ↔ m.Advances ids symbol v ∨ m.Advances ids' symbol v := by
  simp only [Advances, h, or_and_right, exists_or]

/-- Going on from what has been reached reaches nothing else. -/
theorem drifts_of_enumerates {P : Nat → Prop} (hcl : Enumerates cl P)
    (hP : ∀ u v, P u → m.Skips u v → P v) : m.Drifts cl v ↔ P v := by
  constructor
  · rintro ⟨u, hu, huv⟩
    induction huv with
    | refl => exact (hcl.mem_iff u).1 hu
    | tail _ hskip ih => exact hP _ _ ih hskip
  · exact fun hv => ⟨v, (hcl.mem_iff v).2 hv, .refl⟩

theorem Drifts.skip (h : m.Drifts ids u) (hskip : m.Skips u v) : m.Drifts ids v := by
  obtain ⟨t, ht, htu⟩ := h
  exact ⟨t, ht, htu.tail hskip⟩

theorem Advances.skip (h : m.Advances ids symbol u) (hskip : m.Skips u v) :
    m.Advances ids symbol v := by
  obtain ⟨t, ht, targets, htargets, hdrifts⟩ := h
  exact ⟨t, ht, targets, htargets, hdrifts.skip hskip⟩

/-! ## Closures and steps -/

theorem live_of_mem_both (hids : ∀ u ∈ ids, m.Live u) (hids' : ∀ u ∈ ids', m.Live u)
    (hboth : ∀ u, u ∈ both ↔ u ∈ ids ∨ u ∈ ids') : ∀ u ∈ both, m.Live u := fun u hu =>
  ((hboth u).1 hu).elim (hids u) (hids' u)

section Valid

variable (hm : m.Valid)
include hm

theorem Drifts.live (hids : ∀ u ∈ ids, m.Live u) (h : m.Drifts ids v) : m.Live v := by
  obtain ⟨u, hu, huv⟩ := drifts_iff.1 h
  exact live_iff.2 (vertex_of_epsilonReach hm (live_iff.1 (hids u hu)) huv)

theorem Advances.live (hids : ∀ u ∈ ids, m.Live u) (h : m.Advances ids symbol v) : m.Live v := by
  obtain ⟨u, hu, targets, htargets, hdrifts⟩ := h
  exact hdrifts.live hm (Outcome.of_exists_ok (targetsOn_live hm (hids u hu) symbol) htargets)

theorem exists_closure (hids : ∀ u ∈ ids, m.Live u) :
    ∃ cl, m.closure ids = .ok cl ∧ Enumerates cl (m.Drifts ids) := by
  obtain ⟨cl, hcl, henum⟩ := closure_spec hm ids fun u hu => live_iff.1 (hids u hu)
  exact ⟨cl, hcl, henum.congr fun _ => drifts_iff.symm⟩

theorem closure_eq_ok_iff (hids : ∀ u ∈ ids, m.Live u) :
    m.closure ids = .ok cl ↔ Enumerates cl (m.Drifts ids) := by
  obtain ⟨cl₀, hcl₀, henum⟩ := exists_closure hm hids
  rw [hcl₀, Except.ok.injEq]
  exact ⟨fun h => h ▸ henum, henum.unique⟩

theorem exists_step (hids : ∀ u ∈ ids, m.Live u) (symbol : Nat) :
    ∃ next, m.step ids symbol = .ok next ∧ Enumerates next (m.Advances ids symbol) := by
  obtain ⟨ts, hts, hmem⟩ := Outcome.mapM_spec (l := ids)
    (Q := fun u ts => ∀ t, t ∈ ts ↔ ∃ targets, m.targetsOn u symbol = .ok targets ∧ t ∈ targets)
    fun u hu => by
      obtain ⟨targets, htargets, -⟩ := targetsOn_live hm (hids u hu) symbol
      exact ⟨targets, htargets, fun t => by simp [htargets]⟩
  have hflat : ∀ t, t ∈ ts.flatten ↔
      ∃ u ∈ ids, ∃ targets, m.targetsOn u symbol = .ok targets ∧ t ∈ targets := fun t =>
    Outcome.mem_flatten_of_forall₂ hmem
  have hlive : ∀ t ∈ ts.flatten, m.Live t := fun t ht => by
    obtain ⟨u, hu, targets, htargets, ht⟩ := (hflat t).1 ht
    exact Outcome.of_exists_ok (targetsOn_live hm (hids u hu) symbol) htargets t ht
  obtain ⟨next, hnext, henum⟩ := exists_closure hm hlive
  refine ⟨next, by rw [Nfa.step, hts]; exact hnext, henum.congr fun v => ?_⟩
  simp only [Drifts, Advances, hflat]
  constructor
  · rintro ⟨t, ⟨u, hu, targets, htargets, ht⟩, htv⟩
    exact ⟨u, hu, targets, htargets, t, ht, htv⟩
  · rintro ⟨u, hu, targets, htargets, t, ht, htv⟩
    exact ⟨t, ⟨u, hu, targets, htargets, ht⟩, htv⟩

theorem step_eq_ok_iff (hids : ∀ u ∈ ids, m.Live u) :
    m.step ids symbol = .ok next ↔ Enumerates next (m.Advances ids symbol) := by
  obtain ⟨next₀, hnext₀, henum⟩ := exists_step hm hids symbol
  rw [hnext₀, Except.ok.injEq]
  exact ⟨fun h => h ▸ henum, henum.unique⟩

theorem Valid.closesExactly : m.ClosesExactly where
  closure ids hids := by
    obtain ⟨cl, hcl, hsearches⟩ := closure_searches hm ids fun u hu => live_iff.1 (hids u hu)
    exact ⟨cl, hcl, hsearches, (closure_eq_ok_iff hm hids).1 hcl⟩
  closure_congr ids ids' hids hsame := by
    obtain ⟨cl, hcl, henum⟩ := exists_closure hm hids
    have hids' : ∀ u ∈ ids', m.Live u := fun u hu => hids u ((hsame u).1 hu)
    rw [hcl, closure_eq_ok_iff hm hids']
    exact henum.congr fun v => ⟨.mono fun u => (hsame u).2, .mono fun u => (hsame u).1⟩
  idempotent ids cl hids hcl := by
    rw [closure_eq_ok_iff hm hids] at hcl
    have hlive : ∀ u ∈ cl, m.Live u := fun u hu => Drifts.live hm hids ((hcl.mem_iff u).1 hu)
    rw [closure_eq_ok_iff hm hlive]
    exact hcl.congr fun v => (drifts_of_enumerates hcl fun _ _ => Drifts.skip).symm
  monotone ids ids' cl cl' hids' hsub hcl hcl' v hv := by
    rw [closure_eq_ok_iff hm fun u hu => hids' u (hsub u hu)] at hcl
    rw [closure_eq_ok_iff hm hids'] at hcl'
    exact (hcl'.mem_iff v).2 (((hcl.mem_iff v).1 hv).mono hsub)
  closure_union ids ids' both cl cl' hids hids' hboth hcl hcl' := by
    rw [closure_eq_ok_iff hm hids] at hcl
    rw [closure_eq_ok_iff hm hids'] at hcl'
    rw [closure_eq_ok_iff hm (live_of_mem_both hids hids' hboth)]
    exact hcl.union hcl' fun v => drifts_union hboth
  step ids symbol hids := exists_step hm hids symbol
  step_closed ids symbol next hids hnext := by
    rw [step_eq_ok_iff hm hids] at hnext
    have hlive : ∀ u ∈ next, m.Live u := fun u hu =>
      Advances.live hm hids ((hnext.mem_iff u).1 hu)
    rw [closure_eq_ok_iff hm hlive]
    exact hnext.congr fun v => (drifts_of_enumerates hnext fun _ _ => Advances.skip).symm
  step_union ids ids' both symbol next next' hids hids' hboth hnext hnext' := by
    rw [step_eq_ok_iff hm hids] at hnext
    rw [step_eq_ok_iff hm hids'] at hnext'
    rw [step_eq_ok_iff hm (live_of_mem_both hids hids' hboth)]
    exact hnext.union hnext' fun v => advances_union hboth

end Valid

end Nfa

/-- The closures of a machine are the sets of states that edges that read nothing reach, and its
steps are closed and respect unions. -/
theorem Automaton.Built.closure_exact {m : Nfa} (h : Automaton.Built (.nfa m)) :
    m.ClosesExactly :=
  Nfa.Valid.closesExactly h.sound

/-- Here two states reach each other along edges that read nothing. -/
theorem Nfa.exists_closesExactly_tangled : ∃ m, (empty.applyAll tangled).outcome = .ok m ∧
    Automaton.Built (.nfa m) ∧ m.ClosesExactly ∧ m.closure [2] = .ok [1, 2] ∧
      m.closure [2, 0] = .ok [0, 1, 2] := by
  obtain ⟨m, hm⟩ := exists_tangled
  have hbuilt : Automaton.Built (.nfa m) := built_of_applyAll .empty hm
  have hone : ((empty.applyAll tangled).outcome >>= (·.closure [2])).toOption =
      some [1, 2] := by decide +kernel
  have htwo : ((empty.applyAll tangled).outcome >>= (·.closure [2, 0])).toOption =
      some [0, 1, 2] := by decide +kernel
  rw [hm, Logged.ok_bind] at hone htwo
  exact ⟨m, hm, hbuilt, hbuilt.closure_exact, Outcome.eq_ok_of_toOption hone,
    Outcome.eq_ok_of_toOption htwo⟩

end RegularLanguages
