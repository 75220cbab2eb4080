import RegularLanguages.Proofs.Pattern.Live
import RegularLanguages.Proofs.Pattern.OfNfa

/-!
# Elimination decides emptiness

What elimination gives is a simplified pattern over classes that come out of a union, and such a
class is empty only if it has no character. So no dead part is left in it, unless it is `null`; and
it is `null` if and only if the machine is `Dead`, which is a question about its edges alone.
-/

namespace RegularLanguages

namespace Nfa

/-- An edge leads from the one state to the other, whatever it reads. -/
def Links (m : Nfa) (u v : Nat) : Prop := m.Has u (v ∈ ·.targets)

/-- No way along edges leads from a start state to one that accepts. -/
def Dead (m : Nfa) : Prop :=
  ∀ u ∈ m.startStates, ∀ v ∈ m.acceptStates, ¬Relation.ReflTransGen m.Links u v

variable {m : Nfa} {p : Pattern}

theorem Valid.links_iff (h : m.Valid) {u v : Nat} : m.Links u v ↔ ∃ a, m.graph.edge u a v := by
  constructor
  · rintro ⟨s, hs, hv⟩
    exact h.exists_edge_of_mem_targets hs hv
  · rintro ⟨a, s, hs, he⟩
    refine ⟨s, hs, (h.states u s hs).mem_targets.2 ?_⟩
    cases a with
    | none => exact .inr he
    | some c => exact .inl ⟨_, he⟩

theorem Valid.dead_iff (h : m.Valid) : m.Dead ↔ ∀ w, w ∉ m.graph.language := by
  have hlinks : m.Links = fun u v => ∃ a, m.graph.edge u a v :=
    funext fun u => funext fun v => propext h.links_iff
  simp only [Dead, hlinks, ← Graph.exists_path_iff, mem_startStates, mem_acceptStates,
    Graph.mem_language, not_exists, not_and]
  exact ⟨fun hdead w u v hu hv hp => hdead u hu v hv w hp,
    fun hnone u hu v hv w hp => hnone w u v hu hv hp⟩

theorem Valid.rejects_iff (h : m.Valid) :
    (∀ w, m.accepts? w = .ok false) ↔ ∀ w, w ∉ m.graph.language := by
  refine forall_congr' fun w => ?_
  obtain ⟨b, hb, hiff⟩ := accepts?_spec h w
  rw [hb, ← hiff, Bool.not_eq_true, Except.ok.injEq]

/-- In the pattern of any machine no part is dead, or it is `null`. -/
theorem live_toPattern (hp : m.toPattern.outcome = .ok p) : p = .null ∨ p.Live := by
  obtain ⟨q, hq, rfl⟩ := exists_simplify_eq Pattern.closed_live
    (fun ks => Pattern.live_ofClass (CharClass.canonical_unionAll ks).isEmpty_iff) hp
  refine Pattern.live_simplify fun k hk => ?_
  -- a literal of a live tree has a character, and the test for an empty class fails on it
  rcases hq with rfl | hlive
  · cases hk
  · obtain ⟨w, hw⟩ := hlive _ hk
    obtain ⟨c, hc, -⟩ := Pattern.mem_language_literal.1 hw
    exact ⟨fun hempty => absurd hc (CharClass.not_mem_of_isEmpty hempty c),
      fun hnone => absurd hc (hnone c)⟩

/-- Elimination gives `null` if and only if nothing is accepted, that is, if no way leads from a
start state to one that accepts; and any other pattern that it gives has no dead part. -/
theorem Reachable.toPattern_emptiness (h : m.Reachable) : ∃ p, m.toPattern.outcome = .ok p ∧
    (p = .null ↔ m.Dead) ∧ (p = .null ↔ ∀ w, m.accepts? w = .ok false) ∧ (p ≠ .null → p.Live) := by
  obtain ⟨p, hp, hlanguage⟩ := toPattern_spec h.valid
  have hlive := live_toPattern hp
  have hnull : p = .null ↔ ∀ w, w ∉ m.graph.language := by
    rw [Pattern.eq_null_iff_of_live hlive, hlanguage]
  exact ⟨p, hp, hnull.trans h.valid.dead_iff.symm, hnull.trans h.valid.rejects_iff.symm,
    hlive.resolve_left⟩

/-- Behind the start only a state that is deleted and an edge on no character lead to the one that
accepts. -/
def stranded : List Change :=
  [.addState, .addState, .addState, .addState, .setStart 0 true, .setAccept 3 true,
    .add 0 (.chars (.single 'a')) 1, .add 1 .epsilon 0, .add 1 (.chars (.single 'b')) 2,
    .add 2 .epsilon 3, .add 1 (.chars .empty) 3, .delete 2]

theorem exists_emptiness_stranded : ∃ m, (empty.applyAll stranded).outcome = .ok m ∧ m.Reachable ∧
    m.toPattern.outcome = .ok .null ∧ m.Dead ∧ ∀ w, m.accepts? w = .ok false := by
  obtain ⟨m, hm⟩ : ∃ m, (empty.applyAll stranded).outcome = .ok m :=
    Outcome.exists_ok_of_isOk (by decide +kernel)
  have hreachable : m.Reachable := ⟨stranded, hm⟩
  obtain ⟨p, hp, hdead, hrejects, -⟩ := hreachable.toPattern_emptiness
  have hsame : ((empty.applyAll stranded >>= toPattern).outcome.toOption.any
      (·.sameAs .null)) = true := by decide +kernel
  rw [Logged.outcome_bind, hm, Logged.ok_bind, hp] at hsame
  obtain rfl : p = .null := by
    cases p <;> first | rfl | cases hsame
  exact ⟨m, hm, hreachable, hp, hdead.1 rfl, hrejects.1 rfl⟩

end Nfa
end RegularLanguages
