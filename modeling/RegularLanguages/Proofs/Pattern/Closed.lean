import RegularLanguages.Pattern.OfNfa
import RegularLanguages.Proofs.CharClass.Canonical
import RegularLanguages.Proofs.Outcome
import RegularLanguages.Proofs.Pattern.Reparse

/-!
# Properties that simplifying and elimination keep

Simplifying builds patterns from the literals of a tree by `seq`, `alt` and `many` alone, and
elimination from the unions of blocks. So what these make of patterns with some property, and what
holds of the literals or of the unions, holds of the simplified tree, or of the pattern of a machine
before it is simplified. That every range holds a character is such a property: the pattern of any
machine is read back from its text.
-/

namespace RegularLanguages

variable {P : Pattern → Prop}

/-- The reducing constructors make patterns with the property from patterns with it. -/
structure Pattern.Closed (P : Pattern → Prop) : Prop where
  empty : P .empty
  null : P .null
  seq : ∀ ps, (∀ p ∈ ps, P p) → P (.seq ps)
  alt : ∀ p q, P p → P q → P (.alt p q)
  many : ∀ p, P p → P (.many p)

/-! ## Simplifying -/

namespace Pattern

/-- The first pattern is a node of the tree of the second. -/
inductive Occurs (p : Pattern) : Pattern → Prop where
  | here : Occurs p p
  | part {q : Pattern} {parts : List Pattern} : q ∈ parts → Occurs p q → Occurs p (.concat parts)
  | left {q r : Pattern} : Occurs p q → Occurs p (.alternation q r)
  | right {q r : Pattern} : Occurs p r → Occurs p (.alternation q r)
  | base {q : Pattern} : Occurs p q → Occurs p (.star q)

mutual

/-- Simplifying makes a pattern with the property if the literals in the tree become such. -/
theorem Closed.simplify (hP : Closed P) : (p : Pattern) →
    (∀ k, Occurs (.literal k) p → P (ofClass k)) → P p.simplify
  | .literal k, h => by
    rw [Pattern.simplify]
    exact h k .here
  | .concat ps, h => by
    rw [Pattern.simplify]
    exact hP.seq _ (Closed.simplifyAll hP ps fun p hp k hk => h k (.part hp hk))
  | .alternation p q, h => by
    rw [Pattern.simplify]
    exact hP.alt _ _ (Closed.simplify hP p fun k hk => h k (.left hk))
      (Closed.simplify hP q fun k hk => h k (.right hk))
  | .star p, h => by
    rw [Pattern.simplify]
    exact hP.many _ (Closed.simplify hP p fun k hk => h k (.base hk))
  | .empty, _ => by
    rw [Pattern.simplify]
    exact hP.empty
  | .null, _ => by
    rw [Pattern.simplify]
    exact hP.null

theorem Closed.simplifyAll (hP : Closed P) : (ps : List Pattern) →
    (∀ p ∈ ps, ∀ k, Occurs (.literal k) p → P (ofClass k)) → ∀ q ∈ Pattern.simplifyAll ps, P q
  | [], _ => nofun
  | p :: rest, h => by
    obtain ⟨hp, hrest⟩ := List.forall_mem_cons.1 h
    exact List.forall_mem_cons.2 ⟨Closed.simplify hP p hp, Closed.simplifyAll hP rest hrest⟩

end

/-- What a flat concatenation has for its parts: parts that are no such node themselves, and the
parts of concatenations. -/
theorem forall_mem_of_flatten {ps flat : List Pattern} (h : flatten ps = some flat)
    (hpart : ∀ p ∈ ps, p ≠ .empty → p ≠ .null → (∀ inner, p ≠ .concat inner) → P p)
    (hinner : ∀ inner, .concat inner ∈ ps → ∀ q ∈ inner, P q) : ∀ q ∈ flat, P q := by
  induction ps using flatten.induct generalizing flat with
  | case1 =>
    cases h
    exact List.forall_mem_nil _
  | case2 => cases h
  | case3 rest ih =>
    exact ih h (fun p hp => hpart p (List.mem_cons_of_mem _ hp))
      fun inner hi => hinner inner (List.mem_cons_of_mem _ hi)
  | case4 inner rest ih =>
    obtain ⟨flat', hflat', rfl⟩ := Option.map_eq_some_iff.1 h
    exact List.forall_mem_append.2 ⟨hinner inner (List.mem_cons_self ..),
      ih hflat' (fun p hp => hpart p (List.mem_cons_of_mem _ hp))
        fun inner hi => hinner inner (List.mem_cons_of_mem _ hi)⟩
  | case5 p rest hnull hempty hconcat ih =>
    rw [flatten] at h
    · obtain ⟨flat', hflat', rfl⟩ := Option.map_eq_some_iff.1 h
      exact List.forall_mem_cons.2 ⟨hpart p (List.mem_cons_self ..) hempty hnull hconcat,
        ih hflat' (fun p hp => hpart p (List.mem_cons_of_mem _ hp))
          fun inner hi => hinner inner (List.mem_cons_of_mem _ hi)⟩
    · exact hnull
    · exact hempty
    · exact hconcat

end Pattern

/-! ## Elimination -/

theorem Pattern.Closed.seq_pair (hP : Closed P) {p q : Pattern} (hp : P p) (hq : P q) :
    P (.seq [p, q]) :=
  hP.seq _ fun r hr => by
    rcases List.mem_pair.1 hr with rfl | rfl
    · exact hp
    · exact hq

/-- All patterns of an equation have the property. -/
structure Equation.All (P : Pattern → Prop) (e : Equation) : Prop where
  finish : P e.finish
  moves : ∀ p ∈ e.moves, P p

namespace Equation.All

variable {e solved : Equation}

theorem solve (hP : Pattern.Closed P) (h : e.All P) : e.solve.All P := by
  obtain ⟨finish, moves⟩ := e
  cases moves with
  | nil => exact h
  | cons own moves =>
    have hown : P (.many own) := hP.many _ (h.moves own (List.mem_cons_self ..))
    refine ⟨hP.seq_pair hown h.finish, fun p hp => ?_⟩
    obtain ⟨q, hq, rfl⟩ := List.mem_map.1 hp
    exact hP.seq_pair hown (h.moves q (List.mem_cons_of_mem _ hq))

theorem substitute (hP : Pattern.Closed P) (h : e.All P) (hsolved : solved.All P) :
    (solved.substitute e).All P := by
  obtain ⟨finish, moves⟩ := e
  cases moves with
  | nil => exact h
  | cons via moves =>
    have hvia : P via := h.moves via (List.mem_cons_self ..)
    have hmoves : ∀ p ∈ moves, P p := fun p hp => h.moves p (List.mem_cons_of_mem _ hp)
    by_cases hnull : via = .null
    · subst hnull
      exact ⟨h.finish, hmoves⟩
    · rw [Equation.substitute]
      · refine ⟨hP.alt _ _ h.finish (hP.seq_pair hvia hsolved.finish), fun p hp => ?_⟩
        rw [← List.map_uncurry_zip_eq_zipWith] at hp
        obtain ⟨⟨q, r⟩, hqr, rfl⟩ := List.mem_map.1 hp
        obtain ⟨hq, hr⟩ := List.of_mem_zip hqr
        exact hP.alt _ _ (hmoves q hq) (hP.seq_pair hvia (hsolved.moves r hr))
      · exact hnull

end Equation.All

namespace Elimination

/-- All patterns of a system have the property. -/
structure All (P : Pattern → Prop) (s : Elimination) : Prop where
  pending : ∀ e ∈ s.pending, e.All P
  solved : ∀ e ∈ s.solved, e.All P

variable {s : Elimination}

theorem All.round (hP : Pattern.Closed P) (h : s.All P) : s.round.All P := by
  obtain ⟨pending, solved⟩ := s
  cases pending with
  | nil => exact h
  | cons e rest =>
    have he : e.solve.All P := (h.pending e (List.mem_cons_self ..)).solve hP
    refine ⟨fun e' he' => ?_, List.forall_mem_cons.2 ⟨he, h.solved⟩⟩
    obtain ⟨e₁, he₁, rfl⟩ := List.mem_map.1 he'
    exact (h.pending e₁ (List.mem_cons_of_mem _ he₁)).substitute hP he

theorem All.rounds (hP : Pattern.Closed P) (h : s.All P) (n : Nat) : (rounds n s).All P := by
  induction n generalizing s with
  | zero => exact h
  | succ n ih => exact ih (h.round hP)

theorem all_conclude (hP : Pattern.Closed P) {e : Equation} {finished : List Pattern}
    (he : e.All P) (hfinished : ∀ p ∈ finished, P p) : P (conclude e finished) := by
  refine List.foldlRecOn _ _ he.finish fun p hp (move, rest) hmem => ?_
  obtain ⟨hmove, hrest⟩ := List.of_mem_zip hmem
  exact hP.alt _ _ hp
    (hP.seq_pair (he.moves move (List.mem_reverse.1 hmove)) (hfinished rest hrest))

theorem all_finishAll (hP : Pattern.Closed P) {solved : List Equation}
    (h : ∀ e ∈ solved, e.All P) : ∀ p ∈ finishAll solved, P p := by
  unfold finishAll
  refine List.foldlRecOn (motive := fun finished => ∀ p ∈ finished, P p) _ _ nofun ?_
  intro finished hfinished e he p hp
  rcases List.mem_append.1 hp with hp | hp
  · exact hfinished p hp
  · rw [List.mem_singleton.1 hp]
    exact all_conclude hP (h e he) hfinished

end Elimination

/-! ## The pattern of a machine -/

namespace Nfa

variable {m : Nfa}

theorem all_move (hP : Pattern.Closed P) (hclass : ∀ ks, P (.ofClass (.unionAll ks))) {s : State}
    {t : Nat} {p : Pattern} (hp : m.move s t = .ok p) : P p := by
  obtain ⟨blocks, -, hp⟩ := Logged.bind_eq_ok_iff.1 hp
  cases hp
  split
  · exact hP.alt _ _ (hclass blocks) hP.empty
  · exact hclass blocks

theorem all_equation (hP : Pattern.Closed P) (hclass : ∀ ks, P (.ofClass (.unionAll ks)))
    {order : List Nat} {u : Nat} {e : Equation} (he : m.equation order u = .ok e) : e.All P := by
  obtain ⟨s, -, he⟩ := Logged.bind_eq_ok_iff.1 he
  obtain ⟨_, -, he⟩ := Logged.bind_eq_ok_iff.1 he
  obtain ⟨moves, hmoves, he⟩ := Logged.bind_eq_ok_iff.1 he
  cases he
  refine ⟨?_, fun p hp => ?_⟩
  · split
    · exact hP.empty
    · exact hP.null
  · obtain ⟨t, -, ht⟩ := Outcome.exists_of_mem_mapM hmoves hp
    exact all_move hP hclass ht

/-- The pattern of a machine is a pattern with the property, simplified. -/
theorem exists_simplify_eq (hP : Pattern.Closed P) (hclass : ∀ ks, P (.ofClass (.unionAll ks)))
    {p : Pattern} (hp : m.toPattern.outcome = .ok p) : ∃ q, P q ∧ q.simplify = p := by
  rw [toPattern, Logged.outcome_bind] at hp
  obtain ⟨equations, hequations, hp⟩ := Logged.bind_eq_ok_iff.1 hp
  cases hp
  have hinit : Elimination.All P ⟨equations, []⟩ := by
    refine ⟨fun e he => ?_, nofun⟩
    obtain ⟨u, -, hu⟩ := Outcome.exists_of_mem_mapM hequations he
    exact all_equation hP hclass hu
  have hsolved := (hinit.rounds hP m.eliminationOrder.length).solved
  have hfinished := Elimination.all_finishAll hP
    fun e he => hsolved e (List.mem_of_mem_take (i := m.startStates.length) he)
  exact ⟨_, List.foldlRecOn _ _ hP.null fun q hq p hp => hP.alt _ _ hq (hfinished p hp), rfl⟩

end Nfa

/-! ## Ranges that hold a character -/

theorem CharClass.ordered_unionAll (ks : List CharClass) : (unionAll ks).Ordered :=
  (canonical_unionAll ks).ordered

namespace Pattern

theorem orderedAll_iff {ps : List Pattern} : OrderedAll ps ↔ ∀ p ∈ ps, p.Ordered := by
  induction ps with
  | nil => exact iff_of_true trivial nofun
  | cons p rest ih => rw [OrderedAll, ih, List.forall_mem_cons]

theorem ordered_ofClass {k : CharClass} (h : k.Ordered) : (ofClass k).Ordered := by
  unfold ofClass
  split
  · trivial
  · exact h

theorem orderedAll_flatten {ps flat : List Pattern} (h : OrderedAll ps)
    (hflat : flatten ps = some flat) : OrderedAll flat :=
  orderedAll_iff.2 (forall_mem_of_flatten hflat (fun p hp _ _ _ => orderedAll_iff.1 h p hp)
    fun inner hinner => orderedAll_iff.1 (orderedAll_iff.1 h (.concat inner) hinner))

theorem ordered_ofParts {ps : List Pattern} (h : OrderedAll ps) : (ofParts ps).Ordered := by
  unfold ofParts
  split
  · trivial
  · exact h.1
  · exact h

theorem ordered_seq {ps : List Pattern} (h : OrderedAll ps) : (seq ps).Ordered := by
  unfold seq
  split
  · trivial
  · rename_i flat hflat
    exact ordered_ofParts (orderedAll_flatten h hflat)

theorem ordered_alt {p q : Pattern} (hp : p.Ordered) (hq : q.Ordered) : (alt p q).Ordered := by
  unfold alt
  split
  · exact hq
  · exact hp
  · exact ⟨hp, hq⟩

theorem ordered_many {p : Pattern} (hp : p.Ordered) : (many p).Ordered := by
  unfold many
  split
  · trivial
  · trivial
  · exact hp

theorem closed_ordered : Closed Ordered where
  empty := trivial
  null := trivial
  seq _ hps := ordered_seq (orderedAll_iff.2 hps)
  alt _ _ := ordered_alt
  many _ := ordered_many

theorem Ordered.of_occurs {p q : Pattern} (h : q.Ordered) (hp : Occurs p q) : p.Ordered := by
  induction hp with
  | here => exact h
  | part hmem _ ih => exact ih (orderedAll_iff.1 h _ hmem)
  | left _ ih => exact ih h.1
  | right _ ih => exact ih h.2
  | base _ ih => exact ih h

theorem Ordered.simplify {p : Pattern} (h : p.Ordered) : p.simplify.Ordered :=
  closed_ordered.simplify p fun _ hk => ordered_ofClass (h.of_occurs hk)

/-- Of every machine, sound or not, the pattern is one that is read back from its text. -/
theorem ordered_toPattern {m : Nfa} {p : Pattern} (hp : m.toPattern.outcome = .ok p) :
    p.Ordered := by
  obtain ⟨q, hq, rfl⟩ := Nfa.exists_simplify_eq closed_ordered
    (fun ks => ordered_ofClass (CharClass.ordered_unionAll ks)) hp
  exact hq.simplify

end Pattern

end RegularLanguages
