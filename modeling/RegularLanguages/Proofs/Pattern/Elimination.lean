import Mathlib.Data.List.Forall2
import RegularLanguages.Pattern.OfNfa
import RegularLanguages.Proofs.Graph.Route
import RegularLanguages.Proofs.Outcome
import RegularLanguages.Proofs.Pattern.Language

/-!
# Elimination solves a system of equations

The equation of a vertex stands for routes through the vertices that are eliminated: its end for the
routes to an accepting vertex, each of its moves for the walks to an open vertex. A round keeps this
for one more eliminated vertex, and `Holds` is the invariant of the loop. In the end the solved
equations stand for routes through all that were solved up to them, and `finishAll` puts behind each
move what is accepted from where it leads.
-/

open Computability

namespace RegularLanguages

variable {g : Graph} {E E' : Nat → Prop} {ks vs : List Nat} {k u : Nat}

theorem forall₂_zipWith {α β γ δ : Type} {P : α → β → Prop} {Q : α → γ → Prop} {R : α → δ → Prop}
    {f : β → γ → δ} (hf : ∀ a b c, P a b → Q a c → R a (f b c)) {as : List α} {bs : List β}
    {cs : List γ} (hP : List.Forall₂ P as bs) (hQ : List.Forall₂ Q as cs) :
    List.Forall₂ R as (List.zipWith f bs cs) := by
  induction hP generalizing cs with
  | nil => cases hQ; exact .nil
  | cons hp _ ih =>
    cases hQ with
    | cons hq hQ => exact .cons (hf _ _ _ hp hq) (ih hQ)

namespace Equation

/-- The equation of `u` when the vertices of `E` are eliminated and those of `vs` are open. -/
structure Denotes (g : Graph) (E : Nat → Prop) (vs : List Nat) (u : Nat) (e : Equation) :
    Prop where
  finish : e.finish.language = g.routes E g.ends u
  moves : List.Forall₂ (fun v p => p.language = g.through E u v) vs e.moves

variable {e solved : Equation}

theorem Denotes.solve (hE' : ∀ v, E' v ↔ v = k ∨ E v) (h : e.Denotes g E (k :: vs) k) :
    e.solve.Denotes g E' vs k := by
  obtain ⟨finish, moves⟩ := e
  obtain ⟨hfinish, hmoves⟩ := h
  cases hmoves with
  | cons hown hmoves =>
    refine ⟨?_, List.forall₂_map_right_iff.2 (hmoves.imp fun v p hp => ?_)⟩
    · simp only [Equation.solve, Pattern.language_seq, Pattern.language_many, List.map_cons,
        List.map_nil, List.prod_cons, List.prod_nil, mul_one]
      rw [hown, hfinish, Graph.routes_insert_self hE']
    · simp only [Pattern.language_seq, Pattern.language_many, List.map_cons, List.map_nil,
        List.prod_cons, List.prod_nil, mul_one]
      rw [hown, hp, Graph.through, Graph.through, Graph.through, Graph.routes_insert_self hE']
      rfl

/-- A move through the eliminated vertex is put in the place of a move to it. -/
theorem Denotes.substitute (hE' : ∀ v, E' v ↔ v = k ∨ E v) (h : e.Denotes g E (k :: vs) u)
    (hsolved : solved.Denotes g E' vs k) : (solved.substitute e).Denotes g E' vs u := by
  obtain ⟨finish, moves⟩ := e
  obtain ⟨hfinish, hmoves⟩ := h
  cases hmoves with
  | @cons _ via _ moves hvia hmoves =>
    have hinsert (last : Nat → Language Char) : g.routes E' last u =
        g.routes E last u + via.language * g.routes E' last k := by
      rw [hvia, Graph.routes_insert_via hE']
    by_cases hnull : via = .null
    · subst hnull
      have hinsert (last : Nat → Language Char) : g.routes E' last u = g.routes E last u := by
        rw [hinsert, Pattern.language_null, zero_mul, add_zero]
      refine ⟨hfinish.trans (hinsert _).symm, hmoves.imp fun v p hp => ?_⟩
      exact hp.trans (hinsert _).symm
    · rw [Equation.substitute]
      · refine ⟨?_, forall₂_zipWith (fun v p q hp hq => ?_) hmoves hsolved.moves⟩
        · rw [Pattern.language_alt, hinsert, hfinish]
          simp [hsolved.finish]
        · rw [Pattern.language_alt, Graph.through, hinsert, hp]
          simp [hq, Graph.through]
      · exact hnull

end Equation

namespace Elimination

/-- The equations of `ks`, the last solved first, when those of `vs` were open. -/
inductive Solved (g : Graph) : List Nat → List Nat → List Equation → Prop where
  | nil {vs : List Nat} : Solved g [] vs []
  | cons {k : Nat} {ks vs : List Nat} {e : Equation} {es : List Equation} :
      e.Denotes g (· ∈ k :: ks) vs k → Solved g ks (k :: vs) es → Solved g (k :: ks) vs (e :: es)

/-- The equations of `ks` are solved and those of `vs` are open. -/
structure Holds (g : Graph) (ks vs : List Nat) (s : Elimination) : Prop where
  pending : List.Forall₂ (fun u e => e.Denotes g (· ∈ ks) vs u) vs s.pending
  solved : Solved g ks vs s.solved

variable {s : Elimination} {e : Equation} {es : List Equation} {finished : List Pattern}

theorem Holds.round (h : s.Holds g ks (k :: vs)) : s.round.Holds g (k :: ks) vs := by
  obtain ⟨pending, solved⟩ := s
  obtain ⟨hpending, hsolved⟩ := h
  have hmem : ∀ v, v ∈ k :: ks ↔ v = k ∨ v ∈ ks := fun v => List.mem_cons
  cases hpending with
  | cons he hrest =>
    have hsolve := he.solve hmem
    refine ⟨List.forall₂_map_right_iff.2 (hrest.imp fun u e' he' => ?_), .cons hsolve hsolved⟩
    exact he'.substitute hmem hsolve

theorem Holds.rounds {done : List Nat} (h : s.Holds g ks (done ++ vs)) :
    (rounds done.length s).Holds g (done.reverse ++ ks) vs := by
  induction done generalizing ks s with
  | nil => exact h
  | cons k done ih =>
    rw [List.reverse_cons, List.append_assoc]
    exact ih h.round

/-! ## Putting the solutions into one another -/

/-- Each move, with what is accepted after it. -/
def continued (e : Equation) (finished : List Pattern) : List Pattern :=
  List.zipWith (fun move rest => .seq [move, rest]) e.moves.reverse finished

theorem conclude_eq_foldl (e : Equation) (finished : List Pattern) :
    conclude e finished = (continued e finished).foldl .alt e.finish := by
  rw [conclude, continued, ← List.map_uncurry_zip_eq_zipWith, List.foldl_map]
  rfl

/-- Patterns for all that is accepted from the vertices. -/
def Finished (g : Graph) (us : List Nat) (ps : List Pattern) : Prop :=
  List.Forall₂ (fun u p => p.language = g.routes (fun _ => True) g.ends u) us ps

theorem Finished.continued (h : e.Denotes g E vs u) (hfinished : Finished g vs.reverse finished) :
    List.Forall₂ (fun v (p : Pattern) =>
      p.language = g.through E u v * g.routes (fun _ => True) g.ends v)
      vs.reverse (continued e finished) := by
  refine forall₂_zipWith (fun v p q hp hq => ?_) (List.forall₂_reverse_iff.2 h.moves) hfinished
  simp [hp, hq]

/-- What is accepted from a vertex ends among the eliminated ones or moves on to an open one. -/
theorem language_conclude (h : e.Denotes g E vs u)
    (hedge : ∀ u a v, g.edge u a v → E v ∨ v ∈ vs) (hfinished : Finished g vs.reverse finished) :
    (conclude e finished).language = g.routes (fun _ => True) g.ends u := by
  ext w
  rw [conclude_eq_foldl, Pattern.mem_language_foldl_alt, h.finish, Graph.mem_routes_iff hedge,
    Outcome.exists_mem_iff_of_forall₂ ((hfinished.continued h).imp fun v p hp => by rw [hp])]
  simp only [List.mem_reverse]

theorem Solved.foldl_conclude (h : Solved g ks vs es)
    (hedge : ∀ u a v, g.edge u a v → v ∈ ks ∨ v ∈ vs) (hfinished : Finished g vs.reverse finished)
    (n : Nat) : Finished g (vs.reverse ++ ks.take n)
      ((es.take n).foldl (fun finished e => finished ++ [conclude e finished]) finished) := by
  induction h generalizing finished n with
  | nil => simpa using hfinished
  | @cons k ks vs e es he _ ih =>
    cases n with
    | zero => simpa using hfinished
    | succ n =>
      have hk := language_conclude he hedge hfinished
      have hnext : Finished g (k :: vs).reverse (finished ++ [conclude e finished]) := by
        rw [List.reverse_cons]
        exact List.rel_append hfinished (.cons hk .nil)
      have := ih (fun u a v huv => by have := hedge u a v huv; grind) hnext n
      rw [List.reverse_cons, List.append_assoc] at this
      exact this

theorem Solved.finishAll (h : Solved g ks [] es) (hedge : ∀ u a v, g.edge u a v → v ∈ ks)
    (n : Nat) : Finished g (ks.take n) (finishAll (es.take n)) :=
  h.foldl_conclude (fun u a v huv => .inl (hedge u a v huv)) .nil n

end Elimination

end RegularLanguages
