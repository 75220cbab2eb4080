import RegularLanguages.Proofs.Graph.Basic

/-!
# Routes through some of the vertices

A route from a vertex goes along edges to vertices of a set `E` and ends with a text that `last` has
for where it has come. With `reads · v` for `last` these are the walks to `v` through vertices of
`E`, and with `ends` the walks to an accepting vertex on which all vertices after the first are in
`E`. `routes_insert` is the step of elimination: a route through one more vertex goes there, comes
back to it any number of times, and goes on. `routes_eq_add_sum` divides a route where it first
leaves `E`.
-/

open Computability

namespace RegularLanguages.Graph

/-- The texts of the edges between two vertices. -/
def reads (g : Graph) (u v : Nat) : Language Char := {w | ∃ a, g.edge u a v ∧ w = a.toList}

/-- The empty text, at an accepting vertex. -/
def ends (g : Graph) (u : Nat) : Language Char := {w | g.accept u ∧ w = []}

inductive Route (g : Graph) (E : Nat → Prop) (last : Nat → Language Char) :
    Nat → List Char → Prop where
  | last {u : Nat} {w : List Char} : w ∈ last u → Route g E last u w
  | step {u v : Nat} {a : Option Char} {w : List Char} :
      g.edge u a v → E v → Route g E last v w → Route g E last u (a.toList ++ w)

/-- The texts of the routes from a vertex. -/
def routes (g : Graph) (E : Nat → Prop) (last : Nat → Language Char) (u : Nat) : Language Char :=
  {w | g.Route E last u w}

/-- The texts of the walks of one edge or more with only vertices of `E` between their ends. -/
def through (g : Graph) (E : Nat → Prop) (u v : Nat) : Language Char := g.routes E (g.reads · v) u

variable {g : Graph} {E E' : Nat → Prop} {last : Nat → Language Char} {u v k : Nat}

/-! ## Routes as a least solution -/

theorem last_le_routes : last u ≤ g.routes E last u := fun _ hw => .last hw

theorem reads_mul_routes_le (hv : E v) : g.reads u v * g.routes E last v ≤ g.routes E last u := by
  rintro _ ⟨_, ⟨a, he, rfl⟩, w, hw, rfl⟩
  exact Route.step he hv hw

theorem routes_le {X : Nat → Language Char} (hlast : ∀ u, last u ≤ X u)
    (hstep : ∀ u v, E v → g.reads u v * X v ≤ X u) : g.routes E last u ≤ X u := by
  intro w hw
  induction hw with
  | last hw => exact hlast _ hw
  | step he hv _ ih => exact hstep _ _ hv (Language.append_mem_mul ⟨_, he, rfl⟩ ih)

theorem routes_mono (hE : ∀ v, E v → E' v) : g.routes E last u ≤ g.routes E' last u :=
  routes_le (fun _ => last_le_routes) fun _ v hv => reads_mul_routes_le (hE v hv)

theorem routes_of_not (hE : ∀ v, ¬E v) : g.routes E last u = last u :=
  le_antisymm (routes_le (fun _ => le_rfl) fun _ v hv => absurd hv (hE v)) last_le_routes

theorem reads_le_through : g.reads u v ≤ g.through E u v := fun _ hw => Route.last hw

theorem reads_mul_through_le (hv : E v) : g.reads u v * g.through E v k ≤ g.through E u k :=
  reads_mul_routes_le hv

theorem through_mul_routes_le (hv : E v) :
    g.through E u v * g.routes E last v ≤ g.routes E last u := by
  rintro _ ⟨x, hx, y, hy, rfl⟩
  induction hx with
  | last hx => exact reads_mul_routes_le hv (Language.append_mem_mul hx hy)
  | step he ht _ ih =>
    show _ ++ y ∈ _
    rw [List.append_assoc]
    exact Route.step he ht ih

/-! ## One more vertex -/

theorem add_mul_kstar_mul (a b : Language Char) : b + a * (a∗ * b) = a∗ * b := by
  rw [← mul_assoc, ← one_add_mul, one_add_mul_kstar]

theorem routes_insert (hE' : ∀ v, E' v ↔ v = k ∨ E v) (u : Nat) :
    g.routes E' last u =
      g.routes E last u + g.through E u k * ((g.through E k k)∗ * g.routes E last k) := by
  have hE : ∀ v, E v → E' v := fun v hv => (hE' v).2 (.inr hv)
  have hk : E' k := (hE' k).2 (.inl rfl)
  refine le_antisymm ?_ (add_le (routes_mono hE) ?_)
  · refine routes_le (X := fun u => g.routes E last u +
      g.through E u k * ((g.through E k k)∗ * g.routes E last k)) (fun u => ?_) fun u v hv => ?_
    · exact last_le_routes.trans le_self_add
    · rcases (hE' v).1 hv with rfl | hv
      · rw [add_mul_kstar_mul]
        exact (mul_le_mul_left reads_le_through _).trans le_add_self
      · rw [mul_add, ← mul_assoc]
        exact add_le_add (reads_mul_routes_le hv) (mul_le_mul_left (reads_mul_through_le hv) _)
  · calc g.through E u k * ((g.through E k k)∗ * g.routes E last k)
      _ ≤ g.through E u k * g.routes E' last k := by
        refine mul_le_mul_right (kstar_mul_le (routes_mono hE) ?_) _
        exact (mul_le_mul_left (routes_mono hE) _).trans (through_mul_routes_le hk)
      _ ≤ g.through E' u k * g.routes E' last k := mul_le_mul_left (routes_mono hE) _
      _ ≤ g.routes E' last u := through_mul_routes_le hk

/-- From the new vertex a route comes back any number of times before it goes on. -/
theorem routes_insert_self (hE' : ∀ v, E' v ↔ v = k ∨ E v) :
    g.routes E' last k = (g.through E k k)∗ * g.routes E last k := by
  rw [routes_insert hE', add_mul_kstar_mul]

theorem routes_insert_via (hE' : ∀ v, E' v ↔ v = k ∨ E v) (u : Nat) :
    g.routes E' last u = g.routes E last u + g.through E u k * g.routes E' last k := by
  rw [routes_insert hE', routes_insert_self hE']

/-! ## Where a route leaves the set -/

/-- A route stays in `E` or goes through it to one of the vertices outside. -/
theorem mem_routes_iff {vs : List Nat} (hedge : ∀ u a v, g.edge u a v → E v ∨ v ∈ vs)
    {w : List Char} : w ∈ g.routes (fun _ => True) last u ↔ w ∈ g.routes E last u ∨
      ∃ v ∈ vs, w ∈ g.through E u v * g.routes (fun _ => True) last v := by
  have hE : ∀ v, E v → True := fun _ _ => trivial
  constructor
  · intro hw
    induction hw with
    | last hw => exact .inl (last_le_routes hw)
    | @step u v a w he _ hw ih =>
      by_cases hv : E v
      · rcases ih with hin | ⟨t, ht, x, hx, y, hy, rfl⟩
        · exact .inl (Route.step he hv hin)
        · refine .inr ⟨t, ht, a.toList ++ x, Route.step he hv hx, y, hy, ?_⟩
          exact List.append_assoc ..
      · exact .inr ⟨v, (hedge u a v he).resolve_left hv,
          Language.append_mem_mul (reads_le_through ⟨a, he, rfl⟩) hw⟩
  · rintro (hw | ⟨v, -, hw⟩)
    · exact routes_mono hE hw
    · exact through_mul_routes_le trivial (mul_le_mul_left (routes_mono hE) _ hw)

/-- The routes through all vertices are the walks. -/
theorem mem_routes_ends_iff {w : List Char} :
    w ∈ g.routes (fun _ => True) g.ends u ↔ ∃ v, g.accept v ∧ g.Path u w v := by
  constructor
  · intro hw
    induction hw with
    | last hw =>
      obtain ⟨hv, rfl⟩ := hw
      exact ⟨_, hv, .nil _⟩
    | step he _ _ ih =>
      obtain ⟨v, hv, hp⟩ := ih
      exact ⟨v, hv, .step he hp⟩
  · rintro ⟨v, hv, hp⟩
    induction hp with
    | nil => exact Route.last ⟨hv, rfl⟩
    | step he _ ih => exact Route.step he trivial (ih hv)

end RegularLanguages.Graph
