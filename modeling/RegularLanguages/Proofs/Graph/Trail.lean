import RegularLanguages.Proofs.Graph.Route

/-!
# Trails

A trail is a walk with its steps written down, so that one can say which vertices it comes by. The
routes through a set of vertices are the trails that come by no others.
-/

namespace RegularLanguages.Graph

/-- What a step reads and where it leads. -/
abbrev Step := Option Char × Nat

/-- What the steps read. -/
def text (steps : List Step) : List Char := steps.flatMap (·.1.toList)

/-- Where the steps have led from `u`. -/
def arrival (u : Nat) : List Step → Nat
  | [] => u
  | (_, v) :: steps => arrival v steps

/-- The steps go along edges, the first one from `u`. -/
def Trail (g : Graph) : Nat → List Step → Prop
  | _, [] => True
  | u, (a, v) :: steps => g.edge u a v ∧ g.Trail v steps

/-- The text is read on a trail of one step or more from `u` to `v` with only vertices of `E`
between its ends. -/
def Joins (g : Graph) (E : Nat → Prop) (u v : Nat) (w : List Char) : Prop :=
  ∃ steps, g.Trail u steps ∧ steps ≠ [] ∧ arrival u steps = v ∧
    (∀ step ∈ steps.dropLast, E step.2) ∧ text steps = w

/-- The text is read on a trail from `u` to an accepting vertex on which all vertices after the
first are in `E`. -/
def Concludes (g : Graph) (E : Nat → Prop) (u : Nat) (w : List Char) : Prop :=
  ∃ steps, g.Trail u steps ∧ g.accept (arrival u steps) ∧ (∀ step ∈ steps, E step.2) ∧
    text steps = w

variable {g : Graph} {E : Nat → Prop} {u v : Nat} {w : List Char}

theorem mem_through_iff : w ∈ g.through E u v ↔ g.Joins E u v w := by
  constructor
  · intro hw
    induction hw with
    | @last u w hw =>
      obtain ⟨a, he, rfl⟩ := hw
      exact ⟨[(a, v)], ⟨he, trivial⟩, List.cons_ne_nil _ _, rfl, by simp, by simp [text]⟩
    | @step u t a w he ht _ ih =>
      obtain ⟨steps, htrail, hne, harrival, hsteps, rfl⟩ := ih
      refine ⟨(a, t) :: steps, ⟨he, htrail⟩, List.cons_ne_nil _ _, harrival, ?_, rfl⟩
      rw [List.dropLast_cons_of_ne_nil hne]
      exact List.forall_mem_cons.2 ⟨ht, hsteps⟩
  · rintro ⟨steps, htrail, hne, harrival, hsteps, rfl⟩
    induction steps generalizing u with
    | nil => exact absurd rfl hne
    | cons step rest ih =>
      obtain ⟨a, t⟩ := step
      obtain ⟨he, htrail⟩ := htrail
      cases rest with
      | nil =>
        cases harrival
        exact Route.last ⟨a, he, List.append_nil _⟩
      | cons next rest =>
        rw [List.dropLast_cons_cons] at hsteps
        obtain ⟨ht, hsteps⟩ := List.forall_mem_cons.1 hsteps
        exact Route.step he ht (ih htrail (List.cons_ne_nil _ _) harrival hsteps)

theorem mem_routes_ends_iff_concludes : w ∈ g.routes E g.ends u ↔ g.Concludes E u w := by
  constructor
  · intro hw
    induction hw with
    | last hw =>
      obtain ⟨haccept, rfl⟩ := hw
      exact ⟨[], trivial, haccept, by simp, rfl⟩
    | @step u v a w he hv _ ih =>
      obtain ⟨steps, htrail, haccept, hsteps, rfl⟩ := ih
      exact ⟨(a, v) :: steps, ⟨he, htrail⟩, haccept, List.forall_mem_cons.2 ⟨hv, hsteps⟩, rfl⟩
  · rintro ⟨steps, htrail, haccept, hsteps, rfl⟩
    induction steps generalizing u with
    | nil => exact Route.last ⟨haccept, rfl⟩
    | cons step rest ih =>
      obtain ⟨hv, hsteps⟩ := List.forall_mem_cons.1 hsteps
      exact Route.step htrail.1 hv (ih htrail.2 haccept hsteps)

end RegularLanguages.Graph
