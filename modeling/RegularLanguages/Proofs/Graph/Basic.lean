import Mathlib.Computability.Language
import Mathlib.Order.CompletePartialOrder
import RegularLanguages.Nfa.Basic

/-!
# Labelled graphs

A `Graph` is what a nondeterministic machine is about: numbered vertices, some of them starts, some
accepting, and edges that read one character or, with the label `none`, nothing. It has no alphabet.
The operations are those of the machine, said edge by edge. `Path` is a walk along edges with the
text that it reads, and `language` holds the texts of the walks from a start to an accepting vertex.
-/

namespace RegularLanguages

/-- Whether an edge added with this label has an edge that reads `a`. -/
def Label.Reads : Label → Option Char → Prop
  | .epsilon, a => a = none
  | .chars k, a => ∃ c ∈ k, a = some c

@[ext]
structure Graph where
  /-- The number of the next vertex. -/
  next : Nat
  vertex : Nat → Prop
  start : Nat → Prop
  accept : Nat → Prop
  /-- Whether an edge leads from the first to the second vertex and reads the label. -/
  edge : Nat → Option Char → Nat → Prop

namespace Graph

theorem eq_of_iff {g h : Graph} (hnext : g.next = h.next) (hvertex : ∀ u, g.vertex u ↔ h.vertex u)
    (hstart : ∀ u, g.start u ↔ h.start u) (haccept : ∀ u, g.accept u ↔ h.accept u)
    (hedge : ∀ u a v, g.edge u a v ↔ h.edge u a v) : g = h :=
  Graph.ext hnext (funext fun u => propext (hvertex u)) (funext fun u => propext (hstart u))
    (funext fun u => propext (haccept u))
    (funext fun u => funext fun a => funext fun v => propext (hedge u a v))

/-! ## Changes -/

def empty : Graph := ⟨0, fun _ => False, fun _ => False, fun _ => False, fun _ _ _ => False⟩

def addVertex (g : Graph) : Graph :=
  { g with next := g.next + 1, vertex := fun v => v = g.next ∨ g.vertex v }

/-- Adds an edge for everything that the label reads. -/
def addEdges (g : Graph) (source : Nat) (label : Label) (target : Nat) : Graph :=
  { g with edge := fun u a v => (u = source ∧ label.Reads a ∧ v = target) ∨ g.edge u a v }

def setStart (g : Graph) (id : Nat) (value : Bool) : Graph :=
  { g with start := fun v => if v = id then value = true else g.start v }

def setAccept (g : Graph) (id : Nat) (value : Bool) : Graph :=
  { g with accept := fun v => if v = id then value = true else g.accept v }

/-- Removes a vertex and every edge that touches it. -/
def delete (g : Graph) (id : Nat) : Graph where
  next := g.next
  vertex v := v ≠ id ∧ g.vertex v
  start v := v ≠ id ∧ g.start v
  accept v := v ≠ id ∧ g.accept v
  edge u a v := u ≠ id ∧ v ≠ id ∧ g.edge u a v

theorem delete_eq_self {g : Graph} {id : Nat} (hstart : ¬g.start id) (haccept : ¬g.accept id)
    (hvertex : ¬g.vertex id) (hedge : ∀ u a v, g.edge u a v → u ≠ id ∧ v ≠ id) :
    g.delete id = g := by
  have hne {P : Nat → Prop} (hP : ¬P id) (u : Nat) : u ≠ id ∧ P u ↔ P u :=
    and_iff_right_of_imp fun hu heq => hP (heq ▸ hu)
  refine eq_of_iff rfl (hne hvertex) (hne hstart) (hne haccept) fun u a v => ?_
  exact ⟨fun h => h.2.2, fun h => ⟨(hedge u a v h).1, (hedge u a v h).2, h⟩⟩

/-! ## Walks -/

/-- A walk between two vertices and the text that it reads. -/
inductive Path (g : Graph) : Nat → List Char → Nat → Prop where
  | nil (u : Nat) : Path g u [] u
  | step {u v t : Nat} {a : Option Char} {w : List Char} :
      g.edge u a v → Path g v w t → Path g u (a.toList ++ w) t

/-- The texts of the walks from a start to an accepting vertex. -/
def language (g : Graph) : Language Char :=
  {w | ∃ u v, g.start u ∧ g.accept v ∧ g.Path u w v}

theorem mem_language {g : Graph} {w : List Char} :
    w ∈ g.language ↔ ∃ u v, g.start u ∧ g.accept v ∧ g.Path u w v := Iff.rfl

variable {g h : Graph} {u v t : Nat} {x y w : List Char}

theorem Path.single {a : Option Char} (he : g.edge u a v) : g.Path u a.toList v := by
  simpa using Path.step he (.nil v)

theorem Path.trans (h1 : g.Path u x v) (h2 : g.Path v y t) : g.Path u (x ++ y) t := by
  induction h1 with
  | nil => exact h2
  | step he _ ih => rw [List.append_assoc]; exact .step he (ih h2)

theorem Path.mono (hgh : ∀ u a v, g.edge u a v → h.edge u a v) (hp : g.Path u w v) :
    h.Path u w v := by
  induction hp with
  | nil => exact .nil _
  | step he _ ih => exact .step (hgh _ _ _ he) ih

/-- A walk that starts where every edge stays stays. -/
theorem Path.induction_on_closed {R : Nat → Prop} (hR : ∀ u a v, R u → g.edge u a v → R v)
    (hp : g.Path u w v) (hu : R u) : R v := by
  induction hp with
  | nil => exact hu
  | step he _ ih => exact ih (hR _ _ _ hu he)

/-- A walk is a way along edges, whatever they read. -/
theorem exists_path_iff :
    (∃ w, g.Path u w v) ↔ Relation.ReflTransGen (fun u v => ∃ a, g.edge u a v) u v := by
  constructor
  · rintro ⟨w, hp⟩
    induction hp with
    | nil => exact .refl
    | step he _ ih => exact .head ⟨_, he⟩ ih
  · intro h
    induction h using Relation.ReflTransGen.head_induction_on with
    | refl => exact ⟨[], .nil v⟩
    | head he _ ih =>
      obtain ⟨a, he⟩ := he
      obtain ⟨w, hp⟩ := ih
      exact ⟨a.toList ++ w, .step he hp⟩

/-! ## Walks that read nothing -/

/-- `v` is reached from `u` along edges that read nothing. -/
abbrev EpsilonReach (g : Graph) : Nat → Nat → Prop :=
  Relation.ReflTransGen fun u v => g.edge u none v

theorem EpsilonReach.path_append (h1 : g.EpsilonReach u v) (h2 : g.Path v w t) : g.Path u w t := by
  induction h1 using Relation.ReflTransGen.head_induction_on with
  | refl => exact h2
  | head he _ ih => exact .step he ih

theorem path_nil_iff : g.Path u [] v ↔ g.EpsilonReach u v := by
  refine ⟨fun hp => ?_, fun hr => hr.path_append (.nil v)⟩
  generalize hw : ([] : List Char) = w at hp
  induction hp with
  | nil => exact .refl
  | @step u v t a w he _ ih =>
    obtain ⟨ha, rfl⟩ := List.append_eq_nil_iff.1 hw.symm
    rw [Option.toList_eq_nil_iff] at ha
    subst ha
    exact .head he (ih rfl)

theorem path_cons_iff {c : Char} :
    g.Path u (c :: w) v ↔ ∃ s t, g.EpsilonReach u s ∧ g.edge s (some c) t ∧ g.Path t w v := by
  constructor
  · intro hp
    generalize hcw : c :: w = x at hp
    induction hp with
    | nil => cases hcw
    | @step u s t a x he hp ih =>
      cases a with
      | none =>
        obtain ⟨s', t', hs, ht⟩ := ih hcw
        exact ⟨s', t', .head he hs, ht⟩
      | some d =>
        cases hcw
        exact ⟨u, s, .refl, he, hp⟩
  · rintro ⟨s, t, hs, he, hp⟩
    exact hs.path_append (.step he hp)

end Graph

end RegularLanguages
