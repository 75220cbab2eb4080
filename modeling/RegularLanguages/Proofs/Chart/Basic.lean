import Mathlib.Data.Nat.Notation
import RegularLanguages.CharClass.Basic

/-!
# Charts

A `Chart` is what a deterministic machine is about: for each of its states and each character where
the character leads, if anywhere. It has no alphabet. The operations are those of the machine; an
edge that is added takes the place of those before it on the same characters.
-/

namespace RegularLanguages

@[ext]
structure Chart where
  size : Nat
  start : Nat → Prop
  accept : Nat → Prop
  /-- Where a state leads on a character. -/
  move : Nat → Char → Option Nat

namespace Chart

theorem eq_of_iff {g h : Chart} (hsize : g.size = h.size) (hstart : ∀ q, g.start q ↔ h.start q)
    (haccept : ∀ q, g.accept q ↔ h.accept q) (hmove : ∀ q c, g.move q c = h.move q c) : g = h :=
  Chart.ext hsize (funext fun q => propext (hstart q)) (funext fun q => propext (haccept q))
    (funext fun q => funext fun c => hmove q c)

/-! ## Changes -/

def initial : Chart := ⟨1, fun q => q = 0, fun _ => False, fun _ _ => none⟩

def addState (g : Chart) : Chart := { g with size := g.size + 1 }

def setAccept (g : Chart) (id : Nat) (value : Bool) : Chart :=
  { g with accept := fun q => if q = id then value = true else g.accept q }

def addEdges (g : Chart) (source : Nat) (k : CharClass) (target : Nat) : Chart :=
  { g with move := fun q c => if q = source ∧ c ∈ k then some target else g.move q c }

theorem move_addEdges (g : Chart) (source : Nat) (k : CharClass) (target q : Nat) (c : Char) :
    (g.addEdges source k target).move q c =
      if q = source ∧ c ∈ k then some target else g.move q c := rfl

/-! ## Runs -/

/-- Where a text leads from a state. -/
def walk (g : Chart) : Nat → List Char → Option Nat
  | q, [] => some q
  | q, c :: rest => (g.move q c).bind fun t => g.walk t rest

variable {g h : Chart} {q t : Nat} {c : Char}

theorem walk_append (g : Chart) (q : Nat) (v w : List Char) :
    g.walk q (v ++ w) = (g.walk q v).bind fun t => g.walk t w := by
  induction v generalizing q with
  | nil => rfl
  | cons c rest ih =>
    rw [List.cons_append, walk, walk, Option.bind_assoc]
    exact Option.bind_congr fun t _ => ih t

theorem walk_congr (hgh : ∀ q c, g.move q c = h.move q c) (q : Nat) (w : List Char) :
    g.walk q w = h.walk q w := by
  induction w generalizing q with
  | nil => rfl
  | cons c rest ih =>
    rw [walk, walk, hgh]
    exact Option.bind_congr fun t _ => ih t

theorem walk_setAccept (g : Chart) (id : Nat) (value : Bool) (q : Nat) (w : List Char) :
    (g.setAccept id value).walk q w = g.walk q w :=
  walk_congr (g := g.setAccept id value) (h := g) (fun _ _ => rfl) q w

/-- A walk is found again where no edge is lost. -/
theorem walk_mono (hgh : ∀ q c t, g.move q c = some t → h.move q c = some t) {w : List Char}
    (hw : g.walk q w = some t) : h.walk q w = some t := by
  induction w generalizing q with
  | nil => exact hw
  | cons c rest ih =>
    obtain ⟨s, hs, hrest⟩ := Option.bind_eq_some_iff.1 hw
    rw [walk, hgh q c s hs]
    exact ih hrest

end Chart

end RegularLanguages
