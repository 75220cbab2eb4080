import RegularLanguages.Fault
import RegularLanguages.Scalar

/-!
# Character ranges

A `CharRange` holds the characters between two bounds, both included. `between` refuses bounds in
the wrong order; every other operation takes the bounds as they are.
-/

namespace RegularLanguages

structure CharRange where
  first : Char
  last : Char
  deriving DecidableEq, Inhabited

namespace CharRange

/-- The bounds are in order, so the range is not empty. -/
def Ordered (r : CharRange) : Prop := r.first ≤ r.last

instance (r : CharRange) : Decidable r.Ordered := inferInstanceAs (Decidable (r.first ≤ r.last))

def single (c : Char) : CharRange := ⟨c, c⟩

/-- The range from `a` to `b`. -/
def between (a b : Char) : Except Fault CharRange :=
  if a ≤ b then .ok ⟨a, b⟩ else .error (.reversedRange a b)

/-- Every character. -/
def full : CharRange := ⟨Scalar.first, Scalar.last⟩

def isSingle (r : CharRange) : Bool := r.first = r.last

def contains (r : CharRange) (c : Char) : Bool := r.first ≤ c && c ≤ r.last

/-- Whether `s` lies within `r`. -/
def covers (r s : CharRange) : Bool := r.first ≤ s.first && s.last ≤ r.last

/-- Whether some character is in both. -/
def overlaps (r s : CharRange) : Bool := r.first ≤ s.last && s.first ≤ r.last

/-- Order by first character, then by last. -/
def order (r s : CharRange) : Ordering :=
  if r.first < s.first then .lt
  else if s.first < r.first then .gt
  else if r.last < s.last then .lt
  else if s.last < r.last then .gt
  else .eq

/-- Whether no character lies between the end of `r` and the start of `s`, which does not start
before `r`. -/
def touches (r s : CharRange) : Bool :=
  match Scalar.next? r.last with
  | none => true
  | some c => s.first ≤ c

/-- The range from the start of `r` to the later of the two ends. -/
def join (r s : CharRange) : CharRange := ⟨r.first, if r.last ≤ s.last then s.last else r.last⟩

end CharRange

end RegularLanguages
