import RegularLanguages.Dfa.Completion
import RegularLanguages.Dfa.OfNfa
import RegularLanguages.Nfa.OfDfa
import RegularLanguages.Nfa.OfPattern
import RegularLanguages.Pattern.OfNfa
import RegularLanguages.Pattern.Parser

/-!
# Languages

A `RegularLanguage` holds a language in one or more of three forms: a pattern, a nondeterministic
and a deterministic machine. A form that is asked for and missing is derived from one that is there,
and kept. Each operation therefore returns its answer together with the language as it is
afterwards.
-/

namespace RegularLanguages

structure RegularLanguage where
  nfa : Option Nfa
  dfa : Option Dfa
  pattern : Option Pattern

namespace RegularLanguage

def ofPattern (p : Pattern) : RegularLanguage := ⟨none, none, some p⟩

def ofNfa (m : Nfa) : RegularLanguage := ⟨some m, none, none⟩

def ofDfa (d : Dfa) : RegularLanguage := ⟨none, some d, none⟩

def parse (source : List Char) : Except SyntaxError RegularLanguage :=
  return ofPattern (← Pattern.parse source)

/-- The nondeterministic machine, derived from the pattern if there is one. -/
def toNfa (l : RegularLanguage) : Logged (Nfa × RegularLanguage) := do
  match l.nfa, l.pattern, l.dfa with
  | some m, _, _ => return (m, l)
  | none, some p, _ => do
    let m ← Nfa.ofPattern p
    return (m, { l with nfa := some m })
  | none, none, some d => do
    let m ← d.toNfa
    return (m, { l with nfa := some m })
  | none, none, none => Logged.ofExcept (.error .noRepresentation)

/-- The deterministic machine, derived from the nondeterministic one. -/
def toDfa (l : RegularLanguage) : Logged (Dfa × RegularLanguage) := do
  match l.dfa with
  | some d => return (d, l)
  | none => do
    let (m, l) ← l.toNfa
    let d ← m.toDfa
    return (d, { l with dfa := some d })

/-- The pattern, derived from the nondeterministic machine. -/
def toPattern (l : RegularLanguage) : Logged (Pattern × RegularLanguage) := do
  match l.pattern with
  | some p => return (p, l)
  | none => do
    let (m, l) ← l.toNfa
    let p ← m.toPattern
    return (p, { l with pattern := some p })

/-- Whether the whole text is in the language. The deterministic machine decides if it is there; it
is not derived for this. -/
def accepts? (l : RegularLanguage) (w : List Char) : Logged (Bool × RegularLanguage) := do
  match l.dfa with
  | some d => return (← d.accepts? w, l)
  | none => do
    let (m, l) ← l.toNfa
    return (← m.accepts? w, l)

/-- The language of all other texts, and the language itself with its deterministic machine. -/
def complement (l : RegularLanguage) : Logged (RegularLanguage × RegularLanguage) := do
  let (d, l) ← l.toDfa
  return (ofDfa (← d.complement), l)

def hasNfa (l : RegularLanguage) : Bool := l.nfa.isSome

def hasDfa (l : RegularLanguage) : Bool := l.dfa.isSome

def hasPattern (l : RegularLanguage) : Bool := l.pattern.isSome

/-- A language with the same forms; a deterministic machine is copied. -/
def copy (l : RegularLanguage) : Logged RegularLanguage := do
  match l.dfa with
  | some d => return { l with dfa := some (← d.copy) }
  | none => return l

end RegularLanguage

end RegularLanguages
