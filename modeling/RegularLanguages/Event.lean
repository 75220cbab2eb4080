import RegularLanguages.Pattern.Printer

/-!
# Events worth logging

An `Event` is one thing that happened inside an operation, kept as data. Its level, its target and
its message are what a log line shows.
-/

namespace RegularLanguages

/-- How much detail an event is, least first. -/
inductive Level where
  | info
  | debug
  | trace
  deriving DecidableEq

namespace Level

def rank : Level → Nat
  | info => 0
  | debug => 1
  | trace => 2

/-- Whether a log at level `limit` shows events at level `l`. -/
def shows (limit l : Level) : Bool := l.rank ≤ limit.rank

def name : Level → String
  | info => "INFO"
  | debug => "DEBUG"
  | trace => "TRACE"

end Level

inductive Event where
  /-- An alphabet was refined so as to express `on`. -/
  | refined (on : CharClass) (before after : Nat)
  /-- A pattern was turned into a machine. -/
  | assembled (states symbols : Nat)
  /-- The determinisation follows the edges of a subset. -/
  | visiting (subset : List Nat) (state : Nat)
  | determinized (nfaStates dfaStates symbols : Nat)
  | embedded (states symbols : Nat)
  | eliminated (states : Nat) (result : Pattern)
  /-- A text is about to be matched with a deterministic machine. -/
  | matchingDfa (states : Nat)
  /-- A text is about to be matched with a nondeterministic machine. -/
  | matchingNfa (states : Nat)

namespace Event

def level : Event → Level
  | refined .. | visiting .. => .trace
  | assembled .. | determinized .. | embedded .. | eliminated .. => .debug
  | matchingDfa .. | matchingNfa .. => .info

/-- The part of the program that logs the event. -/
def target : Event → String
  | refined .. => "relang::alphabet"
  | assembled .. => "relang::convert::thompson"
  | visiting .. | determinized .. => "relang::convert::subset"
  | embedded .. => "relang::convert::embed"
  | eliminated .. => "relang::convert::elimination"
  | matchingDfa .. | matchingNfa .. => "relang"

/-- A set of states in braces. -/
def subsetText (ids : List Nat) : String :=
  "\x7b" ++ ", ".intercalate (ids.map toString) ++ "\x7d"

def message : Event → String
  | refined on before after =>
    "alphabet refined for " ++ String.ofList on.label ++ s!": {before} -> {after} symbols"
  | assembled states symbols => s!"thompson construction: {states} states, {symbols} symbols"
  | visiting subset state =>
    "subset construction: visiting " ++ subsetText subset ++ s!" as DFA state {state}"
  | determinized nfaStates dfaStates symbols =>
    s!"subset construction: {nfaStates} NFA states -> {dfaStates} DFA states, {symbols} symbols"
  | embedded states symbols => s!"dfa embedding: {states} states, {symbols} symbols"
  | eliminated states result =>
    s!"state elimination: {states} states -> " ++ String.ofList result.text
  | matchingDfa states => s!"matching with a DFA of {states} states"
  | matchingNfa states => s!"matching with an NFA of {states} states"

end Event

end RegularLanguages
