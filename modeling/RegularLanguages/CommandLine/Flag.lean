/-!
# Flags and commands

The flags of the program, the names of its commands, and which flags and how many values may stand
after each of these names. The program only declares them, and a general parser of arguments does
the rest: `Word` and `Request` stand for that parser.
-/

namespace RegularLanguages.CommandLine

inductive Flag where
  /-- Log in more detail; each use counts. -/
  | verbose
  | version
  | help
  /-- Match with the deterministic machine. -/
  | dfa
  /-- Complete the deterministic machine. -/
  | complete
  deriving DecidableEq

namespace Flag

def letter : Flag → Char
  | verbose => 'v'
  | version => 'V'
  | help => 'h'
  | dfa => 'd'
  | complete => 'c'

def name : Flag → String
  | verbose => "verbose"
  | version => "version"
  | help => "help"
  | dfa => "dfa"
  | complete => "complete"

/-- The flag as messages show it, with dots if it may be repeated. -/
def shown : Flag → String
  | verbose => "--verbose..."
  | f => "--" ++ f.name

end Flag

inductive CommandName where
  | check
  | nfa
  | dfa
  | regex
  | complement
  | tree
  deriving DecidableEq

namespace CommandName

def ofString? : String → Option CommandName
  | "match" => some check
  | "nfa" => some nfa
  | "dfa" => some dfa
  | "regex" => some regex
  | "complement" => some complement
  | "tree" => some tree
  | _ => none

/-- The flags that may stand after the command. -/
def flags : CommandName → List Flag
  | check => [.verbose, .help, .dfa]
  | dfa => [.verbose, .help, .complete]
  | _ => [.verbose, .help]

/-- How many values the command takes at most. -/
def maxValues : CommandName → Nat
  | check => 2
  | complement => 2
  | _ => 1

end CommandName

/-- The flags that may stand before the command. -/
def leadingFlags : List Flag := [.verbose, .help, .version]

end RegularLanguages.CommandLine
