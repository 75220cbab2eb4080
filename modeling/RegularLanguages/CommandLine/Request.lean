import RegularLanguages.CommandLine.Flag
import RegularLanguages.CommandLine.Visible
import RegularLanguages.CommandLine.Word

/-!
# Requests on the command line

The arguments are flags, the name of a command, and the flags and values of that command. Words are
read from left to right, and the first one that does not fit decides the error. After a lone double
dash every word is a value. `Request.ofArguments` gives what is asked for.

This stands for the parser of arguments that the program relies on, as far as its documented
behaviour shows in what a run prints first and in its exit code. No theorem rests on it: what is
shown of the commands holds of every `Command`, whatever words it was read from.
-/

namespace RegularLanguages.CommandLine

inductive ArgumentError where
  | unexpectedArgument (word : String)
  /-- A value attached to a flag that takes none. -/
  | unexpectedValue (value : String) (flag : Flag)
  /-- A flag that may be used only once. -/
  | repeated (flag : Flag)
  | missingArguments
  | unrecognizedCommand (word : String)
  | missingCommand
  deriving DecidableEq

/-- The visible part of a word, in quotes. -/
def quotedWord (word : String) : String := "'" ++ String.ofList (visible word.toList) ++ "'"

def ArgumentError.message : ArgumentError → String
  | unexpectedArgument word => "unexpected argument " ++ quotedWord word ++ " found"
  | unexpectedValue value flag =>
    "unexpected value " ++ quotedWord value ++ " for '" ++ flag.shown ++
      "' found; no more were expected"
  | repeated flag => "the argument '" ++ flag.shown ++ "' cannot be used multiple times"
  | missingArguments => "the following required arguments were not provided:"
  | unrecognizedCommand word => "unrecognized subcommand " ++ quotedWord word
  | missingCommand => "'relang' requires a subcommand but one was not provided"

/-! ## Reading flags -/

/-- Why reading ends early. -/
inductive Stop where
  | error (e : ArgumentError)
  | version
  | help
  deriving DecidableEq

/-- Adds a flag to those read before. -/
def addFlag (read : List Flag) (flag : Flag) : Except Stop (List Flag) :=
  match flag with
  | .version => .error .version
  | .help => .error .help
  | .verbose => .ok (.verbose :: read)
  | flag => if flag ∈ read then .error (.error (.repeated flag)) else .ok (flag :: read)

def readLong (allowed read : List Flag) (name : String) (value : Option String) :
    Except Stop (List Flag) :=
  match allowed.find? (·.name = name), value with
  | none, _ => .error (.error (.unexpectedArgument ("--" ++ name)))
  | some flag, some value => .error (.error (.unexpectedValue value flag))
  | some flag, none => addFlag read flag

def readShort (allowed read : List Flag) (letter : Char) : Except Stop (List Flag) :=
  match allowed.find? (·.letter = letter) with
  | none => .error (.error (.unexpectedArgument (String.ofList ['-', letter])))
  | some flag => addFlag read flag

/-! ## Reading a command -/

/-- What was read after the name of a command. -/
structure Operands where
  flags : List Flag
  values : List String

def Operands.addValue (o : Operands) (command : CommandName) (value : String) :
    Except Stop Operands :=
  if o.values.length < command.maxValues then .ok ⟨o.flags, o.values ++ [value]⟩
  else .error (.error (.unexpectedArgument value))

/-- Reads the words after the name of a command. -/
def readOperands (command : CommandName) (o : Operands) : List String → Except Stop Operands
  | [] => .ok o
  | word :: rest =>
    match Word.ofString word with
    | .terminator => rest.foldlM (·.addValue command) o
    | .long name value => do
      readOperands command ⟨← readLong command.flags o.flags name value, o.values⟩ rest
    | .short letters => do
      readOperands command ⟨← letters.foldlM (readShort command.flags) o.flags, o.values⟩ rest
    | .value value => do readOperands command (← o.addValue command value) rest

/-- A command with its values. -/
inductive Command where
  /-- Whether `input` is in the language of `pattern`. -/
  | check (pattern input : List Char) (withDfa : Bool)
  | nfa (pattern : List Char)
  | dfa (pattern : List Char) (complete : Bool)
  | regex (pattern : List Char)
  /-- The pattern of all other texts, and whether `input` is one. -/
  | complement (pattern : List Char) (input : Option (List Char))
  | tree (pattern : List Char)

def Command.ofOperands (name : CommandName) (o : Operands) : Except Stop Command :=
  match name, o.values.map String.toList with
  | .check, [pattern, input] => .ok (.check pattern input (.dfa ∈ o.flags))
  | .nfa, [pattern] => .ok (.nfa pattern)
  | .dfa, [pattern] => .ok (.dfa pattern (.complete ∈ o.flags))
  | .regex, [pattern] => .ok (.regex pattern)
  | .complement, [pattern] => .ok (.complement pattern none)
  | .complement, [pattern, input] => .ok (.complement pattern (some input))
  | .tree, [pattern] => .ok (.tree pattern)
  | _, _ => .error (.error .missingArguments)

/-! ## Requests -/

/-- What the arguments ask for. -/
inductive Request where
  | execute (command : Command) (verbosity : Nat)
  | version
  | help
  /-- There are no arguments at all. -/
  | nothing

/-- Reads a command; flags for detail count where they stand, and those after the command's name
win over those before it. -/
def readCommand (leading : List Flag) (name : CommandName) (words : List String) :
    Except Stop Request := do
  let o ← readOperands name ⟨[], []⟩ words
  let command ← Command.ofOperands name o
  let verbosity := o.flags.count .verbose
  return .execute command (if verbosity = 0 then leading.count .verbose else verbosity)

/-- Whether help can be had on `word`: on every command, and on help itself. -/
def isTopic (word : String) : Bool := (CommandName.ofString? word).isSome || word = "help"

/-- Reads a word that stands where the name of a command is expected but must be a value. -/
def misplacedCommand (word : String) : ArgumentError :=
  if isTopic word then .unexpectedArgument word else .unrecognizedCommand word

/-- Reads the words after a call for help: a topic and nothing else, or nothing at all. No word is a
flag here. -/
def readHelp : List String → Stop
  | [] => .help
  | topic :: rest =>
    if isTopic topic then
      match rest with
      | [] => .help
      | word :: _ => .error (.unrecognizedCommand word)
    else .error (.unrecognizedCommand topic)

/-- Reads all words. -/
def readRequest (leading : List Flag) : List String → Except Stop Request
  | [] => if leading.isEmpty then .ok .nothing else .error (.error .missingCommand)
  | word :: rest =>
    match Word.ofString word with
    | .terminator =>
      match rest with
      | [] => readRequest leading []
      | word :: _ => .error (.error (misplacedCommand word))
    | .long name value => do readRequest (← readLong leadingFlags leading name value) rest
    | .short letters => do readRequest (← letters.foldlM (readShort leadingFlags) leading) rest
    | .value "help" => .error (readHelp rest)
    | .value value =>
      match CommandName.ofString? value with
      | some name => readCommand leading name rest
      | none => .error (.error (.unrecognizedCommand value))

def Request.ofArguments (args : List String) : Except ArgumentError Request :=
  match readRequest [] args with
  | .ok request => .ok request
  | .error (.error e) => .error e
  | .error .version => .ok .version
  | .error .help => .ok .help

end RegularLanguages.CommandLine
