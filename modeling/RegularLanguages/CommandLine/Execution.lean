import RegularLanguages.CommandLine.Request
import RegularLanguages.Dfa.Printer
import RegularLanguages.RegularLanguage
import RegularLanguages.Nfa.Printer

/-!
# Commands

Each command starts from a pattern. If the pattern has an error, all commands report it in the same
way; otherwise each one derives the forms that it needs and prints what it was asked for. Code 0
stands for success and for a text that matches, code 1 for a text that does not, code 2 for an error
in the pattern or in the arguments.

What surrounds the commands is kept as far as a run shows it: `logText` stands for the logger behind
the events, and `usageText` for the help that the parser of arguments lays out.
-/

namespace RegularLanguages.CommandLine

/-- How a run of the program ends, and what it printed. -/
structure Outcome where
  code : Nat
  stdout : String
  stderr : String
  deriving DecidableEq

namespace Outcome

def success (stdout : String) : Outcome := ⟨0, stdout, ""⟩

/-- Tells after other output whether a text matches. -/
def verdict (printed : String) (accepted : Bool) : Outcome :=
  if accepted then ⟨0, printed ++ "true\n", ""⟩ else ⟨1, printed ++ "false\n", ""⟩

/-- The message of an error in a pattern, and the pattern with marks under the characters at
fault, at least one. -/
def ofSyntaxError (pattern : List Char) (e : SyntaxError) : Outcome :=
  let marks := List.replicate e.span.start ' ' ++ List.replicate (max e.span.length 1) '^'
  ⟨2, "", "Error: " ++ e.message ++ "\n  " ++ String.ofList pattern ++ "\n  " ++
    String.ofList marks ++ "\n"⟩

end Outcome

/-- A title, the size of a machine, and its dump. -/
def machineText (title : String) (states symbols : Nat) (dump : List Char) : String :=
  title ++ s!":\n  {states} states, {symbols} symbols\n\n" ++ String.ofList dump

/-- Does something with the language of a pattern. -/
def withLanguage (pattern : List Char) (act : RegularLanguage → Logged Outcome) :
    Logged Outcome :=
  match RegularLanguage.parse pattern with
  | .error e => return .ofSyntaxError pattern e
  | .ok l => act l

namespace Command

def execute : Command → Logged Outcome
  | .check pattern input true => withLanguage pattern fun l => do
    let (d, l) ← l.toDfa
    Logged.log (.matchingDfa d.size)
    return .verdict "" (← l.accepts? input).1
  | .check pattern input false => withLanguage pattern fun l => do
    let (m, l) ← l.toNfa
    Logged.log (.matchingNfa m.size)
    return .verdict "" (← l.accepts? input).1
  | .nfa pattern => withLanguage pattern fun l => do
    let (m, _) ← l.toNfa
    return .success (machineText "NFA" m.size m.alphabet.size (← m.dump))
  | .dfa pattern complete => withLanguage pattern fun l => do
    let (d, _) ← l.toDfa
    let d ← d.copy
    let d := if complete then d.complete else d
    return .success (machineText "DFA" d.size d.alphabet.size (← d.dump))
  | .regex pattern => withLanguage pattern fun l => do
    let (d, _) ← l.toDfa
    let (p, _) ← (RegularLanguage.ofDfa (← d.copy)).toPattern
    return .success ("Converting pattern...\n  Input:  " ++ String.ofList pattern ++
      "\n  Output: " ++ String.ofList p.text ++ "\n")
  | .complement pattern input => withLanguage pattern fun l => do
    let (c, _) ← l.complement
    let (p, c) ← c.toPattern
    let printed := "Complement:\n  " ++ String.ofList p.text ++ "\n"
    match input with
    | none => return .success printed
    | some input => return .verdict (printed ++ "\n") (← c.accepts? input).1
  | .tree pattern =>
    match Pattern.parse pattern with
    | .error e => return .ofSyntaxError pattern e
    | .ok p => return .success (String.ofList p.tree ++ "\n")

end Command

/-! ## Logging -/

/-- How much the log shows; nothing unless it is asked for. -/
def logLevel : Nat → Option Level
  | 0 => none
  | 1 => some .info
  | 2 => some .debug
  | _ => some .trace

/-- The name of a level, filled up to the width of the longest. -/
def levelColumn (l : Level) : String :=
  l.name ++ String.ofList (List.replicate (5 - l.name.length) ' ')

/-- The message of an event; all its lines but the first are indented. -/
def indentedMessage (e : Event) : String :=
  String.ofList (e.message.toList.flatMap fun c => if c = '\n' then "\n    ".toList else [c])

/-- What the log shows of an event. A control sequence that the message leaves open goes on into
the end of the line. -/
def logLine (e : Event) : String :=
  let line := "[" ++ levelColumn e.level ++ " " ++ e.target ++ "] " ++ indentedMessage e ++ "\n"
  String.ofList (visible line.toList)

/-- The lines that a log of the given detail has for `events`. -/
def logText (verbosity : Nat) (events : List Event) : String :=
  match logLevel verbosity with
  | none => ""
  | some limit => String.join ((events.filter fun e => limit.shows e.level).map logLine)

/-! ## The program -/

def versionText : String := "relang 0.1.0\n"

/-- The usage line, with which the help begins; the list of commands and flags after it is left
out. -/
def usageText : String := "Usage: relang [OPTIONS] <COMMAND>\n"

namespace Request

def outcome : Request → Outcome
  | .version => .success versionText
  | .help => .success usageText
  | .nothing => ⟨2, "", usageText⟩
  | .execute command verbosity =>
    let result := command.execute
    let log := logText verbosity result.events
    match result.outcome with
    | .ok o => ⟨o.code, o.stdout, log ++ o.stderr⟩
    | .error f => ⟨101, "", log ++ f.message ++ "\n"⟩

end Request

/-- The exit code after an error in the arguments. -/
def ArgumentError.code : Nat := 2

/-- The line that reports an error in the arguments. -/
def ArgumentError.report (e : ArgumentError) : String := "error: " ++ e.message

/-- Runs the program. -/
def run (args : List String) : Except ArgumentError Outcome :=
  return (← Request.ofArguments args).outcome

end RegularLanguages.CommandLine
