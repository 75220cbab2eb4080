/-!
# Words of a command line

A word that starts with two dashes is a long flag, one that starts with a single dash is one or more
short flags, and every other word is a value. Two dashes alone end the flags; one dash alone is a
value. The parser of arguments that the program relies on divides words in this way.
-/

namespace RegularLanguages.CommandLine

inductive Word where
  /-- The double dash. -/
  | terminator
  /-- A long flag, and the value attached to it by an equals sign. -/
  | long (name : String) (value : Option String)
  /-- One or more short flags. -/
  | short (letters : List Char)
  | value (text : String)
  deriving DecidableEq

def Word.ofString (s : String) : Word :=
  match s.toList with
  | ['-', '-'] => terminator
  | '-' :: '-' :: cs =>
    let name := String.ofList (cs.takeWhile (· ≠ '='))
    match cs.dropWhile (· ≠ '=') with
    | [] => long name none
    | _ :: attached => long name (some (String.ofList attached))
  | '-' :: c :: cs => short (c :: cs)
  | _ => value s

end RegularLanguages.CommandLine
