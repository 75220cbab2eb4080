import RegularLanguages.Quoted.Unprintable

/-!
# Characters in quotes

`Quoted.char c` shows `c` between single quotes in a form that is never blank or ambiguous:
a backslash and a letter for the common controls, a backslash before the quote and the backslash
themselves, and the number of an unprintable character in hexadecimal.
-/

namespace RegularLanguages.Quoted

/-- What stands between the quotes. -/
def body (c : Char) : List Char :=
  if c.toNat = 0 then ['\\', '0']
  else if c = '\t' then ['\\', 't']
  else if c = '\r' then ['\\', 'r']
  else if c = '\n' then ['\\', 'n']
  else if c = '\'' || c = '\\' then ['\\', c]
  else if isUnprintable c then "\\u\x7b".toList ++ Nat.toDigits 16 c.toNat ++ ['}']
  else [c]

def char (c : Char) : String :=
  String.ofList ('\'' :: (body c ++ ['\'']))

end RegularLanguages.Quoted
