import SqlCompose.Text.Printable
/-!
Texts shown in double quotes inside messages. A quote and a backslash are escaped, line breaks, tabs and
NUL have their short escapes, and whatever would not show, or would merge with its neighbour, stands as
its code point in hexadecimal.
-/

namespace SqlCompose.Text

/-- The escape for a code point, in lower-case hexadecimal digits without leading zeros. -/
def codePointEscape (c : Char) : List Char :=
  ['\\', 'u', '\x7b'] ++ Nat.toDigits 16 c.toNat ++ ['\x7d']

/-- How one character is shown between double quotes. -/
def shown (c : Char) : List Char :=
  if c = '\x00' then ['\\', '0']
  else if c = '\t' then ['\\', 't']
  else if c = '\r' then ['\\', 'r']
  else if c = '\n' then ['\\', 'n']
  else if c = '"' then ['\\', '"']
  else if c = '\\' then ['\\', '\\']
  else if isExtending c || isIgnorable c || !isPrintable c then codePointEscape c
  else [c]

/-- A text in double quotes. -/
def quoted (s : String) : String :=
  String.ofList ('"' :: s.toList.flatMap shown ++ ['"'])

end SqlCompose.Text
