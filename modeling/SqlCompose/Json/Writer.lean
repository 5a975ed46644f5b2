import SqlCompose.Number.Shortest
/-!
JSON values and their written form: one member or element a line, indented by two blanks for every level.
In a string only quotes, backslashes and control characters are escaped.
-/

namespace SqlCompose

/-- A JSON value. The members of an object stand in the order they are written in. -/
inductive Json
  | bool (value : Bool)
  | integer (value : Int)
  | double (value : Double)
  | string (value : String)
  | list (elements : List Json)
  | object (members : List (String × Json))

namespace Json

/-- The lower-case hexadecimal digit of a number below sixteen. -/
def hexDigit (n : Nat) : Char := (Nat.toDigits 16 n).headD '0'

/-- How a character is written in a string. -/
def escaped (c : Char) : List Char :=
  if c = '"' then ['\\', '"']
  else if c = '\\' then ['\\', '\\']
  else if c = '\x08' then ['\\', 'b']
  else if c = '\x0c' then ['\\', 'f']
  else if c = '\n' then ['\\', 'n']
  else if c = '\r' then ['\\', 'r']
  else if c = '\t' then ['\\', 't']
  else if c.toNat < 0x20 then
    ['\\', 'u', '0', '0', hexDigit (c.toNat / 16), hexDigit (c.toNat % 16)]
  else [c]

/-- The written form of a string. -/
def writtenString (s : String) : List Char := '"' :: s.toList.flatMap escaped ++ ['"']

/-- A new line with the indentation of a level. -/
def newLine (level : Nat) : List Char := '\n' :: List.replicate (2 * level) ' '

/-- Entries between brackets, each on a line of its own. -/
def bracketed (opening closing : Char) (level : Nat) (entries : List (List Char)) : List Char :=
  if entries.isEmpty then [opening, closing]
  else opening :: [','].intercalate (entries.map (newLine (level + 1) ++ ·)) ++ newLine level ++ [closing]

mutual

/-- The written form of a value at a level of indentation. -/
def written (level : Nat) : Json → List Char
  | bool b => if b then ['t', 'r', 'u', 'e'] else ['f', 'a', 'l', 's', 'e']
  | integer n => (toString n).toList
  | double x => x.messageText.toList
  | string s => writtenString s
  | list es => bracketed '[' ']' level (writtenElements (level + 1) es)
  | object ms => bracketed '\x7b' '\x7d' level (writtenMembers (level + 1) ms)

/-- The written forms of the elements of a list. -/
def writtenElements (level : Nat) : List Json → List (List Char)
  | [] => []
  | e :: es => e.written level :: writtenElements level es

/-- The written forms of the members of an object. -/
def writtenMembers (level : Nat) : List (String × Json) → List (List Char)
  | [] => []
  | (name, v) :: ms => (writtenString name ++ ':' :: ' ' :: v.written level) :: writtenMembers level ms

end

/-- The text of a file that holds a value. -/
def fileText (v : Json) : String := String.ofList (v.written 0 ++ ['\n'])

end Json

end SqlCompose
