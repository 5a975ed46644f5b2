import SqlCompose.Json.Flaw
/-!
The place reached while a JSON text is read, and the smallest steps from it: looking at the next character,
passing it, passing blanks, and reporting a flaw at the place reached or just behind the next byte.
-/

namespace SqlCompose.Json

/-- The characters that are left and the number of bytes before them. -/
structure Cursor where
  rest : List Char
  offset : Nat

/-- Blanks between tokens. -/
def isSpace (c : Char) : Bool := c == ' ' || c == '\n' || c == '\t' || c == '\r'

def isDigit (c : Char) : Bool := decide ('0' ≤ c ∧ c ≤ '9')

/-- The value of a decimal digit. -/
def digitValue (c : Char) : Nat := c.toNat - '0'.toNat

/-- The value of a hexadecimal digit. -/
def hexValue? (c : Char) : Option Nat :=
  if '0' ≤ c ∧ c ≤ '9' then some (c.toNat - '0'.toNat)
  else if 'a' ≤ c ∧ c ≤ 'f' then some (c.toNat - 'a'.toNat + 10)
  else if 'A' ≤ c ∧ c ≤ 'F' then some (c.toNat - 'A'.toNat + 10)
  else none

namespace Cursor

def ofText (text : List Char) : Cursor := ⟨text, 0⟩

/-- The place behind the next character. -/
def advance (k : Cursor) : Cursor :=
  match k.rest with
  | [] => k
  | c :: cs => ⟨cs, k.offset + c.utf8Size⟩

/-- The place behind blanks. -/
def skipSpaces (k : Cursor) : Cursor := go k.rest k.offset
where
  go : List Char → Nat → Cursor
    | [], n => ⟨[], n⟩
    | c :: cs, n => if isSpace c then go cs (n + 1) else ⟨c :: cs, n⟩

/-- A flaw at the place reached. -/
def here (k : Cursor) (flaw : Flaw) : Fault := ⟨flaw, k.offset⟩

/-- A flaw of the next byte, reported behind it; at the end of the text, there. -/
def ahead (k : Cursor) (flaw : Flaw) : Fault :=
  ⟨flaw, if k.rest.isEmpty then k.offset else k.offset + 1⟩

/-- A flaw of a whole object or list: reported behind its closing bracket if only blanks stand before it,
and behind the blanks otherwise. -/
def pastClosing (k : Cursor) (close : Char) (flaw : Flaw) : Fault :=
  let k := k.skipSpaces
  if k.rest.head? = some close then k.advance.here flaw else k.here flaw

end Cursor

/-- Steps of reading a JSON text. -/
abbrev Reader := StateT Cursor (Except Fault)

namespace Reader

/-- The next character, which stays. -/
def peek : Reader (Option Char) := do return (← get).rest.head?

/-- Pass the next character. -/
def pass : Reader Unit := modify Cursor.advance

/-- The next character behind blanks, which stays. -/
def peekToken : Reader (Option Char) := do
  modify Cursor.skipSpaces
  peek

def failHere {α : Type} (flaw : Flaw) : Reader α := do throw ((← get).here flaw)

def failAhead {α : Type} (flaw : Flaw) : Reader α := do throw ((← get).ahead flaw)

/-- Pass the characters of a word. -/
def word : List Char → Reader Unit
  | [] => return
  | c :: cs => do
    match ← peek with
    | none => failHere .endInValue
    | some d =>
      if d = c then
        pass
        word cs
      else failAhead .expectedWord

/-- Pass all decimal digits. -/
def digits : Reader (List Char) := do
  let k ← get
  let ds := k.rest.takeWhile isDigit
  set (⟨k.rest.drop ds.length, k.offset + ds.length⟩ : Cursor)
  return ds

end Reader

end SqlCompose.Json
