import SqlCompose.Number.Shortest
import SqlCompose.Text.Quoted
/-!
What can be wrong with a JSON text, where, and the text of each flaw. Offsets count bytes; a position is a
line and the number of bytes before it in that line.
-/

namespace SqlCompose.Json

/-- What stands in the text instead of what was expected. -/
inductive Found
  | null
  | boolean (value : Bool)
  | integer (value : Int)
  | double (value : Double)
  | string (value : String)
  | sequence
  | map

namespace Found

def message : Found → String
  | null => "null"
  | boolean true => "boolean `true`"
  | boolean false => "boolean `false`"
  | integer n => "integer `" ++ toString n ++ "`"
  | double x => "floating point `" ++ x.messageText ++ "`"
  | string s => "string " ++ Text.quoted s
  | sequence => "sequence"
  | map => "map"

end Found

/-- What is wrong with a JSON text. -/
inductive Flaw
  | endInValue
  | endInList
  | endInObject
  | endInString
  | expectedValue
  | expectedWord
  | expectedColon
  | expectedListCommaOrEnd
  | expectedObjectCommaOrEnd
  | keyMustBeString
  | trailingComma
  | trailingCharacters
  | invalidNumber
  | numberOutOfRange
  | invalidEscape
  | loneSurrogate
  | unfinishedSurrogates
  | controlCharacter
  | wrongType (found : Found) (expected : String)
  | wrongValue (found : Found) (expected : String)
  | wrongLength (length : Nat) (expected : String)
  | missingMember (name : String)
  | duplicateMember (name : String)

namespace Flaw

def message : Flaw → String
  | endInValue => "EOF while parsing a value"
  | endInList => "EOF while parsing a list"
  | endInObject => "EOF while parsing an object"
  | endInString => "EOF while parsing a string"
  | expectedValue => "expected value"
  | expectedWord => "expected ident"
  | expectedColon => "expected `:`"
  | expectedListCommaOrEnd => "expected `,` or `]`"
  | expectedObjectCommaOrEnd => "expected `,` or `\x7d`"
  | keyMustBeString => "key must be a string"
  | trailingComma => "trailing comma"
  | trailingCharacters => "trailing characters"
  | invalidNumber => "invalid number"
  | numberOutOfRange => "number out of range"
  | invalidEscape => "invalid escape"
  | loneSurrogate => "lone leading surrogate in hex escape"
  | unfinishedSurrogates => "unexpected end of hex escape"
  | controlCharacter => "control character (\\u0000-\\u001F) found while parsing a string"
  | wrongType f e => "invalid type: " ++ f.message ++ ", expected " ++ e
  | wrongValue f e => "invalid value: " ++ f.message ++ ", expected " ++ e
  | wrongLength n e => "invalid length " ++ toString n ++ ", expected " ++ e
  | missingMember n => "missing field `" ++ n ++ "`"
  | duplicateMember n => "duplicate field `" ++ n ++ "`"

end Flaw

/-- A flaw and the number of bytes before the place it is reported at. -/
structure Fault where
  flaw : Flaw
  offset : Nat

/-- A place in a text. -/
structure Position where
  line : Nat
  column : Nat
deriving DecidableEq

namespace Position

/-- The place that so many bytes of a text lead to, from a given place on. An offset inside a character is
reached by the bytes of that character before it. -/
def after : Position → Nat → List Char → Position
  | p, _, [] => p
  | p, n, c :: cs =>
    if n < c.utf8Size then { p with column := p.column + n }
    else if c = '\n' then after ⟨p.line + 1, 0⟩ (n - c.utf8Size) cs
    else after { p with column := p.column + c.utf8Size } (n - c.utf8Size) cs

/-- The place at an offset of a text. -/
def ofOffset (text : List Char) (offset : Nat) : Position := after ⟨1, 0⟩ offset text

end Position

end SqlCompose.Json
