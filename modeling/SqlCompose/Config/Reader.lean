import SqlCompose.Config.Basic
import SqlCompose.Json.Skip
/-!
Reading configurations. A configuration, and the properties of its database, may be written as an object or
as a list of the values in order. Members may come in any order, unknown ones are skipped, and only the
version has no default.
-/

namespace SqlCompose

namespace Json.Reader

/-- Report that something else than the expected value stands in the text. Scalars are read first, so that
they can be shown. -/
def wrongType {α : Type} (expected : String) : Reader α := do
  let fail (found : Found) : Reader α := failHere (.wrongType found expected)
  match ← peek with
  | some 'n' =>
    word ['n', 'u', 'l', 'l']
    fail .null
  | some 't' =>
    word ['t', 'r', 'u', 'e']
    fail (.boolean true)
  | some 'f' =>
    word ['f', 'a', 'l', 's', 'e']
    fail (.boolean false)
  | some '"' =>
    pass
    fail (.string (← string))
  | some '[' => fail .sequence
  | some '\x7b' => fail .map
  | some c => if c = '-' || isDigit c then fail (← number).found else failAhead .expectedValue
  | none => failAhead .expectedValue

/-- Read a truth value. -/
def boolean : Reader Bool := do
  match ← peekToken with
  | none => failAhead .endInValue
  | some 't' =>
    word ['t', 'r', 'u', 'e']
    return true
  | some 'f' =>
    word ['f', 'a', 'l', 's', 'e']
    return false
  | some _ => wrongType "a boolean"

/-- Read a string. -/
def text : Reader String := do
  match ← peekToken with
  | none => failAhead .endInValue
  | some '"' =>
    pass
    string
  | some _ => wrongType "a string"

/-- Read a whole number of 32 bits. -/
def word32 : Reader UInt32 := do
  match ← peekToken with
  | none => failAhead .endInValue
  | some c =>
    if c = '-' || isDigit c then
      match ← number with
      | .integer n =>
        if 0 ≤ n ∧ n < 0x100000000 then return n.toNat.toUInt32
        else failHere (.wrongValue (.integer n) "u32")
      | .double x => failHere (.wrongType (.double x) "u32")
    else wrongType "u32"

/-- Whether a list has another element, which is then the next token. -/
def hasElement (first : Bool) : Reader Bool := do
  match ← peekToken with
  | none => failAhead .endInList
  | some ']' => return false
  | some ',' =>
    if first then return true
    pass
    match ← peekToken with
    | some ']' => failAhead .trailingComma
    | some _ => return true
    | none => failAhead .endInValue
  | some _ => if first then return true else failAhead .expectedListCommaOrEnd

/-- Pass the end of a list. -/
def listEnd : Reader Unit := do
  match ← peekToken with
  | some ']' => pass
  | some ',' =>
    pass
    match ← peekToken with
    | some ']' => failAhead .trailingComma
    | _ => failAhead .trailingCharacters
  | some _ => failAhead .trailingCharacters
  | none => failAhead .endInList

/-- The name of the next member of an object, if there is one. -/
def memberName (first : Bool) : Reader (Option String) := do
  match ← peekToken with
  | none => failAhead .endInObject
  | some '\x7d' => return none
  | some c =>
    if !first then
      if c ≠ ',' then failAhead .expectedObjectCommaOrEnd
      pass
    match ← peekToken with
    | some '"' => pass
    | some '\x7d' => failAhead .trailingComma
    | some _ => failAhead .keyMustBeString
    | none => failAhead .endInValue
    return some (← string)

/-- Pass the colon in front of the value of a member. -/
def colon : Reader Unit := do
  match ← peekToken with
  | some ':' => pass
  | some _ => failAhead .expectedColon
  | none => failAhead .endInObject

/-- Read the value of a member that must not have been read before. -/
def once {α : Type} (name : String) (before : Option α) (value : Reader α) : Reader (Option α) := do
  if before.isSome then throw ((← get).pastClosing '\x7d' (.duplicateMember name))
  colon
  return some (← value)

/-- Read the members of an object up to its end. -/
def membersAt {σ : Type} (member : σ → String → Reader σ) : Nat → Bool → σ → Reader σ
  | 0, _, _ => failAhead .endInObject
  | n + 1, first, s => do
    match ← memberName first with
    | none => return s
    | some name => membersAt member n false (← member s name)

/-- Read the members of an object up to its end. Every member passes a character. -/
def members {σ : Type} (member : σ → String → Reader σ) (s : σ) : Reader σ := do
  membersAt member ((← get).rest.length + 1) true s

/-- Read a value written as an object or as a list. The end of an object has no flaw of its own, since the
members end in front of it. -/
def record {α : Type} (expected : String) (ofObject ofList : Reader α) : Reader α := do
  match ← peekToken with
  | none => failAhead .endInValue
  | some '\x7b' =>
    pass
    let r ← ofObject
    pass
    return r
  | some '[' =>
    pass
    let r ← ofList
    listEnd
    return r
  | some _ => wrongType expected

end Json.Reader

namespace Config

open Json.Reader

/-- The members of the database properties that have been read. -/
structure DatabaseMembers where
  quoteIdentifiers : Option Bool := none
  identifierQuote : Option String := none

/-- The properties with defaults for what was not read. -/
def DatabaseMembers.dialect (m : DatabaseMembers) : Dialect :=
  ⟨m.quoteIdentifiers.getD empty.database.quoteIdentifiers,
    m.identifierQuote.getD empty.database.identifierQuote⟩

/-- Read a member of the database properties. -/
def databaseMember (m : DatabaseMembers) (name : String) : Json.Reader DatabaseMembers := do
  if name = "quoteIdentifiers" then
    return { m with quoteIdentifiers := ← once name m.quoteIdentifiers boolean }
  else if name = "identifierQuote" then
    return { m with identifierQuote := ← once name m.identifierQuote text }
  else
    colon
    skipValue
    return m

/-- Read the database properties from a list. -/
def databaseList : Json.Reader DatabaseMembers := do
  if ← hasElement true then
    let quoteIdentifiers ← boolean
    if ← hasElement false then
      return { quoteIdentifiers, identifierQuote := some (← text) }
    return { quoteIdentifiers }
  return {}

/-- Read the database properties. -/
def databaseProperties : Json.Reader Dialect := do
  return (← record "struct DatabaseProperties" (members databaseMember {}) databaseList).dialect

/-- The members of a configuration that have been read. -/
structure Members where
  version : Option UInt32 := none
  database : Option Dialect := none

/-- Read a member of a configuration. -/
def configMember (m : Members) (name : String) : Json.Reader Members := do
  if name = "version" then
    return { m with version := ← once name m.version word32 }
  else if name = "database" then
    return { m with database := ← once name m.database databaseProperties }
  else
    colon
    skipValue
    return m

/-- Read a configuration from its members. -/
def configObject : Json.Reader Config := do
  let m ← members configMember {}
  match m.version with
  | some v => return ⟨v, m.database.getD empty.database⟩
  | none => throw ((← get).pastClosing '\x7d' (.missingMember "version"))

/-- Read a configuration from a list. -/
def configList : Json.Reader Config := do
  if ← hasElement true then
    let version ← word32
    if ← hasElement false then return ⟨version, ← databaseProperties⟩
    return ⟨version, empty.database⟩
  throw ((← get).pastClosing ']'
    (.wrongLength 0 "struct ParsedConfiguration with 2 elements"))

/-- Read a whole text that holds a configuration. -/
def wholeText : Json.Reader Config := do
  let c ← record "struct ParsedConfiguration" configObject configList
  match ← peekToken with
  | none => return c
  | some _ => failAhead .trailingCharacters

/-- Read a configuration. -/
def read (text : List Char) : Except Json.Fault Config :=
  match wholeText (.ofText text) with
  | .ok (c, _) => .ok c
  | .error f => .error f

end Config

end SqlCompose
