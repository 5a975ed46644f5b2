import SqlCompose.Json.Number
import SqlCompose.Json.String
/-!
Skipping any JSON value. There is no limit on nesting: the fuel comes from the length of the text, since
every step passes a character.
-/

namespace SqlCompose.Json.Reader

/-- Skip the key of a member and the colon behind it. -/
def skipKey : Reader Unit := do
  match ← peekToken with
  | some '"' => pass
  | some _ => failAhead .keyMustBeString
  | none => failAhead .endInObject
  skipString
  match ← peekToken with
  | some ':' => pass
  | some _ => failAhead .expectedColon
  | none => failAhead .endInObject

mutual

/-- Skip a value. -/
def skipValueAt : Nat → Reader Unit
  | 0 => failAhead .endInValue
  | n + 1 => do
    match ← peekToken with
    | none => failAhead .endInValue
    | some 'n' => word ['n', 'u', 'l', 'l']
    | some 't' => word ['t', 'r', 'u', 'e']
    | some 'f' => word ['f', 'a', 'l', 's', 'e']
    | some '"' =>
      pass
      skipString
    | some '[' =>
      pass
      match ← peekToken with
      | none => failAhead .endInList
      | some ']' => pass
      | some _ => skipElementsAt n
    | some '\x7b' =>
      pass
      match ← peekToken with
      | none => failAhead .endInObject
      | some '\x7d' => pass
      | some _ => skipMembersAt n
    | some c => if c = '-' || isDigit c then skipNumber else failAhead .expectedValue

/-- Skip the elements of a list and its end. -/
def skipElementsAt : Nat → Reader Unit
  | 0 => failAhead .endInList
  | n + 1 => do
    skipValueAt n
    match ← peekToken with
    | none => failAhead .endInList
    | some ',' =>
      pass
      skipElementsAt n
    | some ']' => pass
    | some _ => failAhead .expectedListCommaOrEnd

/-- Skip the members of an object and its end. -/
def skipMembersAt : Nat → Reader Unit
  | 0 => failAhead .endInObject
  | n + 1 => do
    skipKey
    skipValueAt n
    match ← peekToken with
    | none => failAhead .endInObject
    | some ',' =>
      pass
      skipMembersAt n
    | some '\x7d' => pass
    | some _ => failAhead .expectedObjectCommaOrEnd

end

/-- Skip a value. -/
def skipValue : Reader Unit := do skipValueAt (2 * (← get).rest.length + 1)

end SqlCompose.Json.Reader
