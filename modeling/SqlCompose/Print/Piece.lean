import SqlCompose.Dialect
import SqlCompose.Error
import SqlCompose.Literal
/-!
The pieces a statement is printed in, and the printout that collects them. Faults do not stop the printing:
they are collected beside the text, and the first of them counts when the text is taken.
-/

namespace SqlCompose

/-- A piece of a printed query. -/
inductive Piece
  /-- Keywords, symbols, punctuation and blanks. -/
  | word (text : String)
  | literal (value : Literal)
  /-- The name of a table. -/
  | name (text : String) (dialect : Dialect)
  /-- The alias given to a source or a projection. -/
  | label (text : String)
  /-- A column, qualified if its source is known. -/
  | reference (qualifier : Option String) (column : String) (dialect : Dialect)
  /-- All columns, qualified if their source is known. -/
  | star (qualifier : Option String)
  /-- A nested statement. -/
  | statement (body : List Piece)
  /-- A fault to be recorded as it is. -/
  | fault (cause : Error)
  /-- A fault to be recorded with the position reached in the text. -/
  | faultHere (cause : Error)

namespace Piece

/-- The text in front of a qualified name. -/
def qualification : Option String → String
  | some q => q ++ "."
  | none => ""

mutual

/-- The text of a piece. -/
def text : Piece → String
  | word t => t
  | literal v => v.sqlText
  | name t d => d.identifier t
  | label t => t
  | reference q n d => qualification q ++ d.identifier n
  | star q => qualification q ++ "*"
  | statement body => textAll body
  | fault _ => ""
  | faultHere _ => ""

/-- The text of some pieces. -/
def textAll : List Piece → String
  | [] => ""
  | p :: ps => p.text ++ textAll ps

end

mutual

/-- Whether a piece holds a fault. -/
def isFaulty : Piece → Bool
  | statement body => anyFaulty body
  | fault _ => true
  | faultHere _ => true
  | _ => false

/-- Whether one of some pieces holds a fault. -/
def anyFaulty : List Piece → Bool
  | [] => false
  | p :: ps => p.isFaulty || anyFaulty ps

end

/-- Pieces in parentheses. -/
def parenthesised (ps : List Piece) : List Piece := word "(" :: ps ++ [word ")"]

/-- Pieces in parentheses if they bind looser than what stands around them. -/
def enclosed (around own : Nat) (ps : List Piece) : List Piece :=
  if around < own then parenthesised ps else ps

end Piece

/-- The text printed so far and the faults met. -/
structure Printout where
  text : String := ""
  faults : List Error := []
deriving DecidableEq

namespace Printout

/-- Print a text behind the others. -/
def append (o : Printout) (text : String) : Printout := { o with text := o.text ++ text }

/-- Record a fault. -/
def fault (o : Printout) (e : Error) : Printout := { o with faults := o.faults ++ [e] }

/-- Record a fault at the number of bytes printed so far. -/
def faultHere (o : Printout) (e : Error) : Printout := o.fault (.positioned e o.text.utf8ByteSize)

mutual

/-- Print a piece. -/
def put (o : Printout) : Piece → Printout
  | .statement body => o.putAll body
  | .fault e => o.fault e
  | .faultHere e => o.faultHere e
  | .word t => o.append t
  | .literal v => o.append v.sqlText
  | .name t d => o.append (d.identifier t)
  | .label t => o.append t
  | .reference q n d => o.append (Piece.qualification q ++ d.identifier n)
  | .star q => o.append (Piece.qualification q ++ "*")

/-- Print some pieces. -/
def putAll (o : Printout) : List Piece → Printout
  | [] => o
  | p :: ps => (o.put p).putAll ps

end

/-- The printed text, unless there is a fault. -/
def result (o : Printout) : Except Error String :=
  match o.faults with
  | [] => .ok o.text
  | e :: _ => .error (.printing e o.text)

end Printout

end SqlCompose
