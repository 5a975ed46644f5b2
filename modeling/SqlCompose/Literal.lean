import SqlCompose.Number.Shortest
/-!
Constants of a statement, their numeric equality and their two texts: the one printed in a statement,
where a quote inside a string is written twice, and the one shown in descriptions, where it is not.
-/

namespace SqlCompose

/-- A constant. -/
inductive Literal
  | string (value : String)
  | integer (value : Int)
  | double (value : Double)
  | boolean (value : Bool)
  | null

namespace Literal

/-- Constants of one kind compare by value, and doubles numerically. -/
protected def beq : Literal → Literal → Bool
  | string a, string b => a == b
  | integer a, integer b => a == b
  | double a, double b => a == b
  | boolean a, boolean b => a == b
  | null, null => true
  | _, _ => false

instance : BEq Literal := ⟨Literal.beq⟩

/-- The characters of a string constant, each quote written twice. -/
def doubledQuotes : List Char → List Char
  | [] => []
  | c :: cs => if c = '\'' then c :: c :: doubledQuotes cs else c :: doubledQuotes cs

/-- The text of a string constant in a statement. -/
def quotedString (s : String) : String :=
  String.ofList ('\'' :: doubledQuotes s.toList ++ ['\''])

/-- The text of a constant that is no string. -/
def bareText : Literal → String
  | string s => s
  | integer i => toString i
  | double x => x.plainText
  | boolean true => "TRUE"
  | boolean false => "FALSE"
  | null => "NULL"

/-- The text of a constant in a statement. -/
def sqlText : Literal → String
  | string s => quotedString s
  | other => other.bareText

/-- The text of a constant in a description. -/
def describe : Literal → String
  | string s => "'" ++ s ++ "'"
  | other => other.bareText

end Literal

end SqlCompose
