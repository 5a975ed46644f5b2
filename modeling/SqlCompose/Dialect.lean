/-!
How a database wants its identifiers written.
-/

namespace SqlCompose

/-- The properties of a database that show in the text of a statement. -/
structure Dialect where
  /-- Whether table and column names are put between quotes. -/
  quoteIdentifiers : Bool := false
  /-- The text put on both sides of a quoted identifier. -/
  identifierQuote : String := "\""
deriving DecidableEq

namespace Dialect

/-- The text of a table or column name. -/
def identifier (d : Dialect) (name : String) : String :=
  if d.quoteIdentifiers then d.identifierQuote ++ name ++ d.identifierQuote else name

end Dialect

end SqlCompose
