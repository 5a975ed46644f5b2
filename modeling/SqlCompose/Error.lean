/-!
What can go wrong while a statement is composed or printed, and the text of each cause.
-/

namespace SqlCompose

/-- The clauses that take expressions. -/
inductive Clause
  | from
  | select
  | where
  | having
  | groupBy
deriving DecidableEq

/-- Why it is unclear which instance of a view a join means. -/
inductive Ambiguity
  | unboundSource
  | sameAlias (label : String)
deriving DecidableEq

/-- What a statement cannot do with an expression. -/
inductive Unsupported
  | acceptScoped (expr : String)
  | projectThrough (label : String)
  | resolve (expr : String)
  | printReference (expr : String)
deriving DecidableEq

/-- The causes of failure. Views and expressions are given by their descriptions. -/
inductive Error
  | unresolved (view scope : String)
  | keyAlreadyDeclared (table : String)
  | foreignColumn (column table : String)
  | undefinedColumn (column table : String)
  | missingKey (table : String)
  | sizeMismatch (left right : Nat)
  | emptyList
  | missingSource
  | undefinedSelector (name view : String)
  | sourceNotInferred (target : String) (candidates : Nat)
  | incompatibleJoin (source target predicate : String)
  | ambiguousJoin (source target : String) (reason : Ambiguity)
  | rejected (clause : Clause) (subject : String) (cause : Error)
  | unnamedReference (view : String)
  | notSupported (what : Unsupported)
  /-- A cause met after a number of bytes had been printed. -/
  | positioned (cause : Error) (position : Nat)
  /-- The first cause met while printing, with the text printed all the same. -/
  | printing (cause : Error) (text : String)
deriving DecidableEq

namespace Clause

/-- The keywords of a clause. -/
def keyword : Clause → String
  | .from => "FROM"
  | .select => "SELECT"
  | .where => "WHERE"
  | .having => "HAVING"
  | .groupBy => "GROUP BY"

end Clause

namespace Ambiguity

def message : Ambiguity → String
  | unboundSource => "no predicate column is bound to the source"
  | sameAlias a => "both sides resolve to '" ++ a ++ "'"

end Ambiguity

namespace Unsupported

def message : Unsupported → String
  | acceptScoped e => "accepting the scoped expression " ++ e
  | projectThrough a => "projecting through '" ++ a ++ "'"
  | resolve e => "resolving " ++ e
  | printReference e => "printing " ++ e ++ " as a reference"

end Unsupported

namespace Error

/-- The text of a cause. -/
def message : Error → String
  | unresolved v s => "undefined reference to " ++ v ++ " in scope " ++ s
  | keyAlreadyDeclared t => "PrimaryKey already defined for table '" ++ t ++ "'"
  | foreignColumn c t => "column '" ++ c ++ "' does not belong to table '" ++ t ++ "'"
  | undefinedColumn c t => "column '" ++ c ++ "' is not defined in table '" ++ t ++ "'"
  | missingKey t => "table '" ++ t ++ "' has no PK defined"
  | sizeMismatch l r => "different list size: " ++ toString l ++ " and " ++ toString r
  | emptyList => "empty list"
  | missingSource => "missing FROM clause"
  | undefinedSelector n v => "selector '" ++ n ++ "' is not defined in " ++ v
  | sourceNotInferred t n =>
    "cannot infer the source of a join to " ++ t ++ ": found " ++ toString n ++ " candidates"
  | incompatibleJoin s t p =>
    "join predicate of type " ++ p ++ " is incompatible with source " ++ s ++ " and target " ++ t
  | ambiguousJoin s t r => "join between " ++ s ++ " and " ++ t ++ " is ambiguous: " ++ r.message
  | rejected c e _ => c.keyword ++ ": cannot resolve " ++ e
  | unnamedReference v => "unable to print unnamed reference to " ++ v
  | notSupported w => w.message ++ " is not supported"
  | positioned e n => e.message ++ " at position " ++ toString n
  | printing e t => e.message ++ ": " ++ t

end Error

end SqlCompose
