import SqlCompose.Query.Selector
/-!
Expressions that combine others: conjunctions, equalities of lists, and the count of the rows of a view.
-/

namespace SqlCompose.Expr

def equals (a b : Expr) : Expr := apply .equals [a, b]

/-- The conjunction of some predicates; one predicate stays as it is. -/
def conjunction : List Expr → Except Error Expr
  | [] => .error .emptyList
  | [p] => .ok p
  | ps => .ok (apply .and ps)

/-- Pairwise equality of two lists of the same positive length. -/
def equalsAll (as bs : List Expr) : Except Error Expr :=
  if as.length ≠ bs.length then .error (.sizeMismatch as.length bs.length)
  else conjunction (as.zipWith equals bs)

/-- The count of the distinct rows of a view, by its primary key. The parts of a longer key are
concatenated. -/
def countRows (c : Catalog) (v : View) : Except Error Expr :=
  match v.keys c with
  | [] => .error (.missingKey (v.name?.getD v.describe))
  | [key] => .ok (apply .countDistinct [key])
  | keys => .ok (apply .countDistinct [apply .concat keys])

end SqlCompose.Expr
