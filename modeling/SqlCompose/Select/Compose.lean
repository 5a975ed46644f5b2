import SqlCompose.Select.Accept
/-!
Composing a statement: adding sources, projections, predicates and groupings. Each step is all or nothing:
it gives a new statement, or fails with the clause that rejected the expression and the cause.
-/

namespace SqlCompose

namespace Build

/-- Name the clause and the expression that a failure is about. -/
def rejecting {α : Type} (clause : Clause) (subject : String) (step : Build α) : Build α := fun c =>
  match step c with
  | .ok r => .ok r
  | .error cause => .error (.rejected clause subject cause)

end Build

namespace Select

/-- Put a view in scope under an alias, then accept the predicate if it joins, then add the source. The
predicate so sees the new source, but cannot project through it. -/
def register (s : Select) (v : View) (a : String) (on : Option Expr) : Build Select := do
  let s := { s with scope := Scope.add s.scope (← Build.mark) v a }
  match on with
  | none => return { s with sources := s.sources ++ [⟨v, a, s.scope, none⟩] }
  | some predicate =>
    let (s, accepted) ← s.accept predicate
    return { s with sources := s.sources ++ [⟨v, a, s.scope, some accepted⟩] }

/-- Put a view in scope under an alias from the pool. -/
def registerNamed (s : Select) (v : View) (on : Option Expr) : Build Select :=
  let (a, pool) := s.aliases.viewAlias v.name?
  { s with aliases := pool }.register v a on

/-- The join from the source it resolves to in the scope, when that is more specific than its own. -/
def rebase (s : Select) (j : Join) : Except Error Join := do
  let source := (← Scope.resolve s.scope j.source).view
  if source.extends? j.source then j.changeSource source else return j

/-- Place a view behind the sources. A table enters as a copy of its own, and a join needs its source in
scope. -/
def place (s : Select) : View → Build Select
  | .join _ j => do
    let j ← liftM (s.rebase j)
    s.registerNamed (← Build.joinView j) (some j.predicate)
  | v => do s.registerNamed (← Build.copyView v) none

/-- Add a source to the FROM list. -/
def addSource (s : Select) (v : View) : Build Select :=
  Build.rejecting .from v.describe (s.place v)

/-- Join a target on a predicate, from the source that the predicate shows. -/
def join (s : Select) (target : View) (predicate : Expr) : Build Select := do
  let j ← liftM (Join.infer target predicate)
  s.addSource (← Build.joinView j)

/-- The aliases that the leaves of an expression resolve to in a scope. -/
def leafAliases (e : Expr) (scope : Scope) : List (Option String) :=
  e.leaves.map fun leaf => (Scope.resolveLeaf scope leaf).toOption.map (·.label)

/-- Whether a projection can stand for an accepted expression: it has the same definition with the same
sources, and the wanted alias if one is given. -/
def covers (s : Select) (accepted : Expr) (label : Option String) (p : Projection) : Bool :=
  p.definition == accepted && (label.isNone || p.label == label)
    && leafAliases p.definition p.scope == leafAliases accepted s.scope

/-- Project an expression unless a projection can stand for it. The name is what its alias is made from,
and only an explicit name has to be met by a projection that is used again. -/
def addProjection (s : Select) (e : Expr) (name : Option String) (explicit : Bool) : Build Select := do
  let (s, accepted) ← s.accept e
  if s.projections.any (s.covers accepted (if explicit then name else none)) then return s
  else
    let (a, pool) := s.aliases.projectionAlias name
    return { s with projections := s.projections ++ [⟨accepted, a, s.scope⟩], aliases := pool }

/-- Project an expression under its own name. -/
def project (s : Select) (e : Expr) : Build Select :=
  Build.rejecting .select e.describe (s.addProjection e e.name? false)

/-- Project an expression under an alias. -/
def projectAs (s : Select) (e : Expr) (label : String) : Build Select :=
  Build.rejecting .select e.describe (s.addProjection e (some label) true)

/-- Add a predicate to the WHERE clause. -/
def filter (s : Select) (predicate : Expr) : Build Select :=
  Build.rejecting .where predicate.describe do
    let (s, accepted) ← s.acceptHarder predicate
    return { s with filters := s.filters ++ [⟨accepted, s.scope⟩] }

/-- Add a predicate to the HAVING clause. -/
def filterGroups (s : Select) (predicate : Expr) : Build Select :=
  Build.rejecting .having predicate.describe do
    let (s, accepted) ← s.acceptHarder predicate
    return { s with having := s.having ++ [⟨accepted, s.scope⟩] }

/-- Group by an expression, and project it. -/
def addGrouping (s : Select) (e : Expr) : Build Select := do
  let (s, accepted) ← s.accept e
  let s : Select := { s with grouping := s.grouping ++ [⟨accepted, s.scope⟩] }
  s.addProjection e none false

/-- Group by an expression. -/
def groupBy (s : Select) (e : Expr) : Build Select :=
  Build.rejecting .groupBy e.describe (s.addGrouping e)

/-- Group by several expressions, all or none. -/
def groupByAll (s : Select) (es : List Expr) : Build Select := es.foldlM groupBy s

/-- Add a view to the FROM list unless the scope resolves it or it cannot be added. -/
def requireView (s : Select) (v : View) : Build (Select × Bool) := fun c =>
  if Scope.canResolve s.scope v then .ok ((s, false), c)
  else match s.addSource v c with
    | .ok (s, c) => .ok ((s, true), c)
    | .error _ => .ok ((s, false), c)

/-- Add the views in their order wherever they are missing, and give the views added. -/
def requireViews (s : Select) : List View → Build (Select × List View)
  | [] => return (s, [])
  | v :: vs => do
    let (s, added) ← s.requireView v
    let (s, more) ← s.requireViews vs
    return (s, if added then v :: more else more)

/-- Add a source for every view that an expression depends on and that is not in scope yet. -/
def require (s : Select) (e : Expr) : Build (Select × List View) := s.requireViews e.views.views

end Select

end SqlCompose
