import SqlCompose.Query.Join
import SqlCompose.Query.Scope
/-!
Accepting expressions into a statement. Every leaf is resolved in the scope of the statement. A leaf that
resolves to a nested statement is projected by that statement and replaced by a reference to the projection,
level by level, so accepting an expression may extend the projections of nested statements, and nothing else.

Accepting recurses on the expression at one level, and on the level of nesting from a statement to those in
its FROM list.
-/

namespace SqlCompose

mutual

/-- How many statements are nested inside a view. -/
def View.level : View → Nat
  | .table _ => 0
  | .concrete _ => 0
  | .join _ ⟨_, _, t, _⟩ => t.level
  | .select _ ⟨_, f, _, _, _, _, _, _⟩ => Source.levelAll f + 1

/-- The greatest level among the entries of a FROM list. -/
def Source.levelAll : List Source → Nat
  | [] => 0
  | ⟨v, _, _, _⟩ :: rest => max v.level (Source.levelAll rest)

end

namespace View

/-- Whether the selectors of a view are those of a statement. -/
def isStatement : View → Bool
  | select .. => true
  | join _ ⟨_, _, .select .., _⟩ => true
  | _ => false

/-- The fixed table whose columns a view has, if any. -/
def fixedTable? : View → Option Table
  | concrete m => some m
  | join _ ⟨_, _, .concrete m, _⟩ => some m
  | _ => none

/-- The statement behind a view. -/
def statement? : View → Option Select
  | select _ s => some s
  | join _ ⟨_, _, t, _⟩ => t.statement?
  | _ => none

/-- The view with another statement behind it. All nodes on the way become new nodes. -/
def withStatement (s : Select) : View → Build View
  | join _ ⟨n, src, t, p⟩ => do
    let t ← t.withStatement s
    Build.joinView ⟨n, src, t, p⟩
  | select .. => Build.selectView s
  | v => pure v

end View

namespace Select

/-- How many statements are nested inside the FROM list of a statement. -/
def level (s : Select) : Nat := Source.levelAll s.sources

/-- Whether a view is the statement itself. -/
def isSelf (s : Select) : View → Bool
  | .select _ r => r == s
  | _ => false

/-- A column taken from a fixed table must be one of its columns. -/
def checkDeclared (c : Catalog) (v : View) : Expr → Except Error Unit
  | .column col => match v.fixedTable? with
    | some m =>
      if c.hasColumn m col.name then .ok () else .error (.undefinedColumn col.name m.name)
    | none => .ok ()
  | _ => .ok ()

/-- How a statement one level down accepts an expression. -/
abbrev Acceptor := Select → Expr → Build (Select × Expr)

/-- Have a nested statement project an expression for the statement around it. A projection of the same
definition is used again. -/
def provide (accept : Acceptor) (s : Select) (e : Expr) : Build (Select × Option String × Expr) := do
  let (s, accepted) ← accept s e
  match s.projections.find? (·.definition == accepted) with
  | some p => return (s, p.name?, p.definition)
  | none =>
    let (a, pool) := s.aliases.projectionAlias e.name?
    let p : Projection := ⟨accepted, a, s.scope⟩
    return ({ s with projections := s.projections ++ [p], aliases := pool }, p.name?, accepted)

/-- Apply a step to the first source with an alias. -/
def updateSource (a : String) (f : Source → Build (Source × Expr)) :
    List Source → Build (List Source × Expr)
  | [] => throw (.notSupported (.projectThrough a))
  | src :: rest =>
    if src.label == a then do
      let (src, e) ← f src
      return (src :: rest, e)
    else do
      let (rest, e) ← updateSource a f rest
      return (src :: rest, e)

/-- Have the statement behind a source project a leaf, and refer to the projection. -/
def throughSource (accept : Acceptor) (leaf : Expr) (src : Source) : Build (Source × Expr) := do
  match src.view.statement? with
  | none => throw (.notSupported (.projectThrough src.label))
  | some inner =>
    let (inner, name, definition) ← provide accept inner leaf
    let v ← src.view.withStatement inner
    return ({ src with view := v }, .projected v name definition)

/-- Accept a leaf: as it is from a table, as a reference to a projection from a nested statement. -/
def acceptLeaf (accept : Acceptor) (s : Select) (leaf : Expr) : Build (Select × Expr) := do
  let m ← liftM (Scope.resolveLeaf s.scope leaf)
  liftM (checkDeclared (← get) m.view leaf.unpinned)
  if m.view.isStatement then
    let (sources, e) ← updateSource m.label (throughSource accept leaf.unpinned) s.sources
    return ({ s with sources := sources }, e)
  else return (s, leaf)

/-- Accept a view as a value: a statement as it is, a table as the source it resolves to, and a join as its
predicate between two different sources. -/
def acceptView (s : Select) : View → Except Error Expr
  | .select i r => .ok (.view (.select i r))
  | .join _ j => do
    let source ← Scope.resolve s.scope j.source
    let target ← Scope.resolve s.scope j.target
    if source.label == target.label then
      .error (.ambiguousJoin j.source.describe j.target.describe (.sameAlias source.label))
    else return j.between source.view target.view
  | v => do return .view (← Scope.resolve s.scope v).view

mutual

/-- Accept an expression, given how nested statements accept. A reference to a projection of the statement
itself counts as its definition. -/
def acceptWith (accept : Acceptor) (s : Select) : Expr → Build (Select × Expr)
  | .literal v => return (s, .literal v)
  | .apply op args => do
    let (s, args) ← acceptAllWith accept s args
    return (s, .apply op args)
  | .column c => acceptLeaf accept s (.column c)
  | .star v => acceptLeaf accept s (.star v)
  | .projected v n d =>
    if s.isSelf v then acceptWith accept s d else acceptLeaf accept s (.projected v n d)
  | .pinned e v => acceptLeaf accept s (.pinned e v)
  | .view v => do return (s, ← liftM (s.acceptView v))
  | .within sc e => throw (.notSupported (.acceptScoped (Expr.within sc e).describe))

/-- Accept the arguments one after the other. -/
def acceptAllWith (accept : Acceptor) (s : Select) : List Expr → Build (Select × List Expr)
  | [] => return (s, [])
  | e :: es => do
    let (s, e) ← acceptWith accept s e
    let (s, es) ← acceptAllWith accept s es
    return (s, e :: es)

end

/-- Accept an expression into a statement with at most the given number of levels inside. -/
def acceptAt : Nat → Acceptor
  | 0 => acceptWith fun _ e => throw (.notSupported (.resolve e.describe))
  | n + 1 => acceptWith (acceptAt n)

/-- Accept an expression into a statement. -/
def accept (s : Select) (e : Expr) : Build (Select × Expr) := acceptAt s.level s e

end Select

namespace Expr

mutual

/-- How many times an expression can be unwrapped. -/
def wrapping : Expr → Nat
  | projected _ _ d => d.wrapping + 1
  | view (.join _ ⟨_, _, _, p⟩) => p.wrapping + 1
  | apply _ args => wrappingAll args
  | _ => 0

/-- The greatest number of times an argument can be unwrapped. -/
def wrappingAll : List Expr → Nat
  | [] => 0
  | e :: es => max e.wrapping (wrappingAll es)

end

mutual

/-- Whether there is something to unwrap. -/
def isWrapped : Expr → Bool
  | projected .. => true
  | view (.join ..) => true
  | apply _ args => anyWrapped args
  | _ => false

/-- Whether there is something to unwrap in an argument. -/
def anyWrapped : List Expr → Bool
  | [] => false
  | e :: es => e.isWrapped || anyWrapped es

end

mutual

/-- One step of unwrapping: references become their definitions and joins their predicates. -/
def unwrap : Expr → Expr
  | projected _ _ d => d
  | view (.join _ j) => j.predicate
  | apply op args => apply op (unwrapAll args)
  | e => e

/-- One step of unwrapping in every argument. -/
def unwrapAll : List Expr → List Expr
  | [] => []
  | e :: es => e.unwrap :: unwrapAll es

end

end Expr

namespace Select

/-- Accept an expression, or else what is left of it after up to so many steps of unwrapping. A failed
attempt leaves nothing behind, and the last failure counts. -/
def acceptUnwrapping (s : Select) : Nat → Expr → Build (Select × Expr)
  | 0, e => s.accept e
  | n + 1, e => fun c =>
    match s.accept e c with
    | .ok r => .ok r
    | .error cause => if e.isWrapped then s.acceptUnwrapping n e.unwrap c else .error cause

/-- Accept an expression, unwrapping references and joins until it is accepted or nothing is left to
unwrap. -/
def acceptHarder (s : Select) (e : Expr) : Build (Select × Expr) := s.acceptUnwrapping e.wrapping e

end Select

end SqlCompose
