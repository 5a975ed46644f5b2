import SqlCompose.Query.Compatible
/-!
Ordered sets of views, and the views that expressions and views depend on. A view enters a set only when
no equal one is there, so the views stand in the order of their first appearance.
-/

namespace SqlCompose

/-- An ordered set of views. -/
structure ViewSet where
  views : List View

namespace ViewSet

def empty : ViewSet := ⟨[]⟩

def singleton (v : View) : ViewSet := ⟨[v]⟩

def contains (s : ViewSet) (v : View) : Bool := s.views.any (· == v)

/-- Add a view behind the others, unless an equal one is there. -/
def insert (s : ViewSet) (v : View) : ViewSet := if s.contains v then s else ⟨s.views ++ [v]⟩

/-- Add the views of another set in their order. -/
def union (s t : ViewSet) : ViewSet := t.views.foldl insert s

def ofList (vs : List View) : ViewSet := vs.foldl insert empty

/-- Whether an element is compatible with a view. -/
def compatible (s : ViewSet) (v : View) : Bool := s.views.any (·.compatible v)

/-- Whether a view is the only element. -/
def isOnly (s : ViewSet) (v : View) : Bool :=
  match s.views with
  | [w] => w == v
  | _ => false

/-- Sets are equal when they hold equal views in the same order. -/
def beq (s t : ViewSet) : Bool := s.views == t.views

instance : BEq ViewSet := ⟨beq⟩

end ViewSet

namespace Select

/-- The views of the FROM list. -/
def views (s : Select) : ViewSet := ViewSet.ofList (s.sources.map (·.view))

end Select

namespace View

/-- The views that a view stands for: a join depends on its source and itself, a statement on its
sources. -/
def views : View → ViewSet
  | join i j => (ViewSet.singleton j.source).insert (join i j)
  | select _ s => s.views
  | v => .singleton v

end View

namespace Expr

mutual

/-- The views an expression depends on. -/
def views : Expr → ViewSet
  | literal _ => .empty
  | apply _ args => viewsAll args .empty
  | column c => .singleton c.view
  | star v => .singleton v
  | projected v _ _ => .singleton v
  | view v => v.views
  | pinned _ v => .singleton v
  | within _ e => e.views

/-- A set extended by the views of all arguments. -/
def viewsAll : List Expr → ViewSet → ViewSet
  | [], s => s
  | e :: es, s => viewsAll es (s.union e.views)

end

/-- The leaf that takes the place of a leaf when an expression is moved to a view: itself without a pin
when the view owns it, pinned when the view inherits from its owner, unchanged otherwise. -/
def relinkLeaf (target : View) (leaf : Expr) : Expr :=
  let plain := leaf.unpinned
  match plain.owner? with
  | none => leaf
  | some owner =>
    if owner == target then plain
    else if target.inherits owner then pinned plain target
    else leaf

/-- The expression with the leaves of views that the target inherits from pinned to it. -/
def relink (e : Expr) (target : View) : Expr := e.mapLeaves (relinkLeaf target)

end Expr

end SqlCompose
