import SqlCompose.Catalog
import SqlCompose.Query.Describe
/-!
The selectors and the keys of views. A table gives a column for any name, a fixed table only its own, a
join what its target gives, and a statement a reference to one of its projections.
-/

namespace SqlCompose

/-- Some key expressions of a view. -/
structure Key where
  view : View
  keys : List Expr

instance : BEq Key := ⟨fun a b => a.view == b.view && a.keys == b.keys⟩

namespace Projection

/-- The reference to a projection from outside its statement. -/
def reference (p : Projection) (source : View) : Expr := .projected source p.name? p.definition

/-- Whether a name finds a projection: by its alias or by the name the database gives it. -/
def answers (p : Projection) (name : String) : Bool :=
  p.label == some name || p.definition.systemName? == some name

end Projection

namespace Select

/-- References to the projections of a statement that is known as the given view. -/
def selectorsOf (s : Select) (source : View) : List Expr := s.projections.map (·.reference source)

/-- The reference to the first projection that answers to a name. -/
def selectorOf (s : Select) (source : View) (name : String) : Except Error Expr :=
  match s.projections.find? (·.answers name) with
  | some p => .ok (p.reference source)
  | none => .error (.undefinedSelector name source.describe)

/-- References to the projections of a statement. -/
def selectors (s : Select) : Build (List Expr) := do
  return s.selectorsOf (← Build.selectView s)

/-- The reference to a projection of a statement by its name. -/
def selector (s : Select) (name : String) : Build Expr := do
  s.selectorOf (← Build.selectView s) name

end Select

namespace View

/-- A selector by its name. A table registers the column. -/
def selector (name : String) : View → Build Expr
  | table t => fun c =>
    let (col, c) := c.column t name
    .ok (.column col, c)
  | concrete m => fun c => do
    let (col, c) ← c.fixedColumn m name
    .ok (.column col, c)
  | join _ ⟨_, _, t, _⟩ => t.selector name
  | select i s => fun c => do return (← s.selectorOf (select i s) name, c)

/-- The selectors known at present. -/
def selectors (c : Catalog) : View → List Expr
  | table t => (c.columns t).map .column
  | concrete m => (c.columns m).map .column
  | join _ ⟨_, _, t, _⟩ => t.selectors c
  | select i s => s.selectorsOf (select i s)

end View

mutual

/-- The primary key of a view, none if there is no key: the declared key of a table, the key of the
target of a join, and for a statement its grouping or else the keys of all its sources. -/
def View.keys (c : Catalog) : View → List Expr
  | .table t => (c.keyColumns t).map .column
  | .concrete m => (c.keyColumns m).map .column
  | .join _ ⟨_, _, t, _⟩ => t.keys c
  | .select _ ⟨_, f, _, _, _, g, _, _⟩ => match g with
    | [] => Source.keysAll c f
    | g => g.map (·.expr)

/-- The keys of all entries of a FROM list. -/
def Source.keysAll (c : Catalog) : List Source → List Expr
  | [] => []
  | ⟨v, _, _, _⟩ :: rest => v.keys c ++ Source.keysAll c rest

end

namespace Select

/-- The grouping of a statement, or the keys of its sources. -/
def keys (c : Catalog) (s : Select) : List Expr :=
  match s.grouping with
  | [] => Source.keysAll c s.sources
  | g => g.map (·.expr)

end Select

namespace View

/-- The primary key of a view. The key of a statement belongs to a new node of it. -/
def key : View → Build Key
  | select i s => fun c => do
    let (v, c') ← (Build.selectView s).run c
    return (⟨v, (select i s).keys c⟩, c')
  | v => fun c => .ok (⟨v, v.keys c⟩, c)

end View

namespace Catalog

/-- A foreign key made of named columns of a table. -/
def foreignKey (c : Catalog) (t : Table) (names : List String) : Key × Catalog :=
  let (cols, c) := c.columnsNamed t names
  (⟨.table t, cols.map .column⟩, c)

end Catalog

end SqlCompose
