import SqlCompose.Error
import SqlCompose.Query.Basic
/-!
The catalogue: for every table handle the columns registered so far and the declared primary key, and the
supply of marks. Handles with one slot share a registry; a copy of a table gets a slot of its own. A column
is registered by its first use and keeps its place.
-/

namespace SqlCompose

/-- What is known of the table behind a handle. -/
structure Registry where
  /-- The columns, in the order of their registration. -/
  columns : List String := []
  primaryKey : Option (List String) := none

namespace Registry

/-- The registry with a column, added behind the others unless it is there. -/
def register (r : Registry) (name : String) : Registry :=
  if r.columns.contains name then r else { r with columns := r.columns ++ [name] }

/-- The registry with some columns, registered in their order. -/
def registerAll (r : Registry) (names : List String) : Registry := names.foldl register r

end Registry

/-- The registries of all tables and the next unused mark. -/
structure Catalog where
  registries : Array Registry := #[]
  nextMark : Nat := 0

namespace Catalog

/-- The registry of a table. -/
def registry (c : Catalog) (t : Table) : Registry := c.registries[t.slot]?.getD {}

/-- Replace the registry of a table. -/
def update (c : Catalog) (t : Table) (f : Registry → Registry) : Catalog :=
  { c with registries := c.registries.modify t.slot f }

/-- A handle with a registry of its own. -/
def allocate (c : Catalog) (name : String) (dialect : Dialect) (r : Registry) : Table × Catalog :=
  (⟨c.registries.size, name, dialect⟩, { c with registries := c.registries.push r })

/-- A new table. -/
def newTable (c : Catalog) (name : String) (dialect : Dialect) : Table × Catalog :=
  c.allocate name dialect {}

/-- An independent table with the same name, columns and key. -/
def copyTable (c : Catalog) (t : Table) : Table × Catalog :=
  c.allocate t.name t.dialect (c.registry t)

/-- A mark that no node has yet. -/
def freshMark (c : Catalog) : Nat × Catalog := (c.nextMark, { c with nextMark := c.nextMark + 1 })

/-- The registered columns of a table. -/
def columns (c : Catalog) (t : Table) : List Column := (c.registry t).columns.map (⟨t, ·⟩)

def hasColumn (c : Catalog) (t : Table) (name : String) : Bool :=
  (c.registry t).columns.contains name

/-- The columns of the declared primary key, none if there is no key. -/
def keyColumns (c : Catalog) (t : Table) : List Column :=
  ((c.registry t).primaryKey.getD []).map (⟨t, ·⟩)

/-- A column of a table, registered on first use. -/
def column (c : Catalog) (t : Table) (name : String) : Column × Catalog :=
  (⟨t, name⟩, c.update t (·.register name))

/-- A column of a fixed table, which must be one of its model's. -/
def fixedColumn (c : Catalog) (model : Table) (name : String) : Except Error (Column × Catalog) :=
  if c.hasColumn model name then .ok (c.column model name)
  else .error (.undefinedColumn name model.name)

/-- Some columns of a table, registered in their order. -/
def columnsNamed (c : Catalog) (t : Table) (names : List String) : List Column × Catalog :=
  (names.map (⟨t, ·⟩), c.update t (·.registerAll names))

/-- Declare the primary key of a table that has none, by the names of its columns. -/
def declareKey (c : Catalog) (t : Table) (names : List String) : Except Error Catalog :=
  if (c.registry t).primaryKey.isSome then .error (.keyAlreadyDeclared t.name)
  else if names.isEmpty then .error .emptyList
  else .ok (c.update t fun r => { r.registerAll names with primaryKey := some names })

/-- Declare the primary key of a table from columns, which must be columns of a table of that name. -/
def declareKeyColumns (c : Catalog) (t : Table) (cols : List Column) : Except Error Catalog :=
  if (c.registry t).primaryKey.isSome then .error (.keyAlreadyDeclared t.name)
  else match cols.find? fun col => !(col.table == t) with
    | some foreign => .error (.foreignColumn foreign.name t.name)
    | none => c.declareKey t (cols.map (·.name))

end Catalog

/-- Steps that build queries: they read and extend the catalogue, and may fail. -/
abbrev Build := StateT Catalog (Except Error)

namespace Build

/-- A mark that no node has yet. -/
def mark : Build Nat := fun c => .ok c.freshMark

/-- A join as a new node. -/
def joinView (j : Join) : Build View := do return .join (← mark) j

/-- A statement as a new node. -/
def selectView (s : Select) : Build View := do return .select (← mark) s

/-- A statement with nothing in it. -/
def emptySelect : Build Select := do return ⟨← mark, [], [], [], [], [], {}, []⟩

/-- A fixed table with the present columns and key of its model. -/
def concrete (model : Table) : Build View := fun c =>
  let (t, c) := c.copyTable model
  .ok (.concrete t, c)

/-- A view that shares no registry with a table; other views are their own copies. -/
def copyView : View → Build View
  | .table t => fun c =>
    let (t, c) := c.copyTable t
    .ok (.table t, c)
  | v => pure v

mutual

/-- An expression that shares no registry with the tables used as values in it. -/
def copyExpr : Expr → Build Expr
  | .view v => return .view (← copyView v)
  | .apply op args => return .apply op (← copyAll args)
  | e => pure e

/-- Copies of all arguments. -/
def copyAll : List Expr → Build (List Expr)
  | [] => pure []
  | e :: es => return (← copyExpr e) :: (← copyAll es)

end

end Build

end SqlCompose
