import SqlCompose.AliasPool
import SqlCompose.Dialect
import SqlCompose.Literal
import SqlCompose.Operator
/-!
The types of a query: expressions, the views they refer to, joins, scopes and statements. They refer to
each other, since a view may be a statement and an expression may be a view.

Tables compare by name. A table handle also has a slot, under which the catalogue keeps what was
registered for it. A join or statement used as a view is a node with a mark: two nodes with one mark are
the same node. Marks decide equality only where a NaN makes a node differ from itself.
-/

namespace SqlCompose

/-- A handle of a database table. -/
structure Table where
  /-- Where the catalogue keeps the columns and the key of this handle. -/
  slot : Nat
  name : String
  dialect : Dialect

instance : BEq Table := ⟨fun a b => a.name == b.name⟩

/-- A column of a table. -/
structure Column where
  table : Table
  name : String

instance : BEq Column := ⟨fun a b => a.table == b.table && a.name == b.name⟩

mutual

/-- An expression. -/
inductive Expr where
  | literal (value : Literal)
  | apply (operator : Operator) (args : List Expr)
  | column (column : Column)
  /-- All columns of a view. -/
  | star (source : View)
  /-- A value projected by a statement, known outside under a name. -/
  | projected (source : View) (name : Option String) (definition : Expr)
  /-- A view used as a value. -/
  | view (view : View)
  /-- A leaf resolved against a given view instead of its owner. -/
  | pinned (leaf : Expr) (target : View)
  /-- An expression that prints with its own scope. -/
  | within (scope : List Mapping) (body : Expr)

/-- A source of selectors. -/
inductive View where
  | table (table : Table)
  /-- A table whose columns were fixed when it was made from its model. -/
  | concrete (model : Table)
  | join (mark : Nat) (join : Join)
  | select (mark : Nat) (select : Select)

/-- An inner join: the target reached from the source. Leaves of the predicate that belong to the source
are pinned to it, leaves that belong to the target are plain. -/
structure Join where
  name : Option String
  source : View
  target : View
  predicate : Expr

/-- A view known under an alias. -/
structure Mapping where
  mark : Nat
  view : View
  label : String

/-- An entry of the FROM list. The scope is the one right after the entry was registered, and a join has
its accepted predicate. -/
structure Source where
  view : View
  label : String
  scope : List Mapping
  on : Option Expr

/-- A projected expression with the scope it was accepted in. -/
structure Projection where
  definition : Expr
  label : Option String
  scope : List Mapping

/-- A predicate or a grouping with the scope it was accepted in. -/
structure Condition where
  expr : Expr
  scope : List Mapping

/-- A SELECT statement. Its identity is shared by its copies. -/
structure Select where
  identity : Nat
  sources : List Source
  projections : List Projection
  filters : List Condition
  having : List Condition
  grouping : List Condition
  aliases : AliasPool
  scope : List Mapping

end

/-- The mappings of a statement, most recent first. -/
abbrev Scope := List Mapping

namespace Column

/-- The table of a column as a view. -/
def view (c : Column) : View := .table c.table

end Column

namespace Source

/-- Whether an entry prints as a join. -/
def isJoin (s : Source) : Bool := s.on.isSome

end Source

namespace View

/-- The name a source gets its alias from. -/
def name? : View → Option String
  | table t => some t.name
  | concrete m => some m.name
  | join _ ⟨n, _, t, _⟩ => n.or t.name?
  | select .. => none

/-- How tightly a view binds when it is used as a value. -/
def precedence : View → Nat
  | select .. => Precedence.statement
  | _ => Precedence.view

/-- How the names of a view are written: those of a statement as in its first source. -/
def dialect : View → Dialect
  | table t => t.dialect
  | concrete m => m.dialect
  | join _ ⟨_, _, t, _⟩ => t.dialect
  | select _ ⟨_, [], _, _, _, _, _, _⟩ => {}
  | select _ ⟨_, ⟨v, _, _, _⟩ :: _, _, _, _, _, _, _⟩ => v.dialect

end View

namespace Expr

/-- How tightly an expression binds. -/
def precedence : Expr → Nat
  | apply op _ => op.precedence
  | view v => v.precedence
  | pinned e _ => e.precedence
  | within _ e => e.precedence
  | _ => Precedence.atom

/-- The name an expression asks for when it is projected. -/
def name? : Expr → Option String
  | column c => some c.name
  | projected _ n _ => n
  | pinned e _ => e.name?
  | within _ e => e.name?
  | _ => none

/-- The name the database gives to an expression that is projected without an alias. -/
def systemName? : Expr → Option String
  | column c => some c.name
  | projected _ n _ => n
  | star _ => some "*"
  | pinned e _ => e.systemName?
  | within _ e => e.systemName?
  | _ => none

/-- Leaves are what a scope resolves. -/
def isLeaf : Expr → Bool
  | column _ => true
  | star _ => true
  | projected .. => true
  | pinned .. => true
  | _ => false

/-- The view that owns a plain leaf. -/
def owner? : Expr → Option View
  | column c => some c.view
  | star v => some v
  | projected v _ _ => some v
  | _ => none

/-- A leaf without its pin. -/
def unpinned : Expr → Expr
  | pinned e _ => e
  | e => e

mutual

/-- The leaves of an expression, from left to right. -/
def leaves : Expr → List Expr
  | apply _ args => leavesAll args
  | within _ e => e.leaves
  | literal _ => []
  | view _ => []
  | column c => [column c]
  | star v => [star v]
  | projected v n d => [projected v n d]
  | pinned e v => [pinned e v]

/-- The leaves of all arguments. -/
def leavesAll : List Expr → List Expr
  | [] => []
  | e :: es => e.leaves ++ leavesAll es

end

mutual

/-- The expression with every leaf replaced. -/
def mapLeaves (f : Expr → Expr) : Expr → Expr
  | apply op args => apply op (mapLeavesAll f args)
  | within s e => within s (e.mapLeaves f)
  | literal v => literal v
  | view v => view v
  | column c => f (column c)
  | star v => f (star v)
  | projected v n d => f (projected v n d)
  | pinned e v => f (pinned e v)

/-- All arguments with every leaf replaced. -/
def mapLeavesAll (f : Expr → Expr) : List Expr → List Expr
  | [] => []
  | e :: es => e.mapLeaves f :: mapLeavesAll f es

end

/-- A leaf pinned to a view, whatever it was pinned to before. -/
def pinLeaf (target : View) (leaf : Expr) : Expr := pinned leaf.unpinned target

/-- The expression with every leaf pinned to a view. It tells apart two instances of one table, such as
the sides of a self-join. -/
def pin (e : Expr) (target : View) : Expr := e.mapLeaves (pinLeaf target)

/-- The part of an expression that defines its value: pins, scopes and references stripped. -/
def core : Expr → Expr
  | pinned e _ => e.core
  | within _ e => e.core
  | projected _ _ d => d.core
  | e => e

mutual

/-- The canonical form of an expression: stripped at every level of its operators. -/
def canonical : Expr → Expr
  | pinned e _ => e.canonical
  | within _ e => e.canonical
  | projected _ _ d => d.canonical
  | apply op args => apply op (canonicalAll args)
  | literal v => literal v
  | column c => column c
  | star v => star v
  | view v => view v

/-- The canonical forms of all arguments. -/
def canonicalAll : List Expr → List Expr
  | [] => []
  | e :: es => e.canonical :: canonicalAll es

end

end Expr

namespace Projection

/-- The name a result column is known by. -/
def name? (p : Projection) : Option String := p.label.or p.definition.systemName?

/-- The alias to be printed, if one is needed. A star has none, and a leaf needs none when the database
already gives it that name. -/
def printedAlias? (p : Projection) : Option String :=
  match p.label, p.definition with
  | none, _ => none
  | some _, .star _ => none
  | some a, e => if e.isLeaf && e.systemName? == some a then none else some a

end Projection

end SqlCompose
