import SqlCompose.Print.Piece
import SqlCompose.Query.Scope
import SqlCompose.Query.Selector
/-!
Printing expressions, views and statements. A leaf prints with the alias its scope gives it, each clause of
a statement with the scope it was accepted in, and a view or argument that binds looser than what stands
around it in parentheses. A statement without projections lists every selector of its sources that prints.
-/

namespace SqlCompose

namespace Operator

/-- The pieces of an operator from the binding strengths and pieces of its arguments. -/
def arrange (op : Operator) (args : List (Nat × List Piece)) : List Piece :=
  let own := args.map fun (strength, ps) => Piece.enclosed op.precedence strength ps
  match op.fixity with
  | .before => .word op.symbol :: own.flatMap (.word " " :: ·)
  | .behind => own.flatMap (· ++ [.word " "]) ++ [.word op.symbol]
  | .call =>
    let opening := if op = countDistinct then "(DISTINCT " else "("
    .word op.symbol :: .word opening :: [Piece.word ","].intercalate (args.map (·.2)) ++ [.word ")"]
  | .between => [Piece.word op.symbol].intercalate own
  | .spaced =>
    if op = isIn then
      match own, args with
      | value :: _, _ :: list =>
        value ++ .word " IN (" :: [Piece.word ","].intercalate (list.map (·.2)) ++ [.word ")"]
      | _, _ => []
    else [Piece.word " ", .word op.symbol, .word " "].intercalate own

end Operator

namespace Expr

/-- A leaf without its pin, qualified if its source is known. -/
def leafPieces (qualifier : Option String) : Expr → List Piece
  | column c => [.reference qualifier c.name c.table.dialect]
  | star _ => [.star qualifier]
  | projected v (some name) _ => [.reference qualifier name v.dialect]
  | projected v none _ => [.fault (.unnamedReference v.describe)]
  | e => [.fault (.notSupported (.printReference e.describe))]

/-- A leaf as resolved. An unresolved leaf is a fault and prints without an alias. -/
def resolvedPieces (leaf : Expr) : Except Error Mapping → List Piece
  | .ok m => leafPieces (some m.label) leaf
  | .error e => .faultHere e :: leafPieces none leaf

/-- A leaf in a scope. -/
def leafPiecesIn (s : Scope) (leaf : Expr) : List Piece :=
  leaf.unpinned.resolvedPieces (s.resolveLeaf leaf)

/-- Whether a leaf prints in a scope without a fault. -/
def printsIn (s : Scope) (leaf : Expr) : Bool := !Piece.anyFaulty (leafPiecesIn s leaf)

end Expr

/-- Predicates joined by a conjunction. One predicate needs no parentheses. -/
def conjunctionPieces : List (Nat × List Piece) → List Piece
  | [(_, ps)] => ps
  | conditions => [Piece.word " AND "].intercalate
      (conditions.map fun (strength, ps) => Piece.enclosed Precedence.conjunction strength ps)

/-- Entries of a list, each behind a blank and with a comma between them. -/
def listPieces (entries : List (List Piece)) : List Piece :=
  [Piece.word ","].intercalate (entries.map (.word " " :: ·))

/-- A clause that is left out when it has no entries. -/
def clausePieces (keyword : String) (conditions : List (Nat × List Piece))
    (body : List (Nat × List Piece) → List Piece) : List Piece :=
  if conditions.isEmpty then [] else .word keyword :: body conditions

namespace Projection

/-- The pieces of a projection from those of its definition. -/
def aliased (p : Projection) (definition : List Piece) : List Piece :=
  match p.printedAlias? with
  | some a => definition ++ [.word " AS ", .label a]
  | none => definition

end Projection

namespace View

/-- A view as a source: a statement stands in parentheses. -/
def asSource (v : View) (ps : List Piece) : List Piece :=
  if v.precedence < Precedence.view then Piece.parenthesised ps else ps

end View

namespace Source

/-- What a source contributes to a statement without projections: its selectors that print, named from the
pool of aliases, or all its columns when there are none. -/
def defaultProjections (c : Catalog) (pool : AliasPool) (s : Source) : List Projection × AliasPool :=
  let selectors := (s.view.selectors c).filter (Expr.printsIn s.scope)
  if selectors.isEmpty then ([⟨.star s.view, none, s.scope⟩], pool)
  else selectors.foldl
    (fun (ps, pool) e =>
      let (a, pool) := pool.projectionAlias e.name?
      (ps ++ [⟨e, a, s.scope⟩], pool))
    ([], pool)

/-- What the sources contribute, one after the other. -/
def defaultProjectionsAll (c : Catalog) (pool : AliasPool) : List Source → List Projection
  | [] => []
  | s :: rest =>
    let (ps, pool) := s.defaultProjections c pool
    ps ++ defaultProjectionsAll c pool rest

end Source

mutual

/-- The pieces of an expression in a scope. -/
def Expr.pieces (c : Catalog) (s : Scope) : Expr → List Piece
  | .literal v => [.literal v]
  | .apply op args => op.arrange (Expr.piecesAll c s args)
  | .column col => Expr.leafPiecesIn s (.column col)
  | .star v => Expr.leafPiecesIn s (.star v)
  | .projected v n d => Expr.leafPiecesIn s (.projected v n d)
  | .pinned e v => Expr.leafPiecesIn s (.pinned e v)
  | .within s' e => e.pieces c s'
  | .view v => v.pieces c s

/-- The binding strengths and pieces of all arguments. -/
def Expr.piecesAll (c : Catalog) (s : Scope) : List Expr → List (Nat × List Piece)
  | [] => []
  | e :: es => (e.precedence, e.pieces c s) :: Expr.piecesAll c s es

/-- The pieces of a view used as a value. -/
def View.pieces (c : Catalog) (s : Scope) : View → List Piece
  | .table t => [.name t.name t.dialect]
  | .concrete m => [.name m.name m.dialect]
  | .join _ ⟨_, _, t, e⟩ => .word "INNER JOIN " :: t.pieces c s ++ .word " ON " :: e.pieces c s
  | .select _ q => [.statement (q.pieces c)]

/-- The pieces of a statement. -/
def Select.pieces (c : Catalog) : Select → List Piece
  | ⟨_, f, p, w, h, g, pool, _⟩ =>
    let projections := if p.isEmpty then
        (Source.defaultProjectionsAll c pool f).map fun p =>
          p.aliased (p.definition.leafPiecesIn p.scope)
      else Projection.piecesAll c p
    let sources := if f.isEmpty then [.fault .missingSource] else Source.piecesAll c f
    .word "SELECT" :: listPieces projections ++ .word " FROM" :: sources
      ++ clausePieces " WHERE " (Condition.piecesAll c w) conjunctionPieces
      ++ clausePieces " GROUP BY" (Condition.piecesAll c g) (fun cs => listPieces (cs.map (·.2)))
      ++ clausePieces " HAVING " (Condition.piecesAll c h) conjunctionPieces

/-- The pieces of each projection. -/
def Projection.piecesAll (c : Catalog) : List Projection → List (List Piece)
  | [] => []
  | ⟨e, a, s⟩ :: rest => Projection.aliased ⟨e, a, s⟩ (e.pieces c s) :: Projection.piecesAll c rest

/-- The pieces of a FROM list. A comma stands before each entry but the first and the joins. -/
def Source.piecesAll (c : Catalog) : List Source → List Piece
  | [] => []
  | ⟨v, a, s, o⟩ :: rest =>
    .word " " :: Source.pieces c ⟨v, a, s, o⟩ ++ Source.piecesAfter c rest

/-- The pieces of the entries behind the first. -/
def Source.piecesAfter (c : Catalog) : List Source → List Piece
  | [] => []
  | ⟨v, a, s, o⟩ :: rest =>
    (if o.isSome then [.word " "] else [.word ",", .word " "])
      ++ Source.pieces c ⟨v, a, s, o⟩ ++ Source.piecesAfter c rest

/-- The pieces of an entry of a FROM list. -/
def Source.pieces (c : Catalog) : Source → List Piece
  | ⟨.join _ ⟨_, _, t, _⟩, a, s, some e⟩ =>
    .word "INNER JOIN " :: t.asSource (t.pieces c s)
      ++ .word " " :: .label a :: .word " ON " :: e.pieces c s
  | ⟨v, a, s, _⟩ =>
    v.asSource (v.pieces c s) ++ [.word " ", .label a]

/-- The binding strengths and pieces of some conditions, each in its own scope. -/
def Condition.piecesAll (c : Catalog) : List Condition → List (Nat × List Piece)
  | [] => []
  | ⟨e, s⟩ :: rest => (e.precedence, e.pieces c s) :: Condition.piecesAll c rest

end

namespace Select

/-- The printout of a statement. -/
def printout (c : Catalog) (q : Select) : Printout := ({} : Printout).putAll (q.pieces c)

/-- The text of a statement. -/
def print (c : Catalog) (q : Select) : Except Error String := (q.printout c).result

end Select

end SqlCompose
