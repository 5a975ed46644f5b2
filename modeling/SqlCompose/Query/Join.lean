import SqlCompose.Query.Combine
/-!
Making joins and walking them. A leaf of the predicate that only the source can own is pinned to the
source, and a leaf that the target can own stays plain.
-/

namespace SqlCompose

/-- The side of a join that a leaf of its predicate belongs to. -/
inductive JoinSide
  | target
  | source
  | neither
deriving DecidableEq

namespace JoinSide

/-- The side of an unpinned leaf with the given owner. Equal owners come before compatible ones, and the
target before the source. -/
def ofOwner (source target owner : View) : JoinSide :=
  if owner == target then .target
  else if owner == source then .source
  else if owner.compatible target then .target
  else if owner.compatible source then .source
  else .neither

end JoinSide

namespace Join

/-- A leaf of the predicate of a join: pinned to the source if it belongs there. A leaf that was pinned
before keeps its pin. -/
def attachLeaf (source target : View) (leaf : Expr) : Expr :=
  match leaf, leaf.owner? with
  | .pinned .., _ => leaf
  | _, none => leaf
  | _, some owner => match JoinSide.ofOwner source target owner with
    | .source => leaf.pinLeaf source
    | _ => leaf

/-- Whether a leaf belongs to neither side. -/
def isForeignLeaf (source target : View) (leaf : Expr) : Bool :=
  match leaf, leaf.owner? with
  | .pinned .., _ => false
  | _, none => false
  | _, some owner => JoinSide.ofOwner source target owner == .neither

/-- Whether a leaf stands for the source: pinned to it before, or belonging to it. -/
def isSourceLeaf (source target : View) (leaf : Expr) : Bool :=
  match leaf, leaf.owner? with
  | .pinned _ v, _ => v == source
  | _, none => false
  | _, some owner => JoinSide.ofOwner source target owner == .source

/-- Whether the views of a predicate fit a join: one view when the sides are compatible, or two that the
sides are compatible with. -/
def fits (source target : View) (views : ViewSet) : Bool :=
  match views.views.length with
  | 1 => source.compatible target
  | 2 => views.compatible source && views.compatible target
  | _ => false

/-- A join of a source to a target. -/
def make (name : Option String) (source target : View) (predicate : Expr) : Except Error Join :=
  let incompatible := Error.incompatibleJoin source.describe target.describe predicate.views.describe
  if !fits source target predicate.views then .error incompatible
  else if predicate.leaves.any (isForeignLeaf source target) then .error incompatible
  else if !predicate.leaves.any (isSourceLeaf source target) && source.compatible target then
    .error (.ambiguousJoin source.describe target.describe .unboundSource)
  else .ok ⟨name, source, target, predicate.mapLeaves (attachLeaf source target)⟩

/-- A join whose source is the only view of the predicate that is not compatible with the target. -/
def infer (target : View) (predicate : Expr) : Except Error Join :=
  match predicate.views.views.filter fun v => !v.compatible target with
  | [source] => make none source target predicate
  | candidates => .error (.sourceNotInferred target.describe candidates.length)

/-- A leaf seen from the other side. -/
def flipLeaf (source : View) : Expr → Expr
  | .pinned e _ => e
  | leaf => leaf.pinLeaf source

/-- The same join walked the other way round. -/
def opposite (j : Join) : Join :=
  ⟨none, j.target, j.source, j.predicate.mapLeaves (flipLeaf j.target)⟩

/-- A leaf whose pin, if it has one, is moved to another source. -/
def moveLeaf (source : View) : Expr → Expr
  | .pinned e _ => .pinned e source
  | leaf => leaf

/-- The join from another source, which must be compatible with the present one. -/
def changeSource (j : Join) (source : View) : Except Error Join :=
  if source.compatible j.source then
    .ok { j with source := source, predicate := j.predicate.mapLeaves (moveLeaf source) }
  else .error (.incompatibleJoin source.describe j.target.describe j.predicate.views.describe)

/-- A leaf pinned to the side it belongs to. -/
def settleLeaf (source target : View) : Expr → Expr
  | .pinned e _ => .pinned e source
  | leaf => leaf.pinLeaf target

/-- The predicate with both sides pinned to the given instances. -/
def between (j : Join) (source target : View) : Expr :=
  j.predicate.mapLeaves (settleLeaf source target)

end Join

namespace Catalog

/-- The join that reaches a table from the view of a foreign key: its primary key equals that key. -/
def joinByKey (c : Catalog) (t : Table) (foreign : Key) : Except Error Join :=
  match c.keyColumns t with
  | [] => .error (.missingKey t.name)
  | key => do
    let predicate ← Expr.equalsAll (key.map .column) foreign.keys
    Join.make none foreign.view (.table t) predicate

/-- A named join from a table to another instance of the target, by named columns of the table. They are
registered once the target is known to have a key, also when the join then fails. -/
def joinAs (c : Catalog) (t : Table) (name : String) (target : Table) (columns : List String) :
    Except Error Join × Catalog :=
  match c.keyColumns target with
  | [] => (.error (.missingKey target.name), c)
  | key =>
    let (foreign, c) := c.foreignKey t columns
    let join := do
      let predicate ← Expr.equalsAll (foreign.keys.map (Expr.pinLeaf (.table t))) (key.map .column)
      Join.make (some name) (.table t) (.table target) predicate
    (join, c)

end Catalog

end SqlCompose
