import SqlCompose.Error
import SqlCompose.Query.Describe
/-!
Resolving views in a scope. Mappings are tried from the most recent one. A plain leaf resolves by
compatibility, a pinned leaf prefers the mapping of exactly its view, and a reference to a projection
takes nothing but its own statement.
-/

namespace SqlCompose.Scope

/-- A scope with one more mapping on top. -/
def add (s : Scope) (mark : Nat) (view : View) (label : String) : Scope := ⟨mark, view, label⟩ :: s

/-- The cause of failure for a view that is not in scope. -/
def unresolved (s : Scope) (v : View) : Error := .unresolved v.describe s.describe

/-- The most recent mapping of a compatible view. -/
def resolve (s : Scope) (v : View) : Except Error Mapping :=
  match s.find? (·.view.compatible v) with
  | some m => .ok m
  | none => .error (s.unresolved v)

/-- The most recent mapping of an equal view, or else of a compatible one. -/
def resolvePinned (s : Scope) (v : View) : Except Error Mapping :=
  match s.find? (·.view == v) with
  | some m => .ok m
  | none => s.resolve v

/-- Whether a mapping is of exactly a view, possibly as the target of a join. -/
def isMappingOf (m : Mapping) (v : View) : Bool :=
  match m.view with
  | .join _ j => m.view == v || j.target == v
  | w => w == v

/-- The most recent mapping of exactly a view. -/
def resolveExact (s : Scope) (v : View) : Except Error Mapping :=
  match s.find? (isMappingOf · v) with
  | some m => .ok m
  | none => .error (s.unresolved v)

/-- The mapping a leaf belongs to. -/
def resolveLeaf (s : Scope) : Expr → Except Error Mapping
  | .pinned _ v => s.resolvePinned v
  | .projected v _ _ => s.resolveExact v
  | .column c => s.resolve c.view
  | .star v => s.resolve v
  | e => .error (.notSupported (.resolve e.describe))

def canResolve (s : Scope) (v : View) : Bool := (s.resolve v).isOk

end SqlCompose.Scope
