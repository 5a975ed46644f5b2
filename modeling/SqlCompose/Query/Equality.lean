import SqlCompose.Query.Basic
/-!
Equality of expressions, views, joins and statements. Expressions compare by their cores, so a pinned
leaf equals the plain one and a reference equals what it refers to. Views that are nodes are equal when
they are the same node or have equal contents. Statements are equal when they are copies of one statement
with equal sources, predicates and grouping; their projections do not count. Since a NaN equals nothing,
equality is not reflexive.
-/

namespace SqlCompose

mutual

/-- Equality of expressions, by recursion on the first. -/
def Expr.beq : Expr → Expr → Bool
  | .literal v, b => match b.core with
    | .literal w => v == w
    | _ => false
  | .apply op as, b => match b.core with
    | .apply op' bs => op == op' && Expr.beqAll as bs
    | _ => false
  | .column c, b => match b.core with
    | .column d => c == d
    | _ => false
  | .star v, b => match b.core with
    | .star w => v.beq w
    | _ => false
  | .view v, b => match b.core with
    | .view w => v.beq w
    | _ => false
  | .projected _ _ d, b => d.beq b
  | .pinned e _, b => e.beq b
  | .within _ e, b => e.beq b

/-- Equality of lists of expressions. -/
def Expr.beqAll : List Expr → List Expr → Bool
  | [], [] => true
  | a :: as, b :: bs => a.beq b && Expr.beqAll as bs
  | _, _ => false

/-- Equality of views. -/
def View.beq : View → View → Bool
  | .table t, .table u => t == u
  | .concrete m, .concrete n => m == n
  | .join i j, .join k l => i == k || j.beq l
  | .select i s, .select k r => i == k || s.beq r
  | _, _ => false

/-- Equality of joins. -/
def Join.beq : Join → Join → Bool
  | ⟨n, s, t, p⟩, ⟨n', s', t', p'⟩ => n == n' && s.beq s' && t.beq t' && p.beq p'

/-- Equality of statements. -/
def Select.beq : Select → Select → Bool
  | ⟨i, f, _, w, h, g, _, _⟩, r =>
    i == r.identity && Source.beqAll f r.sources && Condition.beqAll w r.filters
      && Condition.beqAll h r.having && Condition.beqAll g r.grouping

/-- Equality of FROM lists, by views and aliases. -/
def Source.beqAll : List Source → List Source → Bool
  | [], [] => true
  | ⟨v, a, _, _⟩ :: as, b :: bs => v.beq b.view && a == b.label && Source.beqAll as bs
  | _, _ => false

/-- Equality of lists of conditions, whatever their scopes. -/
def Condition.beqAll : List Condition → List Condition → Bool
  | [], [] => true
  | ⟨e, _⟩ :: as, b :: bs => e.beq b.expr && Condition.beqAll as bs
  | _, _ => false

end

instance : BEq Expr := ⟨Expr.beq⟩

instance : BEq View := ⟨View.beq⟩

instance : BEq Join := ⟨Join.beq⟩

instance : BEq Select := ⟨Select.beq⟩

/-- Scopes are equal when they are the same chain of mappings. -/
def sameScope : Scope → Scope → Bool
  | [], [] => true
  | a :: _, b :: _ => a.mark == b.mark
  | _, _ => false

end SqlCompose
