import SqlCompose.Query.ViewSet
/-!
Texts that describe expressions, views and scopes in messages.
-/

namespace SqlCompose

/-- Texts with a comma and a blank between them. -/
def commaList (texts : List String) : String := ", ".intercalate texts

/-- The descriptions of the distinct views of a list. -/
def distinctTexts : List (View × String) → List (View × String) :=
  List.foldl (fun kept p => if kept.any (·.1 == p.1) then kept else kept ++ [p]) []

mutual

/-- The description of an expression. -/
def Expr.describe : Expr → String
  | .literal v => v.describe
  | .apply op args => op.symbol ++ "(" ++ commaList (Expr.describeAll args) ++ ")"
  | .column c => "[Column '" ++ c.table.name ++ "'.'" ++ c.name ++ "']"
  | .star v => "[STAR " ++ v.describe ++ "]"
  | .projected _ n d => "[Reference to '" ++ n.getD "$" ++ "'=" ++ d.describe ++ "]"
  | .view v => v.describe
  | .pinned e v => e.describe ++ "@" ++ v.describe
  | .within _ e => e.describe

/-- The descriptions of all arguments. -/
def Expr.describeAll : List Expr → List String
  | [] => []
  | e :: es => e.describe :: Expr.describeAll es

/-- The description of a view. A statement is described by its distinct sources. -/
def View.describe : View → String
  | .table t => "[TABLE '" ++ t.name ++ "']"
  | .concrete m => "[CONCRETE TABLE '" ++ m.name ++ "']"
  | .join _ ⟨n, s, t, _⟩ =>
    let named := match n with
      | some name => "'" ++ name ++ "' "
      | none => ""
    "[JOIN " ++ named ++ s.describe ++ " -> " ++ t.describe ++ "]"
  | .select _ ⟨_, f, _, _, _, _, _, _⟩ =>
    "[SELECT \x7b" ++ commaList ((distinctTexts (Source.describeAll f)).map (·.2)) ++ "\x7d]"

/-- The views of a FROM list with their descriptions. -/
def Source.describeAll : List Source → List (View × String)
  | [] => []
  | ⟨v, _, _, _⟩ :: rest => (v, v.describe) :: Source.describeAll rest

end

/-- The description of a set of views. -/
def ViewSet.describe (s : ViewSet) : String :=
  "\x7b" ++ commaList (s.views.map View.describe) ++ "\x7d"

/-- The description of a mapping. -/
def Mapping.describe (m : Mapping) : String := m.view.describe ++ "->" ++ m.label

/-- The description of a scope. -/
def Scope.describe (s : Scope) : String := "[" ++ commaList (s.map Mapping.describe) ++ "]"

end SqlCompose
