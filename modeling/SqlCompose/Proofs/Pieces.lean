import Mathlib.Data.List.Basic
import SqlCompose.Print.Query

/-!
Which pieces a query is printed in. What holds of every word, name, alias and constant, and of the pieces
of every leaf, holds of every piece of an expression, of a view and of a statement: operators, lists and
clauses only lay out what they are given.
-/

namespace SqlCompose

/-- What holds of the pieces that lay out a query. -/
structure Piece.Layout (P : Piece → Prop) : Prop where
  word : ∀ t, P (.word t)
  label : ∀ a, P (.label a)
  name : ∀ t d, P (.name t d)
  literal : ∀ v, P (.literal v)

namespace Piece

variable {P : Piece → Prop}

theorem forall_mem_cons {x : Piece} {ps : List Piece} (hx : P x) (h : ∀ y ∈ ps, P y) :
    ∀ y ∈ x :: ps, P y := List.forall_mem_cons.mpr ⟨hx, h⟩

theorem forall_mem_append {ps qs : List Piece} (hp : ∀ y ∈ ps, P y) (hq : ∀ y ∈ qs, P y) :
    ∀ y ∈ ps ++ qs, P y := List.forall_mem_append.mpr ⟨hp, hq⟩

theorem forall_mem_intercalate {sep : List Piece} (hsep : ∀ y ∈ sep, P y) :
    ∀ {ls : List (List Piece)}, (∀ l ∈ ls, ∀ y ∈ l, P y) → ∀ y ∈ sep.intercalate ls, P y
  | [], _ => fun y hy => absurd hy List.not_mem_nil
  | [l], h => by
      rw [List.intercalate_singleton]
      exact h l List.mem_cons_self
  | l :: l' :: ls, h => by
      rw [List.intercalate_cons_cons]
      refine forall_mem_append (forall_mem_append (h l List.mem_cons_self) hsep) ?_
      exact forall_mem_intercalate hsep fun x hx => h x (List.mem_cons_of_mem l hx)

namespace Layout

variable (hP : Layout P)
include hP

theorem parenthesised {ps : List Piece} (h : ∀ y ∈ ps, P y) : ∀ y ∈ parenthesised ps, P y :=
  forall_mem_append (forall_mem_cons (hP.word _) h) (List.forall_mem_singleton.mpr (hP.word _))

theorem enclosed {around own : Nat} {ps : List Piece} (h : ∀ y ∈ ps, P y) :
    ∀ y ∈ enclosed around own ps, P y := by
  rw [Piece.enclosed]
  split
  · exact hP.parenthesised h
  · exact h

theorem separated {sep : String} {ls : List (List Piece)} (h : ∀ l ∈ ls, ∀ y ∈ l, P y) :
    ∀ y ∈ [Piece.word sep].intercalate ls, P y :=
  forall_mem_intercalate (List.forall_mem_singleton.mpr (hP.word sep)) h

theorem arrange {op : Operator} {args : List (Nat × List Piece)}
    (h : ∀ a ∈ args, ∀ y ∈ a.2, P y) : ∀ y ∈ op.arrange args, P y := by
  have hown : ∀ l ∈ args.map fun a => Piece.enclosed op.precedence a.1 a.2, ∀ y ∈ l, P y := by
    intro l hl
    obtain ⟨a, ha, rfl⟩ := List.mem_map.mp hl
    exact hP.enclosed (h a ha)
  have hplain : ∀ l ∈ args.map (·.2), ∀ y ∈ l, P y := by
    intro l hl
    obtain ⟨a, ha, rfl⟩ := List.mem_map.mp hl
    exact h a ha
  have hclose : ∀ t, ∀ y ∈ [Piece.word t], P y := fun t => List.forall_mem_singleton.mpr (hP.word t)
  rw [Operator.arrange.eq_def]
  cases op.fixity with
  | before =>
      refine forall_mem_cons (hP.word _) fun y hy => ?_
      obtain ⟨l, hl, hy⟩ := List.mem_flatMap.mp hy
      exact forall_mem_cons (hP.word _) (hown l hl) y hy
  | behind =>
      refine forall_mem_append (fun y hy => ?_) (hclose _)
      obtain ⟨l, hl, hy⟩ := List.mem_flatMap.mp hy
      exact forall_mem_append (hown l hl) (hclose _) y hy
  | call =>
      exact forall_mem_cons (hP.word _) (forall_mem_append
        (forall_mem_cons (hP.word _) (hP.separated hplain)) (hclose _))
  | between => exact hP.separated hown
  | spaced =>
      by_cases hin : op = .isIn
      · simp only [hin, if_true]
        cases args with
        | nil => exact fun y hy => absurd hy List.not_mem_nil
        | cons a list =>
            have hvalue : ∀ y ∈ Piece.enclosed Operator.isIn.precedence a.1 a.2, P y :=
              hP.enclosed (h a List.mem_cons_self)
            have hlist : ∀ l ∈ list.map (·.2), ∀ y ∈ l, P y :=
              fun l hl => hplain l (List.mem_cons_of_mem a.2 hl)
            exact forall_mem_append (forall_mem_append hvalue
              (forall_mem_cons (hP.word _) (hP.separated hlist))) (hclose _)
      · simp only [hin, if_false]
        exact forall_mem_intercalate
          (forall_mem_cons (hP.word _) (forall_mem_cons (hP.word _) (hclose _))) hown

theorem conjunction {conditions : List (Nat × List Piece)}
    (h : ∀ k ∈ conditions, ∀ y ∈ k.2, P y) : ∀ y ∈ conjunctionPieces conditions, P y := by
  rw [conjunctionPieces.eq_def]
  split
  case h_1 n ps => exact h (n, ps) List.mem_cons_self
  case h_2 =>
      refine hP.separated fun l hl => ?_
      obtain ⟨k, hk, rfl⟩ := List.mem_map.mp hl
      exact hP.enclosed (h k hk)

theorem list {entries : List (List Piece)} (h : ∀ ps ∈ entries, ∀ y ∈ ps, P y) :
    ∀ y ∈ listPieces entries, P y := by
  refine hP.separated fun l hl => ?_
  obtain ⟨ps, hps, rfl⟩ := List.mem_map.mp hl
  exact forall_mem_cons (hP.word _) (h ps hps)

theorem clause {keyword : String} {conditions : List (Nat × List Piece)}
    {body : List (Nat × List Piece) → List Piece} (h : ∀ y ∈ body conditions, P y) :
    ∀ y ∈ clausePieces keyword conditions body, P y := by
  rw [clausePieces]
  split
  · exact fun y hy => absurd hy List.not_mem_nil
  · exact forall_mem_cons (hP.word _) h

theorem aliased {p : Projection} {ps : List Piece} (h : ∀ y ∈ ps, P y) :
    ∀ y ∈ p.aliased ps, P y := by
  rw [Projection.aliased]
  split
  case h_1 a ha =>
      exact forall_mem_append h (forall_mem_cons (hP.word _)
        (List.forall_mem_singleton.mpr (hP.label a)))
  case h_2 => exact h

theorem asSource {v : View} {ps : List Piece} (h : ∀ y ∈ ps, P y) : ∀ y ∈ v.asSource ps, P y := by
  rw [View.asSource]
  split
  · exact hP.parenthesised h
  · exact h

end Layout

end Piece

/-- What a query prints that is no layout: a leaf in its scope, raw if it stands in a join printed as a
value, or a statement used as a value or as a source. -/
inductive Occurrence where
  | leaf (scope : Scope) (leaf : Expr) (raw : Bool)
  | statement (body : Select)

/-- The pieces of an occurrence. -/
def Occurrence.pieces (c : Catalog) : Occurrence → List Piece
  | leaf s e _ => Expr.leafPiecesIn s e
  | statement q => [.statement (q.pieces c)]

mutual

/-- What an expression shows in a scope. -/
def Expr.occurrences (raw : Bool) (s : Scope) : Expr → List Occurrence
  | .literal _ => []
  | .apply _ args => Expr.occurrencesAll raw s args
  | .column c => [.leaf s (.column c) raw]
  | .star v => [.leaf s (.star v) raw]
  | .projected v n d => [.leaf s (.projected v n d) raw]
  | .pinned e v => [.leaf s (.pinned e v) raw]
  | .within s' e => e.occurrences raw s'
  | .view v => v.occurrences s

/-- What all arguments show. -/
def Expr.occurrencesAll (raw : Bool) (s : Scope) : List Expr → List Occurrence
  | [] => []
  | e :: es => e.occurrences raw s ++ Expr.occurrencesAll raw s es

/-- What a view shows as a value. -/
def View.occurrences (s : Scope) : View → List Occurrence
  | .table _ => []
  | .concrete _ => []
  | .join _ ⟨_, _, t, e⟩ => t.occurrences s ++ e.occurrences true s
  | .select _ q => [.statement q]

end

/-- What an entry of a FROM list shows. -/
def Source.occurrences : Source → List Occurrence
  | ⟨.join _ ⟨_, _, t, _⟩, _, s, some e⟩ => t.occurrences s ++ e.occurrences false s
  | ⟨v, _, s, _⟩ => v.occurrences s

/-- An entry that does not print as a join shows its view. -/
theorem Source.plain {src : Source} (h : src.view.isJoin = false ∨ src.on = none) :
    src.occurrences = src.view.occurrences src.scope ∧ ∀ c, Source.pieces c src =
      src.view.asSource (src.view.pieces c src.scope) ++ [.word " ", .label src.label] := by
  obtain ⟨v, a, s, on⟩ := src
  cases v with
  | table t => exact ⟨rfl, fun c => by rw [Source.pieces]; simp⟩
  | concrete t => exact ⟨rfl, fun c => by rw [Source.pieces]; simp⟩
  | select i q => exact ⟨rfl, fun c => by rw [Source.pieces]; simp⟩
  | join i j =>
      obtain rfl : on = none := h.resolve_left (by simp [View.isJoin])
      exact ⟨by simp [Source.occurrences], fun c => by rw [Source.pieces]; simp⟩

/-- What a view shows in a FROM list: a join shows its target there, and its predicate apart. -/
def View.listed (s : Scope) : View → List Occurrence
  | .join _ j => j.target.occurrences s
  | v => v.occurrences s

theorem View.listed_of_not_join {s : Scope} {v : View} (h : v.isJoin = false) :
    v.listed s = v.occurrences s := by
  cases v with
  | join i j => cases h
  | table t => rfl
  | concrete t => rfl
  | select i q => rfl

theorem Source.mem_occurrences {src : Source} {o : Occurrence} (ho : o ∈ src.occurrences)
    (hjoin : src.view.isJoin = true → src.on.isSome = true) :
    o ∈ src.view.listed src.scope ∨ ∃ e, src.on = some e ∧ o ∈ e.occurrences false src.scope := by
  by_cases hj : src.view.isJoin = true
  · obtain ⟨e, he⟩ := Option.isSome_iff_exists.mp (hjoin hj)
    obtain ⟨v, a, s, on⟩ := src
    obtain rfl : on = some e := he
    cases v with
    | join i j =>
        obtain ⟨n, w, t, p⟩ := j
        rcases List.mem_append.mp ho with ho | ho
        · exact Or.inl ho
        · exact Or.inr ⟨e, rfl, ho⟩
    | table t => cases hj
    | concrete t => cases hj
    | select i q => cases hj
  · rw [Bool.not_eq_true] at hj
    rw [(Source.plain (Or.inl hj)).1] at ho
    exact Or.inl (View.listed_of_not_join hj ▸ ho)

/-! The pieces of lists, entry by entry. -/

theorem Expr.piecesAll_eq_map {c : Catalog} {s : Scope} : ∀ es : List Expr,
    Expr.piecesAll c s es = es.map fun e => (e.precedence, e.pieces c s)
  | [] => rfl
  | e :: es => by rw [piecesAll, piecesAll_eq_map es, List.map_cons]

theorem Projection.piecesAll_eq_map {c : Catalog} : ∀ ps : List Projection,
    Projection.piecesAll c ps = ps.map fun p => p.aliased (p.definition.pieces c p.scope)
  | [] => rfl
  | ⟨e, a, s⟩ :: ps => by rw [piecesAll, piecesAll_eq_map ps, List.map_cons]

theorem Condition.piecesAll_eq_map {c : Catalog} : ∀ cs : List Condition,
    Condition.piecesAll c cs = cs.map fun k => (k.expr.precedence, k.expr.pieces c k.scope)
  | [] => rfl
  | ⟨e, s⟩ :: cs => by rw [piecesAll, piecesAll_eq_map cs, List.map_cons]

namespace Condition

/-- What a condition shows. -/
def occurrences (k : Condition) : List Occurrence := k.expr.occurrences false k.scope

end Condition

namespace Select

/-- The projections that stand for a statement without any. -/
def defaults (c : Catalog) (s : Select) : List Projection :=
  Source.defaultProjectionsAll c s.aliases s.sources

/-- The entries between SELECT and FROM. -/
def entries (c : Catalog) (s : Select) : List (List Piece) :=
  if s.projections.isEmpty then
    (s.defaults c).map fun p => p.aliased (p.definition.leafPiecesIn p.scope)
  else Projection.piecesAll c s.projections

/-- What the entries between SELECT and FROM show. -/
def projected (c : Catalog) (s : Select) : List Occurrence :=
  if s.projections.isEmpty then (s.defaults c).map fun p => .leaf p.scope p.definition false
  else s.projections.flatMap fun p => p.definition.occurrences false p.scope

/-- What a statement shows. -/
def occurrences (c : Catalog) (s : Select) : List Occurrence :=
  s.projected c ++ s.sources.flatMap Source.occurrences
    ++ (s.filters ++ s.grouping ++ s.having).flatMap Condition.occurrences

theorem pieces_eq (c : Catalog) (s : Select) : s.pieces c =
    .word "SELECT" :: listPieces (s.entries c) ++ .word " FROM" ::
        (if s.sources.isEmpty then [.fault .missingSource] else Source.piecesAll c s.sources)
      ++ clausePieces " WHERE " (Condition.piecesAll c s.filters) conjunctionPieces
      ++ clausePieces " GROUP BY" (Condition.piecesAll c s.grouping) (fun cs => listPieces (cs.map (·.2)))
      ++ clausePieces " HAVING " (Condition.piecesAll c s.having) conjunctionPieces := by
  cases s with
  | mk => rw [Select.pieces]; rfl

end Select

namespace Piece.Layout

variable {P : Piece → Prop} {c : Catalog}

mutual

theorem expr (hP : Layout P) : ∀ {e : Expr} {raw : Bool} {s : Scope},
    (∀ o ∈ e.occurrences raw s, ∀ x ∈ o.pieces c, P x) → ∀ x ∈ e.pieces c s, P x
  | .literal v, raw, s, _ => List.forall_mem_singleton.mpr (hP.literal v)
  | .apply op args, raw, s, h => hP.arrange (hP.exprs h)
  | .column col, raw, s, h => h _ List.mem_cons_self
  | .star v, raw, s, h => h _ List.mem_cons_self
  | .projected v n d, raw, s, h => h _ List.mem_cons_self
  | .pinned e v, raw, s, h => h _ List.mem_cons_self
  | .within s' e, raw, s, h => by
      rw [Expr.pieces]
      exact hP.expr (e := e) h
  | .view v, raw, s, h => by
      rw [Expr.pieces]
      exact hP.view (v := v) h

theorem exprs (hP : Layout P) : ∀ {es : List Expr} {raw : Bool} {s : Scope},
    (∀ o ∈ Expr.occurrencesAll raw s es, ∀ x ∈ o.pieces c, P x) →
      ∀ a ∈ Expr.piecesAll c s es, ∀ x ∈ a.2, P x
  | [], raw, s, _ => fun a ha => absurd ha List.not_mem_nil
  | e :: es, raw, s, h => by
      rw [Expr.occurrencesAll, List.forall_mem_append] at h
      rw [Expr.piecesAll, List.forall_mem_cons]
      exact ⟨hP.expr h.1, hP.exprs h.2⟩

theorem view (hP : Layout P) : ∀ {v : View} {s : Scope},
    (∀ o ∈ v.occurrences s, ∀ x ∈ o.pieces c, P x) → ∀ x ∈ v.pieces c s, P x
  | .table t, s, _ => List.forall_mem_singleton.mpr (hP.name t.name t.dialect)
  | .concrete t, s, _ => List.forall_mem_singleton.mpr (hP.name t.name t.dialect)
  | .join _ ⟨_, _, t, e⟩, s, h => by
      rw [View.occurrences, List.forall_mem_append] at h
      rw [View.pieces]
      exact forall_mem_append (forall_mem_cons (hP.word _) (hP.view h.1))
        (forall_mem_cons (hP.word _) (hP.expr h.2))
  | .select _ q, s, h => by
      rw [View.pieces]
      exact h _ List.mem_cons_self

end

theorem source (hP : Layout P) {src : Source} (h : ∀ o ∈ src.occurrences, ∀ x ∈ o.pieces c, P x) :
    ∀ x ∈ Source.pieces c src, P x := by
  by_cases hplain : src.view.isJoin = false ∨ src.on = none
  · obtain ⟨hocc, hpieces⟩ := Source.plain hplain
    rw [hocc] at h
    rw [hpieces]
    exact forall_mem_append (hP.asSource (hP.view h))
      (forall_mem_cons (hP.word _) (List.forall_mem_singleton.mpr (hP.label _)))
  · obtain ⟨v, a, s, on⟩ := src
    rw [not_or] at hplain
    cases v with
    | join i j =>
        obtain ⟨e, rfl⟩ := Option.ne_none_iff_exists'.mp hplain.2
        obtain ⟨n, o, t, p⟩ := j
        rw [Source.occurrences, List.forall_mem_append] at h
        rw [Source.pieces]
        exact forall_mem_append
          (forall_mem_cons (hP.word _) (hP.asSource (hP.view h.1)))
          (forall_mem_cons (hP.word _) (forall_mem_cons (hP.label a)
            (forall_mem_cons (hP.word _) (hP.expr h.2))))
    | table t => exact absurd rfl hplain.1
    | concrete t => exact absurd rfl hplain.1
    | select i q => exact absurd rfl hplain.1

theorem sourcesAfter (hP : Layout P) : ∀ {f : List Source},
    (∀ src ∈ f, ∀ o ∈ src.occurrences, ∀ x ∈ o.pieces c, P x) →
      ∀ x ∈ Source.piecesAfter c f, P x
  | [], _ => fun x hx => absurd hx List.not_mem_nil
  | ⟨v, a, s, on⟩ :: f, h => by
      have hgap : ∀ x ∈ (if on.isSome then [Piece.word " "] else [.word ",", .word " "]), P x := by
        split
        · exact List.forall_mem_singleton.mpr (hP.word _)
        · exact forall_mem_cons (hP.word _) (List.forall_mem_singleton.mpr (hP.word _))
      rw [List.forall_mem_cons] at h
      rw [Source.piecesAfter]
      exact forall_mem_append (forall_mem_append hgap (hP.source h.1)) (hP.sourcesAfter h.2)

theorem sources (hP : Layout P) : ∀ {f : List Source},
    (∀ src ∈ f, ∀ o ∈ src.occurrences, ∀ x ∈ o.pieces c, P x) → ∀ x ∈ Source.piecesAll c f, P x
  | [], _ => fun x hx => absurd hx List.not_mem_nil
  | ⟨v, a, s, on⟩ :: f, h => by
      rw [List.forall_mem_cons] at h
      rw [Source.piecesAll]
      exact forall_mem_append (forall_mem_cons (hP.word _) (hP.source h.1)) (hP.sourcesAfter h.2)

theorem conditions (hP : Layout P) : ∀ {cs : List Condition},
    (∀ k ∈ cs, ∀ o ∈ k.occurrences, ∀ x ∈ o.pieces c, P x) →
      ∀ a ∈ Condition.piecesAll c cs, ∀ x ∈ a.2, P x
  | [], _ => fun a ha => absurd ha List.not_mem_nil
  | ⟨e, s⟩ :: cs, h => by
      rw [List.forall_mem_cons] at h
      rw [Condition.piecesAll, List.forall_mem_cons]
      exact ⟨hP.expr h.1, hP.conditions h.2⟩

theorem projections (hP : Layout P) : ∀ {ps : List Projection},
    (∀ p ∈ ps, ∀ o ∈ p.definition.occurrences false p.scope, ∀ x ∈ o.pieces c, P x) →
      ∀ entry ∈ Projection.piecesAll c ps, ∀ x ∈ entry, P x
  | [], _ => fun a ha => absurd ha List.not_mem_nil
  | ⟨e, a, s⟩ :: ps, h => by
      rw [List.forall_mem_cons] at h
      rw [Projection.piecesAll, List.forall_mem_cons]
      exact ⟨hP.aliased (hP.expr h.1), hP.projections h.2⟩

/-- What holds of layout and of all that a statement shows holds of all its pieces. -/
theorem select (hP : Layout P) {s : Select} (hempty : s.sources = [] → P (.fault .missingSource))
    (h : ∀ o ∈ s.occurrences c, ∀ x ∈ o.pieces c, P x) : ∀ x ∈ s.pieces c, P x := by
  simp only [Select.occurrences, List.forall_mem_append, List.flatMap_append] at h
  obtain ⟨⟨hproj, hsrc⟩, ⟨hfilters, hgrouping⟩, hhaving⟩ := h
  have hentries : ∀ entry ∈ s.entries c, ∀ x ∈ entry, P x := by
    rw [Select.entries]
    rw [Select.projected] at hproj
    split
    case isTrue hnone =>
        rw [if_pos hnone] at hproj
        intro entry hentry
        obtain ⟨p, hp, rfl⟩ := List.mem_map.mp hentry
        exact hP.aliased (hproj _ (List.mem_map_of_mem hp))
    case isFalse hsome =>
        rw [if_neg hsome] at hproj
        exact hP.projections fun p hp o ho => hproj o (List.mem_flatMap.mpr ⟨p, hp, ho⟩)
  have hfrom : ∀ x ∈ (if s.sources.isEmpty then [.fault .missingSource]
      else Source.piecesAll c s.sources), P x := by
    split
    case isTrue hnone => exact List.forall_mem_singleton.mpr (hempty (List.isEmpty_iff.mp hnone))
    case isFalse => exact hP.sources fun src hs o ho => hsrc o (List.mem_flatMap.mpr ⟨src, hs, ho⟩)
  have hconditions : ∀ {cs : List Condition},
      (∀ o ∈ cs.flatMap Condition.occurrences, ∀ x ∈ o.pieces c, P x) →
        ∀ a ∈ Condition.piecesAll c cs, ∀ x ∈ a.2, P x :=
    fun hcs => hP.conditions fun k hk o ho => hcs o (List.mem_flatMap.mpr ⟨k, hk, ho⟩)
  rw [Select.pieces_eq]
  refine forall_mem_append (forall_mem_append (forall_mem_append (forall_mem_append
    (forall_mem_cons (hP.word _) (hP.list hentries)) (forall_mem_cons (hP.word _) hfrom))
    (hP.clause (hP.conjunction (hconditions hfilters)))) (hP.clause (hP.list ?_)))
    (hP.clause (hP.conjunction (hconditions hhaving)))
  intro ps hps
  obtain ⟨a, ha, rfl⟩ := List.mem_map.mp hps
  exact hconditions hgrouping a ha

end Piece.Layout

/-! What stands for a statement without projections. -/

namespace Source

/-- A step of the fold that lists selectors. -/
def listStep (sc : Scope) (acc : List Projection × AliasPool) (e : Expr) : List Projection × AliasPool :=
  (acc.1 ++ [⟨e, (acc.2.projectionAlias e.name?).1, sc⟩], (acc.2.projectionAlias e.name?).2)

theorem defaultProjections_eq (c : Catalog) (pool : AliasPool) (src : Source) :
    src.defaultProjections c pool =
      if ((src.view.selectors c).filter (Expr.printsIn src.scope)).isEmpty then
        ([⟨.star src.view, none, src.scope⟩], pool)
      else ((src.view.selectors c).filter (Expr.printsIn src.scope)).foldl (listStep src.scope)
        ([], pool) :=
  rfl

theorem mem_foldl_listStep {sc : Scope} {p : Projection} :
    ∀ {es : List Expr} {acc : List Projection × AliasPool}, p ∈ (es.foldl (listStep sc) acc).1 →
      p ∈ acc.1 ∨ (p.definition ∈ es ∧ p.scope = sc)
  | [], _, h => Or.inl h
  | e :: es, acc, h => by
      rw [List.foldl_cons] at h
      rcases mem_foldl_listStep h with h | ⟨h, hs⟩
      · rcases List.mem_append.mp h with h | h
        · exact Or.inl h
        · rw [List.mem_singleton.mp h]
          exact Or.inr ⟨List.mem_cons_self, rfl⟩
      · exact Or.inr ⟨List.mem_cons_of_mem e h, hs⟩

theorem mem_defaultProjections {c : Catalog} {pool : AliasPool} {src : Source} {p : Projection}
    (h : p ∈ (src.defaultProjections c pool).1) :
    p = ⟨.star src.view, none, src.scope⟩ ∨ (p.definition ∈ src.view.selectors c
      ∧ p.definition.printsIn src.scope = true ∧ p.scope = src.scope) := by
  rw [defaultProjections_eq] at h
  split at h
  · exact Or.inl (List.mem_singleton.mp h)
  · rcases mem_foldl_listStep h with h | ⟨h, hs⟩
    · exact absurd h List.not_mem_nil
    · rw [List.mem_filter] at h
      exact Or.inr ⟨h.1, h.2, hs⟩

/-- What sources contribute depends on their selectors, and on nothing else in the catalogue. -/
theorem defaultProjectionsAll_of_selectors {c c' : Catalog} : ∀ {f : List Source} {pool : AliasPool},
    (∀ src ∈ f, src.view.selectors c' = src.view.selectors c) →
      defaultProjectionsAll c' pool f = defaultProjectionsAll c pool f
  | [], _, _ => rfl
  | src :: f, pool, h => by
      rw [List.forall_mem_cons] at h
      have hsrc : src.defaultProjections c' pool = src.defaultProjections c pool := by
        rw [defaultProjections, defaultProjections, h.1]
      rw [defaultProjectionsAll, defaultProjectionsAll, hsrc]
      simp only [defaultProjectionsAll_of_selectors h.2]

end Source

theorem Select.mem_defaults {c : Catalog} {s : Select} {p : Projection} (h : p ∈ s.defaults c) :
    ∃ src ∈ s.sources, p = ⟨.star src.view, none, src.scope⟩ ∨ (p.definition ∈ src.view.selectors c
      ∧ p.definition.printsIn src.scope = true ∧ p.scope = src.scope) := by
  have hall : ∀ (f : List Source) (pool : AliasPool), p ∈ Source.defaultProjectionsAll c pool f →
      ∃ src ∈ f, ∃ pool, p ∈ (src.defaultProjections c pool).1 := by
    intro f
    induction f with
    | nil => exact fun pool h => absurd h List.not_mem_nil
    | cons src f ih =>
        intro pool h
        rcases List.mem_append.mp h with h | h
        · exact ⟨src, List.mem_cons_self, pool, h⟩
        · obtain ⟨x, hx, hp⟩ := ih _ h
          exact ⟨x, List.mem_cons_of_mem src hx, hp⟩
  obtain ⟨src, hsrc, pool, hp⟩ := hall s.sources s.aliases h
  exact ⟨src, hsrc, Source.mem_defaultProjections hp⟩

/-! What pieces add to a printout. -/

theorem Piece.textAll_append : ∀ ps qs : List Piece, textAll (ps ++ qs) = textAll ps ++ textAll qs
  | [], qs => by simp [textAll]
  | p :: ps, qs => by
      rw [List.cons_append, textAll, textAll, textAll_append ps qs, String.append_assoc]

namespace Printout

mutual

theorem put_text : ∀ (x : Piece) (o : Printout), (o.put x).text = o.text ++ x.text
  | .word _, _ => rfl
  | .literal _, _ => rfl
  | .name _ _, _ => rfl
  | .label _, _ => rfl
  | .reference _ _ _, _ => rfl
  | .star _, _ => rfl
  | .statement body, o => putAll_text body o
  | .fault _, _ => String.append_empty.symm
  | .faultHere _, _ => String.append_empty.symm

theorem putAll_text : ∀ (ps : List Piece) (o : Printout), (o.putAll ps).text = o.text ++ Piece.textAll ps
  | [], _ => String.append_empty.symm
  | x :: ps, o => by
      rw [putAll, putAll_text ps, put_text x, Piece.textAll, String.append_assoc]

end

theorem putAll_append : ∀ (ps qs : List Piece) (o : Printout), o.putAll (ps ++ qs) = (o.putAll ps).putAll qs
  | [], _, _ => rfl
  | x :: ps, qs, o => by rw [List.cons_append, putAll, putAll, putAll_append ps qs]

end Printout

/-! Pieces without a fault print. -/

theorem Piece.Layout.faultless : Piece.Layout fun x => x.isFaulty = false :=
  ⟨fun _ => rfl, fun _ => rfl, fun _ _ => rfl, fun _ => rfl⟩

theorem Piece.anyFaulty_eq_false : ∀ {ps : List Piece},
    (∀ x ∈ ps, x.isFaulty = false) → Piece.anyFaulty ps = false
  | [], _ => rfl
  | x :: ps, h => by
      rw [List.forall_mem_cons] at h
      rw [anyFaulty, h.1, anyFaulty_eq_false h.2, Bool.or_self]

theorem Piece.anyFaulty_of_mem {x : Piece} : ∀ {ps : List Piece}, x ∈ ps → x.isFaulty = true →
    Piece.anyFaulty ps = true
  | y :: ps, hx, h => by
      rw [anyFaulty]
      rcases List.mem_cons.mp hx with rfl | hx
      · rw [h, Bool.true_or]
      · rw [anyFaulty_of_mem hx h, Bool.or_true]

namespace Printout

mutual

theorem put_faults : ∀ {x : Piece} {o : Printout}, x.isFaulty = false → (o.put x).faults = o.faults
  | .word _, _, _ => rfl
  | .literal _, _, _ => rfl
  | .name _ _, _, _ => rfl
  | .label _, _, _ => rfl
  | .reference _ _ _, _, _ => rfl
  | .star _, _, _ => rfl
  | .statement body, _, h => by
      rw [put]
      exact @putAll_faults body _ h
  | .fault _, _, h => nomatch h
  | .faultHere _, _, h => nomatch h

theorem putAll_faults : ∀ {ps : List Piece} {o : Printout},
    Piece.anyFaulty ps = false → (o.putAll ps).faults = o.faults
  | [], _, _ => rfl
  | x :: ps, o, h => by
      rw [Piece.anyFaulty, Bool.or_eq_false_iff] at h
      rw [putAll, putAll_faults h.2, put_faults h.1]

end

end Printout

/-- A statement whose pieces hold no fault prints them. -/
theorem Select.print_ok {c : Catalog} {q : Select} (h : ∀ x ∈ q.pieces c, x.isFaulty = false) :
    q.print c = .ok (Piece.textAll (q.pieces c)) := by
  have hfaults : (q.printout c).faults = [] := Printout.putAll_faults (Piece.anyFaulty_eq_false h)
  rw [print, Printout.result, hfaults, printout, Printout.putAll_text, String.empty_append]

end SqlCompose
