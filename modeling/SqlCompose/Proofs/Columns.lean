import SqlCompose.Proofs.Pieces
import SqlCompose.Proofs.Runs

/-!
The columns that a statement takes from the statements in its FROM list. Whatever an accepted expression
refers to directly is projected by the nested statement it was accepted through, and stays projected
while that statement grows. What escapes this are a few strays: the leaves of joins used as predicates or
as values, a reference that prints with the alias of another source than it was accepted through, and a
star with an alias, which the nested statement prints without it. A statement refers to no column that a
nested statement does not print exactly if its strays do not.
-/

namespace SqlCompose

/-- The name of a result column in the printed text: the alias if one is printed, or else the name the
database gives. -/
def Projection.columnName? (p : Projection) : Option String :=
  p.printedAlias?.or p.definition.systemName?

/-- The names of the result columns in the printed text. -/
def Select.columnNames (c : Catalog) (q : Select) : List String :=
  (if q.projections.isEmpty then q.defaults c else q.projections).filterMap (·.columnName?)

/-- A view whose statement is that of a source, possibly at an earlier stage. -/
def View.IsOf (v : View) (src : Source) : Prop :=
  ∃ q r, v.statement? = some q ∧ src.view.statement? = some r ∧ q.Grows r

/-- What a statement shows of a source although it was not accepted as a reference to a printed column
of that source: what is raw, a pinned leaf, a reference through another source, or one that has the alias
of a star. -/
inductive Occurrence.Stray (s : Select) (src : Source) (n : String) : Occurrence → Prop
  | raw (sc : Scope) (leaf : Expr) : Stray s src n (.leaf sc leaf true)
  | pinned (sc : Scope) (leaf : Expr) (v : View) : Stray s src n (.leaf sc (.pinned leaf v) false)
  | elsewhere (sc : Scope) {v : View} (d : Expr) {other : Source} (ho : other ∈ s.sources)
      (hne : other.label ≠ src.label) (hv : v.IsOf other) :
      Stray s src n (.leaf sc (.projected v (some n) d) false)
  | star (sc : Scope) (v : View) (d : Expr) {q : Select} {p : Projection} {w : View}
      (hq : src.view.statement? = some q) (hp : p ∈ q.projections) (hl : p.label = some n)
      (hd : p.definition = .star w) : Stray s src n (.leaf sc (.projected v (some n) d) false)

namespace Select

variable {s t u : Select} {e a : Expr} {c : Catalog}

/-- Every column that a statement takes from a statement in its FROM list is printed there. -/
def Closed (c : Catalog) (s : Select) : Prop :=
  ∀ src ∈ s.sources, ∀ q, src.view.isStatement = true → src.view.statement? = some q →
    ∀ n d, n ≠ "*" → Piece.reference (some src.label) n d ∈ s.pieces c → n ∈ q.columnNames c

/-- The columns, with the alias in front, that a statement takes from a statement in its FROM list although
they are not printed there. -/
def dangling (c : Catalog) (s : Select) : List (String × String) :=
  s.sources.flatMap fun src => match src.view.isStatement, src.view.statement? with
    | true, some q => (s.pieces c).filterMap fun x => match x with
      | .reference (some a) n _ =>
        if a = src.label ∧ n ≠ "*" ∧ n ∉ q.columnNames c then some (a, n) else none
      | _ => none
    | _, _ => []

theorem closed_iff_dangling : s.Closed c ↔ s.dangling c = [] := by
  rw [dangling, List.flatMap_eq_nil_iff]
  constructor
  · intro h src hsrc
    split
    case h_1 q hs hq =>
        rw [List.filterMap_eq_nil_iff]
        intro x hx
        split
        case h_1 a n d =>
            rw [if_neg]
            rintro ⟨rfl, hn, hmem⟩
            exact hmem (h src hsrc q hs hq n d hn hx)
        case h_2 => rfl
    case h_2 => rfl
  · intro h src hsrc q hs hq n d hn hx
    have hnone := h src hsrc
    rw [hs, hq] at hnone
    have hreference := List.filterMap_eq_nil_iff.mp hnone _ hx
    by_contra hmem
    dsimp only at hreference
    rw [if_pos ⟨rfl, hn, hmem⟩] at hreference
    cases hreference

instance (c : Catalog) (s : Select) : Decidable (s.Closed c) := decidable_of_iff' _ closed_iff_dangling

/-- What an occurrence refers to directly is projected by the source it was accepted through. -/
def Backs (s : Select) : Occurrence → Prop
  | .leaf sc (.projected v n _) false =>
    sc ⊆ s.scope ∧ ∀ m, sc.resolveExact v = .ok m → m.view.isStatement = true →
      ∃ src ∈ s.sources, ∃ q r, v.statement? = some q ∧ src.view.statement? = some r ∧ q.Grows r
        ∧ ∃ p ∈ q.projections, p.name? = n
  | .leaf sc (.column col) false =>
    sc ⊆ s.scope ∧ ∀ m, sc.resolve col.view = .ok m → m.view.isStatement = false
  | _ => True

/-- What a statement backs stays backed when its sources grow and others come in. -/
theorem Backs.mono {o : Occurrence} (h : s.Backs o) (hscope : s.scope ⊆ t.scope)
    (hsources : ∀ x ∈ s.sources, ∃ y ∈ t.sources, x.Grows y) : t.Backs o := by
  unfold Backs at h ⊢
  split at h
  · refine ⟨List.Subset.trans h.1 hscope, fun m hm hs => ?_⟩
    obtain ⟨x, hx, q, r, hq, hr, hqr, hp⟩ := h.2 m hm hs
    obtain ⟨y, hy, -, -, -, hxy⟩ := hsources x hx
    obtain ⟨r', hr', hrr'⟩ := hxy.statement? hr
    exact ⟨y, hy, q, r', hq, hr', hqr.trans hrr', hp⟩
  · exact ⟨List.Subset.trans h.1 hscope, h.2⟩
  · trivial

end Select

/-! What comes from joins is raw or pinned. -/

namespace Occurrence

/-- Whether an occurrence is raw, a statement or a pinned leaf. -/
def Indirect : Occurrence → Prop
  | leaf _ _ true => True
  | leaf _ (.pinned _ _) _ => True
  | leaf _ _ _ => False
  | statement _ => True

theorem Indirect.raw (sc : Scope) (e : Expr) : Indirect (leaf sc e true) := by
  unfold Indirect
  trivial

theorem Indirect.pinned (raw : Bool) (sc : Scope) (e : Expr) (v : View) :
    Indirect (leaf sc (.pinned e v) raw) := by
  cases raw <;> trivial

theorem Indirect.backs {o : Occurrence} (h : o.Indirect) (s : Select) : s.Backs o := by
  unfold Select.Backs
  split
  · exact absurd h (by simp [Indirect])
  · exact absurd h (by simp [Indirect])
  · trivial

mutual

theorem indirect_of_raw : ∀ {e : Expr} {sc : Scope}, ∀ o ∈ e.occurrences true sc, o.Indirect
  | .literal _, _ => fun _ h => absurd h List.not_mem_nil
  | .apply _ args, _ => @indirect_of_raws args _
  | .column _, _ => List.forall_mem_singleton.mpr (.raw _ _)
  | .star _, _ => List.forall_mem_singleton.mpr (.raw _ _)
  | .projected _ _ _, _ => List.forall_mem_singleton.mpr (.raw _ _)
  | .pinned _ _, _ => List.forall_mem_singleton.mpr (.raw _ _)
  | .within _ e, _ => indirect_of_raw (e := e)
  | .view v, _ => indirect_of_view (v := v)

theorem indirect_of_raws : ∀ {es : List Expr} {sc : Scope},
    ∀ o ∈ Expr.occurrencesAll true sc es, o.Indirect
  | [], _ => fun _ h => absurd h List.not_mem_nil
  | e :: es, _ => List.forall_mem_append.mpr ⟨indirect_of_raw (e := e), @indirect_of_raws es _⟩

theorem indirect_of_view : ∀ {v : View} {sc : Scope}, ∀ o ∈ v.occurrences sc, o.Indirect
  | .table _, _ => fun _ h => absurd h List.not_mem_nil
  | .concrete _, _ => fun _ h => absurd h List.not_mem_nil
  | .join _ ⟨_, _, t, e⟩, _ =>
    List.forall_mem_append.mpr ⟨indirect_of_view (v := t), indirect_of_raw (e := e)⟩
  | .select _ _, _ => List.forall_mem_singleton.mpr trivial

end

theorem indirect_of_pinned {e : Expr} {raw : Bool} {sc : Scope} (h : ∃ b v, e = .pinned b v) :
    ∀ o ∈ e.occurrences raw sc, o.Indirect := by
  obtain ⟨b, v, rfl⟩ := h
  exact List.forall_mem_singleton.mpr (.pinned raw sc b v)

mutual

theorem indirect_of_mapLeaves {f : Expr → Expr} (hf : ∀ leaf, ∃ e v, f leaf = .pinned e v) :
    ∀ {e : Expr} {raw : Bool} {sc : Scope}, ∀ o ∈ (e.mapLeaves f).occurrences raw sc, o.Indirect
  | .literal _, _, _ => fun _ h => absurd h List.not_mem_nil
  | .apply _ args, _, _ => @indirect_of_mapLeavesAll _ hf args _ _
  | .column col, _, _ => indirect_of_pinned (hf (.column col))
  | .star v, _, _ => indirect_of_pinned (hf (.star v))
  | .projected v n d, _, _ => indirect_of_pinned (hf (.projected v n d))
  | .pinned e v, _, _ => indirect_of_pinned (hf (.pinned e v))
  | .within _ e, _, _ => indirect_of_mapLeaves hf (e := e)
  | .view v, _, _ => indirect_of_view (v := v)

theorem indirect_of_mapLeavesAll {f : Expr → Expr} (hf : ∀ leaf, ∃ e v, f leaf = .pinned e v) :
    ∀ {es : List Expr} {raw : Bool} {sc : Scope},
      ∀ o ∈ Expr.occurrencesAll raw sc (Expr.mapLeavesAll f es), o.Indirect
  | [], _, _ => fun _ h => absurd h List.not_mem_nil
  | e :: es, _, _ => List.forall_mem_append.mpr
      ⟨indirect_of_mapLeaves hf (e := e), @indirect_of_mapLeavesAll _ hf es _ _⟩

end

end Occurrence

namespace Select

variable {s t u : Select} {e a : Expr} {c : Catalog}

/-- A view accepted as a value shows nothing directly. -/
theorem indirect_of_acceptView {v : View} (h : s.acceptView v = .ok a) (sc : Scope) :
    ∀ o ∈ a.occurrences false sc, o.Indirect := by
  rcases acceptView_cases h with ⟨w, rfl, -⟩ | ⟨i, j, x, y, -, -, -, rfl⟩
  · exact Occurrence.indirect_of_view
  · refine Occurrence.indirect_of_mapLeaves fun leaf => ?_
    obtain ⟨e, v, hleaf, -⟩ := Join.settleLeaf_eq x.view y.view leaf
    exact ⟨e, v, hleaf⟩

/-! What a statement accepts, it backs. -/

theorem AcceptsAll.subset_grows {es as : List Expr} (h : s.AcceptsAll es t as) :
    s.scope ⊆ t.scope ∧ ∀ x ∈ s.sources, ∃ y ∈ t.sources, x.Grows y := by
  obtain ⟨ht, hf⟩ := h.frame
  refine ⟨?_, fun _ hx => hf.mem hx⟩
  rw [ht]
  exact List.Subset.refl _

mutual

theorem Accepts.backs : ∀ {s t : Select} {e a : Expr}, s.Accepts e t a →
    ∀ o ∈ a.occurrences false s.scope, t.Backs o
  | _, _, _, _, .literal _ _ => fun _ h => absurd h List.not_mem_nil
  | _, _, _, _, .apply _ h => h.backs
  | _, _, _, _, .own _ _ h => h.backs
  | s, _, _, _, .view h => fun o ho => (indirect_of_acceptView h s.scope o ho).backs s
  | s, _, e, _, .kept hleaf hm hs => by
      cases e with
      | column col =>
          refine List.forall_mem_singleton.mpr ⟨List.Subset.refl _, fun x hx => ?_⟩
          rw [← Except.ok.inj (hm.symm.trans hx)]
          exact hs
      | projected v n d =>
          refine List.forall_mem_singleton.mpr ⟨List.Subset.refl _, fun x hx hstatement => ?_⟩
          rw [← Except.ok.inj (hm.symm.trans hx), hs] at hstatement
          cases hstatement
      | star v => exact List.forall_mem_singleton.mpr trivial
      | pinned b v => exact List.forall_mem_singleton.mpr trivial
      | literal v => cases hleaf
      | apply op args => cases hleaf
      | view v => cases hleaf
      | within sc b => cases hleaf
  | s, _, _, _, .routed _ _ _ hf _ _ hq hp hv => by
      obtain ⟨hgrows, hr⟩ := View.withStatement_spec hq hp.grows hv
      obtain ⟨p, hpr, hname, -⟩ := hp.clause
      refine List.forall_mem_singleton.mpr ⟨List.Subset.refl _, fun m _ _ => ?_⟩
      exact ⟨_, List.mem_append_right _ List.mem_cons_self, _, _, hr, hr, .refl _, p, hpr, hname⟩

theorem AcceptsAll.backs : ∀ {s t : Select} {es as : List Expr}, s.AcceptsAll es t as →
    ∀ o ∈ Expr.occurrencesAll false s.scope as, t.Backs o
  | _, _, _, _, .nil _ => fun _ h => absurd h List.not_mem_nil
  | _, _, _, _, .cons h hs => by
      rw [Expr.occurrencesAll, List.forall_mem_append]
      constructor
      · exact fun o ho => (h.backs o ho).mono hs.subset_grows.1 hs.subset_grows.2
      · exact h.scope ▸ hs.backs

end

/-- The FROM list and the scope of a statement are linked, and it backs what its clauses refer to directly. -/
structure Backed (s : Select) : Prop where
  linked : s.Linked
  clauses : ∀ k ∈ s.clauses, ∀ o ∈ k.occurrences, s.Backs o

theorem Backed.empty (i : Nat) : (Select.empty i).Backed :=
  ⟨.empty i, fun _ hk => absurd hk List.not_mem_nil⟩

theorem Step.backed {Ok : Expr → Prop} {OkView : View → Prop} (h : Step Ok OkView s u) (hs : s.Backed) :
    u.Backed := by
  refine ⟨h.linked hs.linked, fun k hk o ho => ?_⟩
  rcases h.clause_cases hk with hk | ⟨r, t, e, hacc, hscope, hu, hsources⟩
  · exact (hs.clauses k hk o ho).mono h.scope_subset h.sources_grow
  · have hbacked : t.Backs o := hacc.backs o (by rw [← hacc.scope, ← hscope]; exact ho)
    exact hbacked.mono (hu ▸ List.Subset.refl _) fun x hx => ⟨x, hsources hx, .refl x⟩

theorem Reached.backed (h : s.Reached) : s.Backed := h.induction Backed.empty Step.backed

end Select

/-! The selectors of a source resolve to the source itself. -/

/-- A selector is a column that the view and all it has grown from can own, or a reference to a projection
of the statement behind the view. -/
theorem View.mem_selectors {c : Catalog} {e : Expr} : ∀ {v : View}, e ∈ v.selectors c →
    (∃ col : Column, e = .column col ∧ v.isStatement = false
        ∧ ∀ u : View, u.Grows v → u.compatible col.view = true) ∨
      ∃ w q, v.statement? = some q ∧ w.statement? = some q ∧ ∃ p ∈ q.projections, e = p.reference w
  | .table t, h => by
      obtain ⟨col, hcol, rfl⟩ := List.mem_map.mp h
      obtain ⟨n, -, rfl⟩ := List.mem_map.mp hcol
      refine Or.inl ⟨_, rfl, rfl, fun u hu => ?_⟩
      rw [hu.eq_of_plain rfl rfl]
      exact compatible_of_beq (beq_of_grows (v := .table t) rfl (Grows.refl _))
  | .concrete m, h => by
      obtain ⟨col, hcol, rfl⟩ := List.mem_map.mp h
      obtain ⟨n, -, rfl⟩ := List.mem_map.mp hcol
      have htable : (View.table m).compatible (.table m) = true :=
        compatible_of_beq (beq_of_grows (v := .table m) rfl (Grows.refl _))
      refine Or.inl ⟨_, rfl, rfl, fun u hu => ?_⟩
      rw [hu.eq_of_plain rfl rfl, compatible, inherits,
        show (Column.mk m n).view = .table m from rfl, htable, Bool.or_true, Bool.true_or]
  | .select i q, h => by
      obtain ⟨p, hp, rfl⟩ := List.mem_map.mp h
      exact Or.inr ⟨.select i q, q, rfl, rfl, p, hp, rfl⟩
  | .join i ⟨n, s, t, p⟩, h => by
      rcases mem_selectors (v := t) h with ⟨col, rfl, hs, hcomp⟩ | ⟨w, q, hq, hw, hp⟩
      · refine Or.inl ⟨col, rfl, ?_, fun u hu => ?_⟩
        · cases t with
          | select k r => cases hs
          | table t => rfl
          | concrete t => rfl
          | join k j => rfl
        · obtain ⟨k, ⟨n', s', t', p'⟩, rfl, ht⟩ := hu.to_join
          rw [compatible, inherits, if_neg (by simp [Column.view, View.isJoin]), hcomp t' ht,
            Bool.or_true, Bool.true_or]
      · exact Or.inr ⟨w, q, hq, hw, hp⟩

namespace Select

variable {s : Select} {c : Catalog}

theorem Linked.backs_default (h : s.Linked) {p : Projection} (hp : p ∈ s.defaults c) :
    s.Backs (.leaf p.scope p.definition false) := by
  obtain ⟨src, hsrc, rfl | ⟨hmem, -, hscope⟩⟩ := mem_defaults hp
  · trivial
  obtain ⟨hsub, m, rest, heq, -, hgrows⟩ := h.captured src hsrc
  rw [hscope]
  rcases View.mem_selectors hmem with ⟨col, hcol, hs, hcomp⟩ | ⟨w, q, hq, hw, x, hx, href⟩
  · rw [hcol]
    refine ⟨hsub, fun y hy => ?_⟩
    rw [heq, Scope.resolve_head (hcomp m.view hgrows)] at hy
    rw [← Except.ok.inj hy, ← hgrows.isStatement, hs]
  · rw [href]
    refine ⟨hsub, fun y _ _ => ⟨src, hsrc, q, q, hw, hq, .refl q, x, hx, rfl⟩⟩

/-- What a statement shows is raw, pinned, or backed by the source it was accepted through. -/
theorem Backed.occurrence (h : s.Backed) {o : Occurrence} (ho : o ∈ s.occurrences c) :
    s.Backs o := by
  rw [occurrences, List.mem_append, List.mem_append] at ho
  rcases ho with (ho | ho) | ho
  · rw [projected] at ho
    split at ho
    · obtain ⟨p, hp, rfl⟩ := List.mem_map.mp ho
      exact h.linked.backs_default hp
    · obtain ⟨p, hp, ho⟩ := List.mem_flatMap.mp ho
      exact h.clauses ⟨p.definition, p.scope⟩ (mem_clauses.mpr (Or.inl ⟨p, hp, rfl⟩)) o ho
  · obtain ⟨src, hsrc, ho⟩ := List.mem_flatMap.mp ho
    by_cases hplain : src.view.isJoin = false ∨ src.on = none
    · rw [(Source.plain hplain).1] at ho
      exact (Occurrence.indirect_of_view o ho).backs s
    · rw [not_or, Bool.not_eq_false] at hplain
      obtain ⟨e, he⟩ := Option.ne_none_iff_exists'.mp hplain.2
      rcases Source.mem_occurrences ho fun _ => he ▸ rfl with ho | ⟨b, hb, ho⟩
      · obtain ⟨w, hw⟩ : ∃ w : View, o ∈ w.occurrences src.scope := by
          cases hv : src.view with
          | join i j => exact ⟨j.target, by rw [hv] at ho; exact ho⟩
          | table t => exact ⟨.table t, by rw [hv] at ho; exact ho⟩
          | concrete t => exact ⟨.concrete t, by rw [hv] at ho; exact ho⟩
          | select i q => exact ⟨.select i q, by rw [hv] at ho; exact ho⟩
        exact (Occurrence.indirect_of_view o hw).backs s
      · exact h.clauses ⟨b, src.scope⟩ (mem_clauses.mpr (Or.inr (Or.inl ⟨src, hsrc, b, hb, rfl⟩))) o ho
  · obtain ⟨k, hk, ho⟩ := List.mem_flatMap.mp ho
    refine h.clauses k (mem_clauses.mpr (Or.inr (Or.inr ?_))) o ho
    rw [List.mem_append, List.mem_append, or_assoc] at hk
    exact hk

end Select

/-! Which column a printed reference names. -/

theorem Expr.mem_leafPieces_reference {q : Option String} {leaf : Expr} {a n : String} {d : Dialect}
    (h : Piece.reference (some a) n d ∈ leafPieces q leaf) : q = some a ∧
      ((∃ col, leaf = .column col) ∨ ∃ v b, leaf = .projected v (some n) b) := by
  cases leaf with
  | column col =>
      obtain ⟨rfl, -, -⟩ := Piece.reference.inj (List.mem_singleton.mp h)
      exact ⟨rfl, Or.inl ⟨col, rfl⟩⟩
  | projected v name b =>
      cases name with
      | none => cases List.mem_singleton.mp h
      | some name =>
          obtain ⟨rfl, rfl, -⟩ := Piece.reference.inj (List.mem_singleton.mp h)
          exact ⟨rfl, Or.inr ⟨v, b, rfl⟩⟩
  | star v => cases List.mem_singleton.mp h
  | literal v => cases List.mem_singleton.mp h
  | apply op args => cases List.mem_singleton.mp h
  | view v => cases List.mem_singleton.mp h
  | pinned e v => cases List.mem_singleton.mp h
  | within sc e => cases List.mem_singleton.mp h

/-- A reference with an alias in front is a leaf that resolves to that alias. -/
theorem Occurrence.mem_pieces_reference {c : Catalog} {o : Occurrence} {a n : String} {d : Dialect}
    (h : Piece.reference (some a) n d ∈ o.pieces c) : ∃ sc leaf raw m, o = .leaf sc leaf raw
      ∧ Scope.resolveLeaf sc leaf = .ok m ∧ m.label = a
      ∧ ((∃ col, leaf.unpinned = .column col) ∨ ∃ v b, leaf.unpinned = .projected v (some n) b) := by
  cases o with
  | statement q => cases List.mem_singleton.mp h
  | leaf sc leaf raw =>
      rw [pieces, Expr.leafPiecesIn] at h
      cases hm : Scope.resolveLeaf sc leaf with
      | error cause =>
          rw [hm] at h
          rcases List.mem_cons.mp h with h | h
          · cases h
          · exact nomatch (Expr.mem_leafPieces_reference h).1
      | ok m =>
          rw [hm] at h
          obtain ⟨hl, hleaf⟩ := Expr.mem_leafPieces_reference h
          exact ⟨sc, leaf, raw, m, rfl, hm, Option.some.inj hl, hleaf⟩

/-- What is printed with an alias in front is shown. -/
theorem Select.mem_pieces_reference {c : Catalog} {s : Select} {a n : String} {d : Dialect}
    (h : Piece.reference (some a) n d ∈ s.pieces c) :
    ∃ o ∈ s.occurrences c, Piece.reference (some a) n d ∈ o.pieces c := by
  have hlayout : Piece.Layout fun x => x = .reference (some a) n d →
      ∃ o ∈ s.occurrences c, x ∈ o.pieces c :=
    ⟨fun _ h => (nomatch h), fun _ h => (nomatch h), fun _ _ h => (nomatch h), fun _ h => (nomatch h)⟩
  exact hlayout.select (fun _ h => nomatch h) (fun o ho x hx _ => ⟨o, ho, hx⟩) _ h rfl

/-- A projection prints under its name, unless it is a star with an alias. -/
theorem Projection.columnName?_of_name? {p : Projection} {n : String} (h : p.name? = some n) :
    p.columnName? = some n ∨ (p.label = some n ∧ ∃ w, p.definition = .star w) := by
  obtain ⟨e, label, sc⟩ := p
  cases label with
  | none => exact Or.inl h
  | some a =>
      obtain rfl : a = n := Option.some.inj h
      have hprinted : (if e.isLeaf && e.systemName? == some a then none else some a).or e.systemName?
          = some a := by
        split
        case isTrue hsame =>
            rw [Bool.and_eq_true, beq_iff_eq] at hsame
            rw [hsame.2]
            rfl
        case isFalse => rfl
      cases e with
      | star w => exact Or.inr ⟨rfl, w, rfl⟩
      | column col => exact Or.inl hprinted
      | projected v name b => exact Or.inl hprinted
      | pinned e v => exact Or.inl hprinted
      | literal v => exact Or.inl hprinted
      | apply op args => exact Or.inl hprinted
      | view v => exact Or.inl hprinted
      | within sc e => exact Or.inl hprinted

namespace Select

variable {s : Select} {c : Catalog}

/-- Every column that a stray takes from a statement in the FROM list is printed there. -/
def StraysPrinted (c : Catalog) (s : Select) : Prop :=
  ∀ src ∈ s.sources, ∀ q, src.view.isStatement = true → src.view.statement? = some q →
    ∀ n d, n ≠ "*" → Piece.reference (some src.label) n d ∈ s.pieces c →
      (∃ o ∈ s.occurrences c, o.Stray s src n ∧ Piece.reference (some src.label) n d ∈ o.pieces c) →
        n ∈ q.columnNames c

/-- A reference that is no stray is to a projection of the nested statement, possibly at an earlier stage. -/
theorem Backed.direct_reference (h : s.Backed) {src : Source} {q : Select} {o : Occurrence} {n : String}
    {d : Dialect} (hsrc : src ∈ s.sources) (hs : src.view.isStatement = true) (hq : src.view.statement? = some q)
    (ho : o ∈ s.occurrences c) (hstray : ¬ o.Stray s src n)
    (hx : Piece.reference (some src.label) n d ∈ o.pieces c) :
    ∃ sc v b q₀, o = .leaf sc (.projected v (some n) b) false
      ∧ d = v.dialect ∧ v.statement? = some q₀ ∧ q₀.Grows q ∧ ∃ p ∈ q₀.projections, p.name? = some n := by
  obtain ⟨sc, leaf, raw, m, rfl, hm, hl, hleaf⟩ := Occurrence.mem_pieces_reference hx
  have hbacks := h.occurrence ho
  have hstatement : sc ⊆ s.scope → m.view.isStatement = true := by
    intro hsub
    have hgrows := h.linked.grows_of_label (hsub (Scope.resolveLeaf_mem hm)) hsrc hl.symm
    rw [← hgrows.isStatement, hs]
  cases raw with
  | true => exact absurd (.raw sc leaf) hstray
  | false =>
      cases leaf with
      | pinned e v => exact absurd (.pinned sc e v) hstray
      | column col =>
          -- a column is kept as it is only if it resolves to a table
          have hplain := hbacks.2 m hm
          rw [hstatement hbacks.1] at hplain
          cases hplain
      | projected v name b =>
          obtain ⟨col, hcol⟩ | ⟨v', b', hv'⟩ := hleaf
          · cases hcol
          obtain ⟨rfl, rfl, rfl⟩ := Expr.projected.inj hv'
          obtain ⟨other, hother, q₀, r, hq₀, hr, hgrows, hp⟩ := hbacks.2 m hm (hstatement hbacks.1)
          by_cases hlabel : other.label = src.label
          · obtain rfl := h.linked.eq_of_label hother hsrc hlabel
            obtain rfl := Option.some.inj (hr.symm.trans hq)
            rw [Occurrence.pieces, Expr.leafPiecesIn, hm] at hx
            exact ⟨sc, v, b, q₀, rfl, (Piece.reference.inj (List.mem_singleton.mp hx)).2.2, hq₀, hgrows, hp⟩
          · exact absurd (.elsewhere sc b hother hlabel ⟨q₀, r, hq₀, hr, hgrows⟩) hstray
      | star v => exact hleaf.elim (fun ⟨_, h⟩ => nomatch h) fun ⟨_, _, h⟩ => nomatch h
      | literal v => cases hm
      | apply op args => cases hm
      | view v => cases hm
      | within sc e => cases hm

/-- A reference that is no stray names a column that the nested statement prints. -/
theorem Reached.mem_columnNames (h : s.Reached) {src : Source} {q : Select} {o : Occurrence}
    {n : String} {d : Dialect} (hsrc : src ∈ s.sources) (hs : src.view.isStatement = true)
    (hq : src.view.statement? = some q) (ho : o ∈ s.occurrences c)
    (hstray : ¬ o.Stray s src n) (hx : Piece.reference (some src.label) n d ∈ o.pieces c) :
    n ∈ q.columnNames c := by
  obtain ⟨sc, v, b, q₀, rfl, -, -, hgrows, p, hp, hname⟩ := h.backed.direct_reference hsrc hs hq ho hstray hx
  have hmem : p ∈ q.projections := hgrows.projections.subset hp
  rcases Projection.columnName?_of_name? hname with hcolumn | ⟨hpl, w, hw⟩
  · rw [columnNames, if_neg (by rw [List.isEmpty_iff]; exact List.ne_nil_of_mem hmem)]
    exact List.mem_filterMap.mpr ⟨p, hmem, hcolumn⟩
  · exact absurd (.star sc v b hq hmem hpl hw) hstray

/-- A statement takes no column that a nested statement does not print exactly if its strays do not. -/
theorem Reached.closed_iff (h : s.Reached) (c : Catalog) : s.Closed c ↔ s.StraysPrinted c := by
  constructor
  · exact fun hclosed src hsrc q hs hq n d hn hx _ => hclosed src hsrc q hs hq n d hn hx
  · intro hstrays src hsrc q hs hq n d hn hx
    obtain ⟨o, ho, hxo⟩ := mem_pieces_reference hx
    by_cases hstray : o.Stray s src n
    · exact hstrays src hsrc q hs hq n d hn hx ⟨o, ho, hstray, hxo⟩
    · exact h.mem_columnNames hsrc hs hq ho hstray hxo

theorem wealthyNames_closed : wealthyNames.Closed {} ∧ wealthyNames.StraysPrinted {} := by
  have hclosed : wealthyNames.Closed {} := by decide +kernel
  exact ⟨hclosed, (wealthyNames_reached.closed_iff {}).mp hclosed⟩

/-- A table of departments. -/
def department : Table := ⟨1, "Department", {}⟩

/-- The join from the people to their departments. -/
def ofDepartment : Join :=
  ⟨none, .table people, .table department, .apply .equals
    [.column ⟨department, "ID"⟩, .pinned (.ofPeople "DEPARTMENT_ID") (.table people)]⟩

/-- The names of the people beside the departments, with the join between them as a predicate. -/
def namesInDepartments : Select :=
  (Call.filter (.view (.join 5 ofDepartment))).attempt {}
    ((Call.addSource (.table department)).attempt {} peopleNames.over)

/-- The predicate takes a column from the nested statement that it does not project. -/
theorem namesInDepartments_not_closed : namesInDepartments.Reached ∧
    namesInDepartments.dangling {} = [("a", "DEPARTMENT_ID")] ∧ ¬ namesInDepartments.Closed {} := by
  refine ⟨.call (.call peopleNames_over_reached _ {}) _ {}, ?_⟩
  decide +kernel

example : (namesInDepartments.print {}).toOption = some ("SELECT a.name, d.* FROM (SELECT p.name FROM "
    ++ "People p) a, Department d WHERE d.ID=a.DEPARTMENT_ID") := by
  decide +kernel

end Select

end SqlCompose
