import SqlCompose.Proofs.Equality
import SqlCompose.Proofs.Ingredients
import SqlCompose.Proofs.Listings
import SqlCompose.Proofs.NamedJoins

/-!
Statements with named joins. The source of the join is looked up before the join is in scope, and its target
after that. So the columns of the foreign key are those of the entry that the source resolves to, and the
columns of the primary key are those of the new entry, also if both are instances of one table.
-/

namespace SqlCompose

/-- Where one mark is one node, a join is not equal to its own source. -/
theorem Nodes.join_ne_source (N : Nodes) : ∀ {i : Nat} {j : Join}, (View.join i j).Throughout N.Holds →
    ¬ (View.join i j).beq j.source = true
  | i, ⟨n, s, t, p⟩, h, heq => by
      obtain ⟨k, l, rfl, hil⟩ := View.beq_join.mp heq
      have hsource : (View.join k l).Throughout N.Holds := h.join.source
      rcases hil with rfl | hjl
      · -- the source is the join itself, which is part of it
        have hself : (⟨n, .join i l, t, p⟩ : Join) = l := h.self.symm.trans hsource.self
        have hsize := congrArg sizeOf hself
        simp only [Join.mk.sizeOf_spec, View.join.sizeOf_spec] at hsize
        omega
      · exact join_ne_source N hsource (Join.beq_iff.mp hjl).2.1
termination_by _ j => sizeOf j

/-- What is compatible with a table and does not extend it is a table of that name. -/
theorem View.beq_of_not_extends {v : View} {t : Table} (hc : v.compatible (.table t) = true)
    (he : v.extends? (.table t) = false) : (v == .table t) = true := by
  rw [extends?, Bool.and_eq_false_iff, Bool.not_eq_false'] at he
  rcases he with he | he
  · exact he
  · rw [compatible, he, Bool.or_false, Bool.or_eq_true, inherits] at hc
    rcases hc with hc | hc
    · exact hc
    · exact beq_symm hc

namespace Scope

variable {N : Nodes} {sc : Scope} {v w : View} {m n : Mapping}

theorem resolve_eq_ok : sc.resolve v = .ok m ↔ sc.find? (·.view.compatible v) = some m := by
  rw [resolve]
  split
  case h_1 x hx => rw [hx, Except.ok.injEq, Option.some.injEq]
  case h_2 hnone => rw [hnone]; simp

/-- A view that equals the one it resolves to is found below a new mapping as a pin, too. -/
theorem resolvePinned_behind (hsc : ∀ x ∈ sc, x.view.Throughout N.Holds) (hv : v.Throughout N.Holds)
    (hw : w.Throughout N.Holds) (hm : sc.resolve v = .ok m) (heq : (m.view == w) = true)
    (hn : (n.view == w) = false) : Scope.resolvePinned (n :: sc) w = .ok m := by
  obtain ⟨hcompatible, as, bs, rfl, has⟩ := List.find?_eq_some_iff_append.mp (resolve_eq_ok.mp hm)
  have hfind : (as ++ m :: bs).find? (·.view == w) = some m := by
    refine List.find?_eq_some_iff_append.mpr ⟨heq, as, bs, rfl, fun x hx => ?_⟩
    -- what equals the pin is compatible with the view, so it does not stand above the mapping
    have hx' := hsc x (List.mem_append_left _ hx)
    have hm' := hsc m (List.mem_append_right _ List.mem_cons_self)
    rw [Bool.not_eq_true']
    by_contra hxw
    have hbeq : x.view.beq w = true := Bool.of_not_eq_false hxw
    have hsame : x.view.compatible v = m.view.compatible v :=
      (View.compatible_congr hx' hw hv hbeq).trans (View.compatible_congr hm' hw hv heq).symm
    have hfalse := has x hx
    rw [hsame, hcompatible] at hfalse
    cases hfalse
  rw [resolvePinned, List.find?_cons_of_neg (by rw [hn]; exact Bool.false_ne_true), hfind]

end Scope

/-! Accepting the predicate. -/

namespace Select

variable {s t u : Select} {e a : Expr} {es : List Expr} {p : Expr}

/-- A statement accepts an expression as it is, if it accepts it. -/
def AcceptsAsIs (s : Select) (e : Expr) : Prop :=
  ∀ ⦃t : Select⦄ ⦃a : Expr⦄, s.Accepts e t a → t = s ∧ a = e

namespace AcceptsAsIs

/-- A leaf that is no reference to a projection is only changed if it belongs to a nested statement. -/
theorem leaf (hs : ∀ m ∈ s.scope, m.view.isStatement = false) (hleaf : e.isLeaf = true)
    (hreference : ∀ v n d, e ≠ .projected v n d) : s.AcceptsAsIs e := by
  intro t a h
  cases h with
  | literal => cases hleaf
  | apply => cases hleaf
  | view => cases hleaf
  | own => exact absurd rfl (hreference _ _ _)
  | kept => exact ⟨rfl, rfl⟩
  | routed _ hm hstatement =>
      rw [hs _ (Scope.resolveLeaf_mem hm)] at hstatement
      cases hstatement

theorem all (hes : ∀ e ∈ es, s.AcceptsAsIs e) {as : List Expr} (h : s.AcceptsAll es t as) : t = s ∧ as = es := by
  induction es generalizing s as with
  | nil =>
      cases h
      exact ⟨rfl, rfl⟩
  | cons e es ih =>
      rw [List.forall_mem_cons] at hes
      cases h with
      | cons hfirst hrest =>
          obtain ⟨rfl, rfl⟩ := hes.1 hfirst
          obtain ⟨rfl, rfl⟩ := ih hes.2 hrest
          exact ⟨rfl, rfl⟩

theorem apply (op : Operator) (h : ∀ e ∈ es, s.AcceptsAsIs e) : s.AcceptsAsIs (.apply op es) := by
  intro t a hacc
  cases hacc with
  | apply _ hall =>
      obtain ⟨rfl, rfl⟩ := all h hall
      exact ⟨rfl, rfl⟩
  | kept hleaf => cases hleaf
  | routed hleaf => cases hleaf

theorem conjunction (h : Expr.conjunction es = .ok p) (hes : ∀ e ∈ es, s.AcceptsAsIs e) : s.AcceptsAsIs p := by
  rcases Expr.conjunction_eq_ok.mp h with rfl | ⟨-, rfl⟩
  · exact hes p List.mem_cons_self
  · exact apply .and hes

theorem keyEqualities {w : View} {fs ks : List Column} (hs : ∀ m ∈ s.scope, m.view.isStatement = false) :
    ∀ e ∈ Expr.keyEqualities w fs ks, s.AcceptsAsIs e := by
  intro e he
  obtain ⟨f, -, k, -, rfl⟩ := Expr.mem_keyEqualities he
  refine apply .equals fun side hside => ?_
  rcases List.mem_cons.mp hside with rfl | hside
  · exact leaf hs rfl (by simp)
  · obtain rfl := List.mem_singleton.mp hside
    exact leaf hs rfl (by simp)

end AcceptsAsIs

end Select

/-- A predicate between two keys is made of columns and of what these are pinned to. -/
theorem Expr.throughout_keyed {P : View → Prop} {w : View} {fs ks : List Column} {p : Expr}
    (h : conjunction (keyEqualities w fs ks) = .ok p) (hw : w.Throughout P) (htables : ∀ t, P (.table t)) :
    p.Throughout P := by
  have hequalities : ∀ e ∈ keyEqualities w fs ks, e.Throughout P := by
    intro e he
    obtain ⟨f, -, k, -, rfl⟩ := mem_keyEqualities he
    refine throughout_apply.mpr fun leaf hleaf => ?_
    rcases List.mem_cons.mp hleaf with rfl | hleaf
    · exact throughout_pinned.mpr ⟨throughout_column.mpr (htables f.table), hw⟩
    · exact List.mem_singleton.mp hleaf ▸ throughout_column.mpr (htables k.table)
  rcases conjunction_eq_ok.mp h with hsingle | ⟨-, rfl⟩
  · exact hequalities p (hsingle ▸ List.mem_cons_self)
  · exact throughout_apply.mpr hequalities

namespace Select

variable {s t u : Select} {e a : Expr} {p : Expr}

/-! Adding the join. -/

variable {t target : Table} {m : Mapping} {fs ks : List Column} {name : Option String} {c c' : Catalog}

/-- A join from a table moves to the view that the table resolves to, if that is not the table itself. -/
theorem rebase_keyed {l : Join} {v : View} (hm : Scope.resolve s.scope (.table t) = .ok m)
    (hp : Expr.conjunction (Expr.keyEqualities (.table t) fs ks) = .ok p)
    (hl : s.rebase ⟨name, .table t, v, p⟩ = .ok l) :
    ∃ w q, l = ⟨name, w, v, q⟩ ∧ Expr.conjunction (Expr.keyEqualities w fs ks) = .ok q
      ∧ (m.view == w) = true ∧ (w = .table t ∨ w = m.view) := by
  obtain ⟨x, hx, hl⟩ := bind_eq_ok.mp hl
  obtain rfl : m = x := Except.ok.inj (hm.symm.trans hx)
  dsimp only at hl
  split at hl
  case isTrue hextends =>
    rw [Join.changeSource] at hl
    split at hl
    case isFalse => cases hl
    case isTrue =>
      refine ⟨m.view, _, (Except.ok.inj hl).symm, ?_, View.beq_self m.view, Or.inr rfl⟩
      have hmoved := Expr.mapLeaves_conjunction (Join.moveLeaf m.view) hp
      rwa [Expr.map_keyEqualities (u := m.view) (fun _ => rfl) fun _ _ => rfl] at hmoved
  case isFalse hextends =>
    refine ⟨.table t, p, (Except.ok.inj hl).symm, hp, ?_, Or.inl rfl⟩
    have hcompatible : m.view.compatible (.table t) = true :=
      List.find?_some (p := fun x : Mapping => x.view.compatible (.table t)) (Scope.resolve_eq_ok.mp hm)
    exact View.beq_of_not_extends hcompatible (Bool.not_eq_true _ ▸ hextends)

/-- Adding a join appends an entry with the accepted predicate. -/
theorem addSource_join_eq_ok {i : Nat} {j : Join} (h : s.addSource (.join i j) c = .ok (u, c')) :
    ∃ (l : Join) (mark k : Nat) (a : String) (pool : AliasPool) (t : Select) (e : Expr), s.rebase j = .ok l
      ∧ s.aliases.viewAlias (View.join k l).name? = (a, pool)
      ∧ (s.entered ⟨mark, .join k l, a⟩ pool).Accepts l.predicate t e
      ∧ u = t.listing ⟨.join k l, a, t.scope, some e⟩ := by
  have hstep : Step (fun _ => False) (· = .join i j) s u := addSource_step rfl h
  cases hstep with
  | source mark hv hw hj => cases hv; cases hj
  | join mark hv hl ha hacc =>
      cases hv
      exact ⟨_, mark, _, _, _, _, _, hl, ha, hacc, rfl⟩
  | clause he => cases he

theorem Linked.scope_not_statement (h : s.Linked) (hs : ∀ src ∈ s.sources, src.view.isStatement = false) :
    ∀ m ∈ s.scope, m.view.isStatement = false := by
  intro m hm
  obtain ⟨src, hsrc, -, hgrows⟩ := h.mapped m hm
  rw [← hgrows.isStatement, hs src hsrc]

/-- The statement after a named join: the predicate stays as it is made, but for its pins. -/
theorem addSource_keyed {i : Nat} (hlinked : s.Linked)
    (hs : ∀ src ∈ s.sources, src.view.isStatement = false) (hm : Scope.resolve s.scope (.table t) = .ok m)
    (hp : Expr.conjunction (Expr.keyEqualities (.table t) fs ks) = .ok p)
    (h : s.addSource (.join i ⟨name, .table t, .table target, p⟩) c = .ok (u, c')) :
    ∃ (mark k : Nat) (w : View) (q : Expr) (a : String) (pool : AliasPool),
      u = (s.entered ⟨mark, .join k ⟨name, w, .table target, q⟩, a⟩ pool).listing
        ⟨.join k ⟨name, w, .table target, q⟩, a,
          ⟨mark, .join k ⟨name, w, .table target, q⟩, a⟩ :: s.scope, some q⟩
        ∧ Expr.conjunction (Expr.keyEqualities w fs ks) = .ok q
        ∧ (m.view == w) = true ∧ (w = .table t ∨ w = m.view) ∧ a ∉ s.aliases.taken := by
  obtain ⟨l, mark, k, a, pool, v, e, hl, ha, hacc, rfl⟩ := addSource_join_eq_ok h
  obtain ⟨w, q, rfl, hq, heq, hw⟩ := rebase_keyed hm hp hl
  -- no statement is in scope, so the predicate is accepted as it is
  have hplain : ∀ n ∈ (s.entered ⟨mark, .join k ⟨name, w, .table target, q⟩, a⟩ pool).scope,
      n.view.isStatement = false :=
    List.forall_mem_cons.mpr ⟨rfl, hlinked.scope_not_statement hs⟩
  obtain ⟨rfl, rfl⟩ := AcceptsAsIs.conjunction hq (AcceptsAsIs.keyEqualities hplain) hacc
  have hfresh := (s.aliases.viewAlias_spec (View.join k ⟨name, w, .table target, e⟩).name?).1
  rw [ha] at hfresh
  exact ⟨mark, k, w, e, a, pool, rfl, hq, heq, hw, hfresh⟩

end Select

/-! Printing the entry. -/

namespace Piece

theorem textAll_intercalate (sep : List Piece) : ∀ ls : List (List Piece),
    textAll (sep.intercalate ls) = (textAll sep).intercalate (ls.map textAll)
  | [] => rfl
  | [l] => by rw [List.intercalate_singleton, List.map_singleton, String.intercalate_singleton]
  | l :: l' :: ls => by
      rw [List.intercalate_cons_cons, textAll_append, textAll_append, textAll_intercalate sep (l' :: ls),
        List.map_cons, List.map_cons, List.map_cons, String.intercalate_cons_cons]

end Piece

namespace Expr

variable {c : Catalog} {sc : Scope} {w : View} {f k : Column} {x y : Mapping} {es : List Expr} {p : Expr}

/-- Two columns with the aliases of the entries that they resolve to. -/
def keyPieces (x y : Mapping) (f k : Column) : List Piece :=
  [.reference (some x.label) f.name f.table.dialect, .word "=",
    .reference (some y.label) k.name k.table.dialect]

theorem pieces_keyEquality (hx : Scope.resolvePinned sc w = .ok x) (hy : Scope.resolve sc k.view = .ok y) :
    (keyEquality w f k).pieces c sc = keyPieces x y f k := by
  have hpinned : (Expr.pinned (.column f) w).pieces c sc = [.reference (some x.label) f.name f.table.dialect] := by
    rw [pieces, leafPiecesIn, Scope.resolveLeaf, hx]
    rfl
  have hplain : (Expr.column k).pieces c sc = [.reference (some y.label) k.name k.table.dialect] := by
    rw [pieces, leafPiecesIn, Scope.resolveLeaf, hy]
    rfl
  rw [keyEquality, equals, pieces, piecesAll, piecesAll, piecesAll, hpinned, hplain]
  rfl

/-- Predicates that bind tighter than a conjunction stand in it as they are. -/
theorem pieces_conjunction (h : conjunction es = .ok p) (hes : ∀ e ∈ es, e.precedence ≤ Precedence.conjunction) :
    p.pieces c sc = [Piece.word " ", .word "AND", .word " "].intercalate (es.map (·.pieces c sc)) := by
  rcases conjunction_eq_ok.mp h with rfl | ⟨-, rfl⟩
  · rw [List.map_singleton, List.intercalate_singleton]
  · rw [pieces, piecesAll_eq_map]
    show List.intercalate _ ((es.map fun e => (e.precedence, e.pieces c sc)).map _) = _
    rw [List.map_map]
    refine congrArg _ (List.map_congr_left fun e he => ?_)
    show Piece.enclosed Precedence.conjunction e.precedence (e.pieces c sc) = e.pieces c sc
    rw [Piece.enclosed, if_neg (Nat.not_lt_of_le (hes e he))]

end Expr

/-- The text of an entry that joins a target through a foreign key, known by the alias of its source. -/
def Join.keyedText (t target : Table) (source label : String) (fs ks : List String) : String :=
  "INNER JOIN " ++ target.dialect.identifier target.name ++ " " ++ label ++ " ON "
    ++ " AND ".intercalate (List.zipWith (fun f k => source ++ "." ++ t.dialect.identifier f ++ "="
      ++ label ++ "." ++ target.dialect.identifier k) fs ks)

namespace Source

variable {c : Catalog} {sc : Scope} {x y : Mapping} {w : View} {t target : Table} {fs ks : List String} {q : Expr}
  {name : Option String} {k : Nat} {a : String}

theorem pieces_keyed (hx : Scope.resolvePinned sc w = .ok x) (hy : Scope.resolve sc (.table target) = .ok y)
    (hq : Expr.conjunction (Expr.keyEqualities w (fs.map (Column.mk t)) (ks.map (Column.mk target))) = .ok q) :
    Source.pieces c ⟨.join k ⟨name, w, .table target, q⟩, a, sc, some q⟩
      = .word "INNER JOIN " :: .name target.name target.dialect :: .word " " :: .label a :: .word " ON "
        :: [Piece.word " ", .word "AND", .word " "].intercalate
          (List.zipWith (fun f k => Expr.keyPieces x y ⟨t, f⟩ ⟨target, k⟩) fs ks) := by
  have hequalities : (Expr.keyEqualities w (fs.map (Column.mk t)) (ks.map (Column.mk target))).map
      (·.pieces c sc) = List.zipWith (fun f k => Expr.keyPieces x y ⟨t, f⟩ ⟨target, k⟩) fs ks := by
    rw [Expr.keyEqualities, List.map_zipWith, List.zipWith_map]
    refine congrArg₂ (fun g l => List.zipWith g fs l) (funext₂ fun f k => ?_) rfl
    exact Expr.pieces_keyEquality hx hy
  have hbind : ∀ e ∈ Expr.keyEqualities w (fs.map (Column.mk t)) (ks.map (Column.mk target)),
      e.precedence ≤ Precedence.conjunction := by
    intro e he
    obtain ⟨f, -, k, -, rfl⟩ := Expr.mem_keyEqualities he
    exact (by decide : Precedence.equality ≤ Precedence.conjunction)
  rw [← hequalities, ← Expr.pieces_conjunction hq hbind]
  simp [Source.pieces, View.asSource, View.pieces, View.precedence, Precedence.view]

theorem text_keyed (hx : Scope.resolvePinned sc w = .ok x) (hy : Scope.resolve sc (.table target) = .ok y)
    (ha : y.label = a)
    (hq : Expr.conjunction (Expr.keyEqualities w (fs.map (Column.mk t)) (ks.map (Column.mk target))) = .ok q) :
    Piece.textAll (Source.pieces c ⟨.join k ⟨name, w, .table target, q⟩, a, sc, some q⟩)
      = Join.keyedText t target x.label a fs ks := by
  subst ha
  have hequality : ∀ f k : Column, Piece.textAll (Expr.keyPieces x y f k) = x.label ++ "."
      ++ f.table.dialect.identifier f.name ++ "=" ++ y.label ++ "." ++ k.table.dialect.identifier k.name := by
    intro f k
    simp [Expr.keyPieces, Piece.textAll, Piece.text, Piece.qualification, String.append_assoc]
  have hpredicate : Piece.textAll ([Piece.word " ", .word "AND", .word " "].intercalate
      (List.zipWith (fun f k => Expr.keyPieces x y ⟨t, f⟩ ⟨target, k⟩) fs ks))
      = " AND ".intercalate (List.zipWith (fun f k => x.label ++ "." ++ t.dialect.identifier f ++ "="
        ++ y.label ++ "." ++ target.dialect.identifier k) fs ks) := by
    rw [Piece.textAll_intercalate, List.map_zipWith]
    simp only [hequality]
    rfl
  rw [pieces_keyed hx hy hq, Join.keyedText, ← hpredicate]
  simp only [Piece.textAll, Piece.text, String.append_assoc]

theorem faultless_keyed (hx : Scope.resolvePinned sc w = .ok x)
    (hy : Scope.resolve sc (.table target) = .ok y)
    (hq : Expr.conjunction (Expr.keyEqualities w (fs.map (Column.mk t)) (ks.map (Column.mk target))) = .ok q) :
    Piece.anyFaulty (Source.pieces c ⟨.join k ⟨name, w, .table target, q⟩, a, sc, some q⟩) = false := by
  rw [pieces_keyed hx hy hq]
  have hequalities : ∀ ps ∈ List.zipWith (fun f k => Expr.keyPieces x y ⟨t, f⟩ ⟨target, k⟩) fs ks,
      ∀ z ∈ ps, z.isFaulty = false := by
    intro ps hps
    obtain ⟨i, hi, rfl⟩ := List.mem_iff_getElem.mp hps
    rw [List.getElem_zipWith]
    simp [Expr.keyPieces, Piece.isFaulty]
  refine Piece.anyFaulty_eq_false ?_
  simp only [List.forall_mem_cons, Piece.isFaulty, true_and]
  exact Piece.forall_mem_intercalate (by simp [Piece.isFaulty]) hequalities

/-- A join behind the first entry prints behind the others. -/
theorem piecesAfter_concat {src : Source} (h : src.isJoin = true) (f : List Source) :
    piecesAfter c (f ++ [src]) = piecesAfter c f ++ .word " " :: Source.pieces c src := by
  induction f with
  | nil =>
      obtain ⟨v, a, sc, on⟩ := src
      have hon : on.isSome = true := h
      rw [List.nil_append, piecesAfter, piecesAfter, piecesAfter, if_pos hon, List.append_nil]
      rfl
  | cons head f ih =>
      obtain ⟨v, a, sc, on⟩ := head
      rw [List.cons_append, piecesAfter, piecesAfter, ih]
      simp only [List.append_assoc]

theorem piecesAll_concat {src : Source} (h : src.isJoin = true) : ∀ {f : List Source}, f ≠ [] →
    piecesAll c (f ++ [src]) = piecesAll c f ++ .word " " :: Source.pieces c src
  | ⟨v, a, sc, on⟩ :: f, _ => by
      rw [List.cons_append, piecesAll, piecesAll, piecesAfter_concat h f]
      simp only [List.cons_append, List.append_assoc]

end Source

namespace Select

variable {s : Select} {t target : Table} {m : Mapping} {c : Catalog} {columns : List String}

/-- A named join through a foreign key can be made whenever the key of its target has as many columns. If no
statement is among the sources, adding it appends one entry with a fresh alias, which prints behind the
others, where one mark is one node. Its predicate equates the columns of the foreign key, with the alias that
their table resolves to, with those of the key, with the new alias. -/
theorem Reached.keyed_join_prints (hs : s.Reached) (hplain : ∀ src ∈ s.sources, src.view.isStatement = false)
    (hm : Scope.resolve s.scope (.table t) = .ok m) (name : String) (hkey : c.keyColumns target ≠ [])
    (hlength : columns.length = (c.keyColumns target).length) :
    ∃ j, (c.joinAs t name target columns).1 = .ok j ∧ ∀ {i : Nat} {u : Select} {c₁ c₂ : Catalog} {N : Nodes},
      s.addSource (.join i j) c₁ = .ok (u, c₂) → u.Throughout N.Holds →
        ∃ x, u.sources = s.sources ++ [x] ∧ x.label ∉ s.aliases.taken ∧ (∀ y ∈ s.sources, y.label ≠ x.label)
          ∧ ∀ d, Piece.anyFaulty (Source.pieces d x) = false
            ∧ Piece.textAll (Source.pieces d x)
              = Join.keyedText t target m.label x.label columns ((c.keyColumns target).map (·.name))
            ∧ Source.piecesAll d u.sources = Source.piecesAll d s.sources ++ .word " " :: Source.pieces d x := by
  obtain ⟨p, hp, hjoin⟩ := Catalog.joinAs_of_length_eq t name hkey hlength
  refine ⟨_, congrArg Prod.fst hjoin, fun {i u c₁ c₂ N} h hN => ?_⟩
  have hlinked := hs.linked
  obtain ⟨mark, k, w, q, a, pool, rfl, hq, heq, hw, hfresh⟩ := addSource_keyed hlinked hplain hm hp h
  -- the source is found below the join, since no join is its own source, and the target is the join
  have hscope := Select.Throughout.scope hN
  have hnode : (View.join k ⟨some name, w, .table target, q⟩).Throughout N.Holds :=
    hscope _ List.mem_cons_self
  have hsource := Scope.resolvePinned_behind (n := ⟨mark, .join k ⟨some name, w, .table target, q⟩, a⟩)
    (fun x hx => hscope x (List.mem_cons_of_mem _ hx)) (View.throughout_table.mpr trivial) hnode.join.source
    hm heq (Bool.eq_false_iff.mpr (N.join_ne_source hnode))
  have htarget : Scope.resolve (⟨mark, .join k ⟨some name, w, .table target, q⟩, a⟩ :: s.scope) (.table target)
      = .ok ⟨mark, .join k ⟨some name, w, .table target, q⟩, a⟩ :=
    Scope.resolve_head (View.compatible_of_columnTable rfl)
  have hkeys : c.keyColumns target = ((c.keyColumns target).map (·.name)).map (Column.mk target) := by
    rw [Catalog.keyColumns, List.map_map, List.map_map]
    rfl
  rw [hkeys] at hq
  have hne : s.sources ≠ [] := by
    obtain ⟨src, hsrc, -⟩ := hlinked.mapped m (Scope.resolve_mem hm)
    exact List.ne_nil_of_mem hsrc
  refine ⟨_, rfl, hfresh, fun y hy hlabel => hfresh (hlabel.subst (hlinked.taken y hy)), fun d => ⟨?_, ?_, ?_⟩⟩
  · exact Source.faultless_keyed hsource htarget hq
  · exact Source.text_keyed hsource htarget rfl hq
  · exact Source.piecesAll_concat rfl hne

/-- The people with a key of two columns. -/
def keyedPeople : Catalog := ⟨#[⟨["ID", "COUNTRY"], some ["ID", "COUNTRY"]⟩], 9⟩

/-- The columns of the managers, in the order of the key. -/
def ofManager : List String := ["MANAGER_ID", "COUNTRY"]

/-- The managers, who are people. -/
def managers : Join := ⟨some "Manager", .table people, .table people, .apply .and
  (Expr.keyEqualities (.table people) (ofManager.map (Column.mk people)) (keyedPeople.keyColumns people))⟩

theorem managers_eq : (keyedPeople.joinAs people "Manager" people ofManager).1 = .ok managers := by
  obtain ⟨p, hp, hjoin⟩ := Catalog.joinAs_of_length_eq people "Manager"
    (show keyedPeople.keyColumns people ≠ [] by decide)
    (show ofManager.length = (keyedPeople.keyColumns people).length by decide)
  rcases Expr.conjunction_eq_ok.mp hp with hsingle | ⟨-, rfl⟩
  · have hlength := congrArg List.length hsingle
    rw [List.length_singleton] at hlength
    exact absurd hlength (by decide)
  · exact congrArg Prod.fst hjoin

/-- The people joined with their managers. -/
theorem peopleNames_managers : ∃ (m : Mapping) (u : Select) (c : Catalog) (N : Nodes) (x : Source),
    peopleNames.Reached ∧ (∀ src ∈ peopleNames.sources, src.view.isStatement = false)
      ∧ Scope.resolve peopleNames.scope (.table people) = .ok m ∧ keyedPeople.keyColumns people ≠ []
      ∧ ofManager.length = (keyedPeople.keyColumns people).length
      ∧ peopleNames.addSource (.join 5 managers) keyedPeople = .ok (u, c) ∧ u.Throughout N.Holds
      ∧ u.sources = peopleNames.sources ++ [x]
      ∧ Piece.textAll (Source.pieces {} x) = "INNER JOIN People m ON p.MANAGER_ID=m.ID AND p.COUNTRY=m.COUNTRY" := by
  have hreached : peopleNames.Reached := .call (.call (.empty 0) _ {}) _ {}
  have hplain : ∀ src ∈ peopleNames.sources, src.view.isStatement = false := by decide +kernel
  obtain ⟨m, hm, hsource⟩ := Except.exists_of_toOption (f := Mapping.label) (b := "p")
    (x := Scope.resolve peopleNames.scope (.table people)) (by decide +kernel)
  obtain ⟨⟨u, c⟩, hu, hlabels⟩ := Except.exists_of_toOption (f := fun r => r.1.sources.map (·.label))
    (b := ["p", "m"]) (x := peopleNames.addSource (.join 5 managers) keyedPeople) (by decide +kernel)
  have hkey : keyedPeople.keyColumns people ≠ [] := by decide
  have hlength : ofManager.length = (keyedPeople.keyColumns people).length := by decide
  -- the only node is the join as it was placed, and all other views are tables
  have hp : Expr.conjunction (Expr.keyEqualities (.table people) (ofManager.map (Column.mk people))
      (keyedPeople.keyColumns people)) = .ok managers.predicate := rfl
  obtain ⟨mark, k, w, q, a, pool, hform, hq, -, hw, -⟩ := addSource_keyed hreached.linked hplain hm hp hu
  let N : Nodes := ⟨fun _ => ⟨some "Manager", w, .table people, q⟩, fun _ => peopleNames⟩
  have htables : peopleNames.Throughout N.Holds := by
    intro v hv
    obtain ⟨t, rfl⟩ := mem_inside_peopleNames hv
    trivial
  have hpeople : (View.table people).Throughout N.Holds := View.throughout_table.mpr trivial
  have hsourceHolds : w.Throughout N.Holds := by
    rcases hw with rfl | rfl
    · exact hpeople
    · exact htables.scope m (Scope.resolve_mem hm)
  have hnode : (View.join k ⟨some "Manager", w, .table people, q⟩).Throughout N.Holds :=
    View.throughout_join.mpr ⟨rfl, hsourceHolds, hpeople, Expr.throughout_keyed hq hsourceHolds fun _ => trivial⟩
  have hN : u.Throughout N.Holds := by
    rw [hform]
    refine (htables.entered hnode pool).listing hnode fun e he => ?_
    exact Option.some.inj he ▸ (View.throughout_join.mp hnode).2.2.2
  obtain ⟨j, hj, hprints⟩ := hreached.keyed_join_prints hplain hm "Manager" hkey hlength
  obtain rfl : managers = j := Except.ok.inj (managers_eq.symm.trans hj)
  obtain ⟨x, hx, -, -, htext⟩ := hprints hu hN
  refine ⟨m, u, c, N, x, hreached, hplain, hm, hkey, hlength, hu, hN, hx, ?_⟩
  have hlabel : x.label = "m" := by
    have hall : (peopleNames.sources ++ [x]).map (·.label) = ["p", "m"] := hx ▸ hlabels
    have hbefore : peopleNames.sources.map (·.label) = ["p"] := by decide +kernel
    rw [List.map_append, hbefore] at hall
    exact (List.cons.inj (List.cons.inj hall).2).1
  rw [(htext {}).2.1, hsource, hlabel]
  decide +kernel

end Select

end SqlCompose
