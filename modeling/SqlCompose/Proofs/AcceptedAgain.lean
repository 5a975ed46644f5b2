import SqlCompose.Proofs.Carried
import SqlCompose.Proofs.OwnSelectors

/-!
Accepting once more what a statement has accepted. The nested statement takes a reference back to its definition and
finds the projection that it refers to, so the statement comes out as it was, but for the marks of new nodes, and the
reference prints the same. For this the nested statement has to recognise the reference as one of its own. It does
not if the reference goes through a join: then it looks for the join in its own scope, where it cannot be.
-/

namespace SqlCompose

/-! The marks aside. -/

mutual

/-- A view without the marks of the nodes that acceptance replaces. -/
def View.unmarked : View → View
  | .table t => .table t
  | .concrete t => .concrete t
  | .join _ ⟨n, s, t, p⟩ => .join 0 ⟨n, s, t.unmarked, p⟩
  | .select _ q => .select 0 q.unmarked

/-- A statement with the views of its FROM list unmarked. -/
def Select.unmarked : Select → Select
  | ⟨i, f, p, w, h, g, a, sc⟩ => ⟨i, Source.unmarkedAll f, p, w, h, g, a, sc⟩

/-- A FROM list with its views unmarked. -/
def Source.unmarkedAll : List Source → List Source
  | [] => []
  | ⟨v, l, sc, on⟩ :: f => ⟨v.unmarked, l, sc, on⟩ :: Source.unmarkedAll f

end

theorem Source.unmarkedAll_eq_map (f : List Source) :
    unmarkedAll f = f.map fun src => { src with view := src.view.unmarked } := by
  induction f with
  | nil => rfl
  | cons src f ih =>
      cases src
      rw [unmarkedAll, ih, List.map_cons]

theorem Select.unmarked_replace {s : Select} {src : Source} {before after : List Source} {v : View}
    (hf : s.sources = before ++ src :: after) (h : v.unmarked = src.view.unmarked) :
    Select.unmarked { s with sources := before ++ { src with view := v } :: after } = s.unmarked := by
  cases s with
  | mk i f p w hv g a sc =>
      obtain rfl : f = before ++ src :: after := hf
      simp only [unmarked, Source.unmarkedAll_eq_map, List.map_append, List.map_cons, h]

/-- A catalogue with the same registries, in which no fewer marks are given out. -/
structure Catalog.Later (c c' : Catalog) : Prop where
  registries : c'.registries = c.registries
  marks : c.nextMark ≤ c'.nextMark

theorem Catalog.Later.trans {c c₁ c' : Catalog} (h : c.Later c₁) (h' : c₁.Later c') : c.Later c' :=
  ⟨h'.registries.trans h.registries, Nat.le_trans h.marks h'.marks⟩

theorem Catalog.Later.fresh (c : Catalog) : c.Later c.freshMark.2 := ⟨rfl, Nat.le_succ _⟩

/-! Texts with their faults. -/

namespace Piece

/-- Pieces that have the same text, and a fault together, if something is so. -/
def Prints (A : Prop) (ps qs : List Piece) : Prop := A → textAll qs = textAll ps ∧ anyFaulty qs = anyFaulty ps

theorem anyFaulty_append : ∀ ps qs : List Piece, anyFaulty (ps ++ qs) = (anyFaulty ps || anyFaulty qs)
  | [], _ => rfl
  | p :: ps, qs => by rw [List.cons_append, anyFaulty, anyFaulty, anyFaulty_append ps qs, Bool.or_assoc]

theorem Prints.parallel : Parallel Prints where
  same := fun _ _ => ⟨rfl, rfl⟩
  append := fun h h' hAB => by
    rw [textAll_append, textAll_append, anyFaulty_append, anyFaulty_append, (h hAB.1).1, (h' hAB.2).1, (h hAB.1).2,
      (h' hAB.2).2]
    exact ⟨rfl, rfl⟩
  statement := fun h hA => by
    simp only [textAll, text, anyFaulty, isFaulty, h hA, and_self]

end Piece

/-! What comes of an expression that is accepted once more. -/

mutual

/-- An expression that is the same but for references, which may go through a view that has grown. -/
inductive Expr.Again (sc : Scope) : Expr → Expr → Prop
  | same (e : Expr) : Expr.Again sc e e
  | apply (op : Operator) {as bs : List Expr} (h : Expr.AllAgain sc as bs) :
      Expr.Again sc (.apply op as) (.apply op bs)
  | reference {v w : View} {m m' : Mapping} (n : Option String) (d : Expr) (hm : Scope.resolveExact sc v = .ok m)
      (hm' : Scope.resolveExact sc w = .ok m') (hl : m'.label = m.label) (hd : w.dialect = v.dialect) :
      Expr.Again sc (.projected v n d) (.projected w n d)

/-- Arguments that are the same but for references. -/
inductive Expr.AllAgain (sc : Scope) : List Expr → List Expr → Prop
  | nil : Expr.AllAgain sc [] []
  | cons {e b : Expr} {es bs : List Expr} (h : Expr.Again sc e b) (hs : Expr.AllAgain sc es bs) :
      Expr.AllAgain sc (e :: es) (b :: bs)

end

namespace Expr

variable {sc : Scope}

theorem beq_apply_congr {op : Operator} {as bs : List Expr} (h : ∀ xs, beqAll xs as = beqAll xs bs) :
    ∀ x : Expr, x.beq (apply op as) = x.beq (apply op bs)
  | literal _ => by simp only [Expr.beq, core]
  | apply op' xs => by simp only [Expr.beq, core, h]
  | column _ => by simp only [Expr.beq, core]
  | star _ => by simp only [Expr.beq, core]
  | view _ => by simp only [Expr.beq, core]
  | projected _ _ d => by rw [Expr.beq, Expr.beq, beq_apply_congr h d]
  | pinned e _ => by rw [Expr.beq, Expr.beq, beq_apply_congr h e]
  | within _ e => by rw [Expr.beq, Expr.beq, beq_apply_congr h e]

mutual

/-- The same expressions are equal to both. -/
theorem Again.beq_eq : ∀ {e b : Expr}, e.Again sc b → ∀ x : Expr, x.beq e = x.beq b
  | _, _, .same _, _ => rfl
  | _, _, .apply _ h, x => beq_apply_congr h.beqAll_eq x
  | _, _, .reference (v := v) (w := w) n d _ _ _ _, x =>
      beq_congr_core (b := .projected v n d) (d := .projected w n d) rfl x

theorem AllAgain.beqAll_eq : ∀ {es bs : List Expr}, AllAgain sc es bs → ∀ xs : List Expr, beqAll xs es = beqAll xs bs
  | _, _, .nil, _ => rfl
  | _, _, .cons _ _, [] => by simp only [beqAll]
  | _, _, .cons h hs, x :: xs => by rw [beqAll, beqAll, h.beq_eq x, hs.beqAll_eq xs]

end

theorem Again.precedence {e b : Expr} (h : e.Again sc b) : b.precedence = e.precedence := by
  cases h <;> rfl

mutual

/-- Both print the same. -/
theorem Again.prints_alike (c : Catalog) : ∀ {e b : Expr}, e.Again sc b →
    Piece.Prints True (e.pieces c sc) (b.pieces c sc)
  | _, _, .same _ => Piece.Prints.parallel.same _
  | _, _, .apply op h => Piece.Prints.parallel.arrange op (h.prints_alike c)
  | _, _, .reference (v := v) (w := w) (m := m) n d hm hm' hl hd => by
      rw [pieces, pieces, leafPiecesIn, leafPiecesIn, Scope.resolveLeaf, Scope.resolveLeaf, hm, hm', resolvedPieces,
        resolvedPieces, hl]
      cases n with
      | none => exact fun _ => ⟨rfl, rfl⟩
      | some name =>
          show Piece.Prints True [.reference (some m.label) name v.dialect] [.reference (some m.label) name w.dialect]
          rw [hd]
          exact Piece.Prints.parallel.same _

theorem AllAgain.prints_alike (c : Catalog) : ∀ {es bs : List Expr}, AllAgain sc es bs →
    Piece.ParallelAll Piece.Prints True (piecesAll c sc es) (piecesAll c sc bs)
  | _, _, .nil => .nil
  | _, _, .cons (b := b) h hs => by
      rw [piecesAll, piecesAll, h.precedence]
      exact (Piece.ParallelAll.cons (h.prints_alike c) (hs.prints_alike c)).congr (and_self_iff)

end

mutual

/-- Whether no reference to a projection of a nested statement goes through a join, in an expression that was
accepted in a scope and in the definitions behind its references. -/
def isDirect (sc : Scope) : Expr → Bool
  | apply _ args => allDirect sc args
  | projected (.select _ q) _ d => d.isDirect q.scope
  | projected v _ _ => !(sc.resolveExact v).toOption.any (·.view.isStatement)
  | _ => true

/-- Whether all arguments are direct. -/
def allDirect (sc : Scope) : List Expr → Bool
  | [] => true
  | e :: es => e.isDirect sc && allDirect sc es

end

theorem allDirect_eq_all (sc : Scope) : ∀ es : List Expr, allDirect sc es = es.all (·.isDirect sc)
  | [] => rfl
  | e :: es => by rw [allDirect, List.all_cons, allDirect_eq_all sc es]

end Expr

/-! The mapping that a reference is found under. -/

variable {N : Nodes}

/-- Every known view that equals the view has a statement of the identity behind it. -/
def View.Identifies (c : Catalog) (N : Nodes) (v : View) (i : Nat) : Prop :=
  ∀ u : View, u.Throughout (c.Knows N) → u.beq v = true → ∃ r, u.statement? = some r ∧ r.identity = i

namespace View

variable {c : Catalog} {q : Select} {i : Nat}

/-- A known view identifies the statement behind it. -/
theorem identifies_of_known : ∀ {v : View}, v.Throughout (c.Knows N) → v.statement? = some q →
    v.Identifies c N q.identity
  | .table _, _, hq => nomatch hq
  | .concrete _, _, hq => nomatch hq
  | .select i q₀, hv, hq => by
      intro u hu h
      obtain rfl := Option.some.inj hq
      obtain ⟨k, r, rfl, hr⟩ := beq_select.mp (beq_symm h)
      rcases hr with rfl | hr
      · obtain rfl : q₀ = r := hv.self.2.symm.trans hu.self.2
        exact ⟨q₀, rfl, rfl⟩
      · exact ⟨r, rfl, (Select.beq_iff.mp hr).1.symm⟩
  | .join i ⟨n, s, t, p⟩, hv, hq => by
      intro u hu h
      obtain ⟨k, ⟨n', s', t', p'⟩, rfl, hr⟩ := beq_join.mp (beq_symm h)
      rcases hr with rfl | hr
      · obtain ⟨rfl, rfl, rfl, rfl⟩ := Join.mk.inj (hv.self.2.symm.trans hu.self.2)
        exact ⟨q, hq, rfl⟩
      · exact identifies_of_known (v := t) hv.join.target hq t' hu.join.target (beq_symm (Join.beq_iff.mp hr).2.2.1)

/-- A new node of a statement identifies the statement. -/
theorem identifies_of_new (hi : c.nextMark ≤ i) : (select i q).Identifies c N q.identity := by
  intro u hu h
  obtain ⟨k, r, rfl, hr⟩ := beq_select.mp (beq_symm h)
  rcases hr with rfl | hr
  · exact absurd hu.self.1 (Nat.not_lt_of_le hi)
  · exact ⟨r, rfl, (Select.beq_iff.mp hr).1.symm⟩

/-- A mapping of exactly the view has a statement of the identity behind it, too. -/
theorem Identifies.behind {v : View} {m : Mapping} (h : v.Identifies c N i) (hm : m.view.Throughout (c.Knows N))
    (hv : Scope.isMappingOf m v = true) : ∃ r, m.view.statement? = some r ∧ r.identity = i := by
  rw [Scope.isMappingOf] at hv
  split at hv
  case h_1 k j hj =>
    rcases Bool.or_eq_true_iff.mp hv with hv | hv
    · exact h _ hm hv
    · obtain ⟨n, s, t, p⟩ := j
      rw [hj] at hm ⊢
      exact h t hm.join.target hv
  case h_2 => exact h _ hm hv

end View

namespace Select

variable {s t q : Select} {e a d leaf : Expr} {es as : List Expr} {c c' c₀ k : Catalog} {v w : View} {m : Mapping}
  {src : Source} {i : Nat} {p : Projection}

/-- A view that leads to a nested statement is found under the alias of its source, and so is a grown one. -/
theorem Route.finds (h : s.Route m src v q) (hs : s.Tidy k) (hN : s.Throughout (c₀.Knows N)) (hvw : v.Grows w)
    (hw : w.Identifies c₀ N q.identity) :
    ∃ x ∈ s.scope, Scope.resolveExact s.scope w = .ok x ∧ x.label = src.label ∧ x.view.isStatement = true := by
  have hgrows := h.before.trans h.after
  have hnan : m.view.nanFree = true := hgrows.nanFree.symm.trans (hs.nanFree src h.source)
  obtain ⟨x, hx⟩ := Scope.exists_resolveExact_of_grows h.mapping hnan (h.before.trans hvw)
  have hxm := Scope.resolveExact_mem hx
  obtain ⟨r, hr, hri⟩ := hw.behind (hN.scope x hxm)
    (List.find?_some (p := fun y : Mapping => Scope.isMappingOf y w) (Scope.resolveExact_eq_ok.mp hx))
  obtain ⟨y, hy, hyl, hxy⟩ := hs.linked.mapped x hxm
  obtain ⟨r', hr', hrr⟩ := hxy.statement? hr
  have hlabel : y.label = src.label := hs.apart y hy src h.source r' q hr' h.behind (hrr.identity.trans hri)
  obtain rfl := hs.linked.eq_of_label hy h.source hlabel
  exact ⟨x, hxm, hx, hyl.symm, hxy.isStatement.symm.trans (hgrows.isStatement.trans h.statement)⟩

/-- The statement behind the view is the nested one as it was. -/
theorem Route.identity (h : s.Route m src v q) : ∃ q₀, v.statement? = some q₀ ∧ q₀.identity = q.identity := by
  obtain ⟨q₀, hq₀, hgrows⟩ := h.after.statement?_of h.behind
  exact ⟨q₀, hq₀, hgrows.identity.symm⟩

/-- The view of a nested statement is not the statement itself. -/
theorem Route.not_self (h : s.Route m src v q) (hs : s.Tidy k) (hst : s.Grows t) : t.isSelf v = false := by
  obtain ⟨q₀, hq₀, hidentity⟩ := h.identity
  cases v with
  | select i r =>
      obtain rfl := Option.some.inj hq₀
      refine Bool.eq_false_iff.mpr fun hself => hs.outer src h.source q h.behind ?_
      rw [← hidentity, ← hst.identity]
      exact (beq_iff.mp hself).1
  | table u => rfl
  | concrete u => rfl
  | join i j => rfl

/-- The view has become the one behind its source. -/
theorem Route.of_select (h : s.Route m src (.select i r) q) : (∃ j, src.view = .select j q) ∧ r.Grows q := by
  obtain ⟨j, r', hview, hgrows⟩ := h.after.of_select
  have hbehind := h.behind
  rw [hview] at hbehind
  obtain rfl := Option.some.inj hbehind
  exact ⟨⟨j, hview⟩, hgrows⟩

/-- The nested statement is the one that the view stands for, also when both have grown. -/
theorem Route.recognised {src' : Source} {q' : Select} (h : s.Route m src (.select i r) q) (hs : s.Tidy k)
    (h' : t.Route m src' (.select i r) q') : q'.isSelf (.select i r) = true := by
  have hnan : (View.select i r).nanFree = true := h.after.nanFree.symm.trans (hs.nanFree src h.source)
  exact beq_of_grows hnan h'.of_select.2

theorem Route.identifies (h : s.Route m src v q) (hv : v.Throughout (c₀.Knows N)) :
    v.Identifies c₀ N q.identity := by
  obtain ⟨q₀, hq₀, hidentity⟩ := h.identity
  exact hidentity ▸ View.identifies_of_known hv hq₀

theorem Linked.split (h : s.Linked) (hsrc : src ∈ s.sources) :
    ∃ before after, s.sources = before ++ src :: after ∧ ∀ x ∈ before, x.label ≠ src.label := by
  obtain ⟨before, after, hf, hfirst⟩ := List.eq_append_cons_of_mem hsrc
  refine ⟨before, after, hf, fun x hx hlabel => hfirst ?_⟩
  exact h.eq_of_label (hf ▸ List.mem_append_left _ hx) hsrc hlabel ▸ hx

/-! One leaf. -/

/-- A leaf of a nested statement is accepted only if the nested statement accepts it. -/
theorem exists_accept_inside {r : (Select × Expr) × Catalog} (hleaf : leaf.isLeaf = true) (hown : s.owns leaf = false)
    (hrun : s.accept leaf c = .ok r) (hm : Scope.resolveLeaf s.scope leaf = .ok m) (hs : m.view.isStatement = true) :
    ∃ src ∈ s.sources, src.label = m.label ∧ ∃ q, src.view.statement? = some q ∧
      ∃ r, q.accept leaf.unpinned c = .ok r := by
  obtain ⟨⟨t, a⟩, c'⟩ := r
  rw [accept_leaf_eq hleaf hown] at hrun
  obtain ⟨m', hm', -, hcase⟩ := acceptLeaf_eq_ok hrun
  obtain rfl : m = m' := Except.ok.inj (hm.symm.trans hm')
  rcases hcase with ⟨hs', -⟩ | ⟨-, before, src, after, q, r, name, d, c₁, w, hf, -, hl, hq, hp, -⟩
  · rw [hs] at hs'
    cases hs'
  · obtain ⟨u, b, hub, -⟩ := provide_eq_ok hp
    exact ⟨src, hf ▸ List.mem_append_right _ List.mem_cons_self, hl, q, hq, _, hub⟩

/-! What is accepted once more, also after the statement has grown. -/

/-- An expression is accepted without a change by the statement, as it is and when it has grown. -/
def Returns (c₀ : Catalog) (s : Select) (e : Expr) : Prop := ∀ (s' : Select) (c : Catalog), s.Grows s' → c₀.Later c →
  ∃ t a c', s'.accept e c = .ok ((t, a), c') ∧ t.unmarked = s'.unmarked ∧ e.Again s.scope a ∧ c₀.Later c'

/-- An expression is not accepted by the statement, as it is and when it has grown. -/
def Refuses (s : Select) (e : Expr) : Prop := ∀ (s' : Select) (c : Catalog) (r : (Select × Expr) × Catalog),
  s.Grows s' → s'.accept e c ≠ .ok r

theorem Returns.inTurn (h : ∀ e ∈ es, s.Returns c₀ e) : ∀ (s' : Select) (c : Catalog), s.Grows s' → c₀.Later c →
    ∃ t as c', s'.AcceptsInTurn c es t as c' ∧ t.unmarked = s'.unmarked ∧ Expr.AllAgain s.scope es as
      ∧ c₀.Later c' := by
  induction es with
  | nil => exact fun s' c _ hc => ⟨s', [], c, .nil s' c, rfl, .nil, hc⟩
  | cons e es ih =>
      intro s' c hs hc
      rw [List.forall_mem_cons] at h
      obtain ⟨t, a, c₁, ht, hunmarked, hagain, hc₁⟩ := h.1 s' c hs hc
      obtain ⟨u, as, c', hu, hunmarked', hagain', hc'⟩ := ih h.2 t c₁ (hs.trans (accept_sound ht).grows) hc₁
      exact ⟨u, a :: as, c', .cons ht hu, hunmarked'.trans hunmarked, .cons hagain hagain', hc'⟩

theorem AcceptsInTurn.exists_accept (h : s.AcceptsInTurn c es t as c') (he : e ∈ es) :
    ∃ u c₁ r, s.Grows u ∧ u.accept e c₁ = .ok r := by
  induction h with
  | nil => cases he
  | cons h hs ih =>
      rcases List.mem_cons.mp he with rfl | he
      · exact ⟨_, _, _, .refl _, h⟩
      · obtain ⟨u, c₁, r, hu, hr⟩ := ih he
        exact ⟨u, c₁, r, (accept_sound h).grows.trans hu, hr⟩

/-- A reference through the nested statement itself leads back to the projection. -/
theorem Returns.reference (hroute : s.Route m src (.select i r) q) (hs : s.Tidy k) (hN : s.Throughout (c₀.Knows N))
    (hknown : (View.select i r).Throughout (c₀.Knows N))
    (hp : q.projections.find? (·.definition == p.definition) = some p) (h : q.Returns c₀ p.definition) :
    s.Returns c₀ (.projected (.select i r) p.name? p.definition) := by
  intro s' c hgrows hc
  obtain ⟨src', q', hroute', hlabel, hqq⟩ := hroute.grows hgrows
  obtain ⟨⟨j, hview⟩, hrq⟩ := hroute'.of_select
  obtain ⟨before, after, hsplit, hbefore⟩ := (hs.linked.grows hgrows).split hroute'.source
  obtain ⟨x, -, hfind, hxl, hxs⟩ := hroute.finds hs hN (.refl _) (hroute.identifies hknown)
  -- the reference belongs to the nested statement and not to the statement around it
  have hown : s'.owns (.projected (.select i r) p.name? p.definition) = false := hroute.not_self hs hgrows
  obtain ⟨u, b, c₁, hrun, hunmarked, hagain, hc₁⟩ := h q' c hqq hc
  have hqu := (accept_sound hrun).grows
  -- what comes of the definition equals the same definitions, and so the projection is found again
  have hreused : u.projections.find? (·.definition == b) = some p := by
    rw [(accept_sound hrun).projections, ← hqq.projections.find?_eq_some hp]
    exact List.find?_congr fun y _ => (hagain.beq_eq y.definition).symm
  have hinside : q'.accept (.projected (.select i r) p.name? p.definition) c = .ok ((u, b), c₁) := by
    rw [accept_own (hroute.recognised hs hroute')]
    exact hrun
  have hgrown : (View.select i r).Grows (.select c₁.nextMark u) := hrq.trans hqu
  -- no view in scope has the mark of the new node, so it is found by the statement behind it
  obtain ⟨x', -, hfind', hxl', -⟩ := hroute.finds hs hN hgrown
    ((hqu.identity.trans hqq.identity) ▸ View.identifies_of_new (q := u) hc₁.marks)
  have hlast : src'.label = x.label := hlabel.trans hxl.symm
  refine ⟨{ s' with sources := before ++ { src' with view := .select c₁.nextMark u } :: after }, _, _, ?_,
    unmarked_replace hsplit ?_, .reference _ _ hfind hfind' (hxl'.trans hxl.symm) hgrown.dialect, hc₁.trans (.fresh c₁)⟩
  · rw [accept_leaf_eq rfl hown]
    exact acceptLeaf_routed (hgrows.scope ▸ hfind) hxs rfl hsplit (fun y hy => (hbefore y hy).trans_eq hlast) hlast
      (throughSource_select hview (provide_reused hinside hreused))
  · rw [hview, View.unmarked, View.unmarked, hunmarked]

/-- A reference that leads to a nested statement is accepted only if the nested statement accepts it. -/
theorem Route.inside (h : s.Route m src v q) (hs : s.Tidy k) (hN : s.Throughout (c₀.Knows N))
    (hknown : v.Throughout (c₀.Knows N)) (hst : s.Grows t) {n : Option String} {o : (Select × Expr) × Catalog}
    (hrun : t.accept (.projected v n d) c = .ok o) : ∃ src' q', t.Route m src' v q' ∧ q.Grows q' ∧
      ∃ o', q'.accept (.projected v n d) c = .ok o' := by
  obtain ⟨x, -, hfind, hxl, hxs⟩ := h.finds hs hN (.refl v) (h.identifies hknown)
  have hown : t.owns (.projected v n d) = false := h.not_self hs hst
  obtain ⟨y, hy, hyl, r, hr, hinside⟩ := exists_accept_inside rfl hown hrun (hst.scope ▸ hfind) hxs
  obtain ⟨src', q', hroute, hlabel, hqq⟩ := h.grows hst
  obtain rfl := (hs.linked.grows hst).eq_of_label hy hroute.source (hyl.trans (hxl.trans hlabel.symm))
  obtain rfl := Option.some.inj (hr.symm.trans hroute.behind)
  exact ⟨y, r, hroute, hqq, hinside⟩

/-- A reference is refused if the nested statement refuses the definition that it takes it back to. -/
theorem Refuses.reference (hroute : s.Route m src (.select i r) q) (hs : s.Tidy k) (hN : s.Throughout (c₀.Knows N))
    (hknown : (View.select i r).Throughout (c₀.Knows N)) (h : q.Refuses d) (n : Option String) :
    s.Refuses (.projected (.select i r) n d) := by
  intro s' c o hgrows hrun
  obtain ⟨src', q', hroute', hqq, o', hinside⟩ := hroute.inside hs hN hknown hgrows hrun
  rw [accept_own (hroute.recognised hs hroute')] at hinside
  exact h q' c o' hqq hinside

/-- A reference through a join is refused: the nested statement would need the join in its own scope, and so itself
behind one of its sources. -/
theorem Refuses.through_join {j : Join} (hroute : s.Route m src (.join i j) q) (hs : s.Deep (Tidy k))
    (hN : s.Throughout (c₀.Knows N)) (hknown : (View.join i j).Throughout (c₀.Knows N)) (n : Option String) (d : Expr) :
    s.Refuses (.projected (.join i j) n d) := by
  intro s' c o hgrows hrun
  obtain ⟨src', q', hroute', hqq, ⟨⟨u, b⟩, c'⟩, hinside⟩ := hroute.inside hs.self hN hknown hgrows hrun
  rw [accept_leaf_eq rfl rfl] at hinside
  obtain ⟨y, hy, -⟩ := acceptLeaf_eq_ok hinside
  rw [hqq.scope] at hy
  obtain ⟨l, hl⟩ := (hN.views src hroute.source).statement hroute.behind
  have hqN : q.Throughout (c₀.Knows N) := hl.select
  have hq := (hs.inner src hroute.source q hroute.behind).self
  have hym := Scope.resolveExact_mem hy
  obtain ⟨r, hr, hri⟩ := (hroute.identifies hknown).behind (hqN.scope y hym)
    (List.find?_some (p := fun z : Mapping => Scope.isMappingOf z (.join i j)) (Scope.resolveExact_eq_ok.mp hy))
  -- a source of the nested statement would have this statement behind it
  obtain ⟨z, hz, -, hyz⟩ := hq.linked.mapped y hym
  obtain ⟨r', hr', hrr⟩ := hyz.statement? hr
  exact hq.outer z hz r' hr' (hrr.identity.trans hri)

/-! All leaves together. -/

theorem Returns.kept (hleaf : leaf.isLeaf = true) (hm : Scope.resolveLeaf s.scope leaf = .ok m)
    (hs : m.view.isStatement = false) (hcheck : checkDeclared c₀ m.view leaf.unpinned = .ok ()) :
    s.Returns c₀ leaf := by
  intro s' c hgrows hc
  refine ⟨s', leaf, c, ?_, rfl, .same leaf, hc⟩
  rw [accept_leaf_eq hleaf (owns_of_kept hm hs s')]
  exact acceptLeaf_kept (hgrows.scope ▸ hm) hs (checkDeclared_congr hc.registries _ _ ▸ hcheck) accept

theorem isDirect_of_kept (hleaf : leaf.isLeaf = true) (hm : Scope.resolveLeaf s.scope leaf = .ok m)
    (hs : m.view.isStatement = false) : leaf.isDirect s.scope = true := by
  have hreference : ∀ v, Scope.resolveExact s.scope v = .ok m →
      (!(Scope.resolveExact s.scope v).toOption.any (·.view.isStatement)) = true := by
    intro v hv
    rw [hv]
    simp [Except.toOption, hs]
  cases leaf with
  | column c => rfl
  | star v => rfl
  | pinned e v => rfl
  | projected v n d =>
      cases v with
      | select i q => exact absurd rfl (ne_reference_of_kept hm hs i q n d)
      | table t => exact hreference _ hm
      | concrete t => exact hreference _ hm
      | join i j => exact hreference _ hm
  | literal v => cases hleaf
  | apply op args => cases hleaf
  | view v => cases hleaf
  | within sc e => cases hleaf

/-- What a statement carries comes out of another acceptance as it is, if no reference goes through a join. -/
theorem Carries.returns (h : s.Carries k e) (hk : c₀.registries = k.registries) : s.Deep (Tidy k) →
    s.Throughout (c₀.Knows N) → e.Throughout (c₀.Knows N) → e.isDirect s.scope = true → s.Returns c₀ e := by
  induction h with
  | literal v =>
      intro _ _ _ _ s' c _ hc
      refine ⟨s', .literal v, c, ?_, rfl, .same _, hc⟩
      rw [accept, acceptAt_eq, acceptWith]
      rfl
  | statement i q =>
      intro _ _ _ _ s' c _ hc
      refine ⟨s', .view (.select i q), c, ?_, rfl, .same _, hc⟩
      rw [accept, acceptAt_eq, acceptWith]
      rfl
  | apply op h ih =>
      intro hs hN he hdirect s' c hgrows hc
      rw [Expr.isDirect, Expr.allDirect_eq_all, List.all_eq_true] at hdirect
      obtain ⟨t, as, c', hrun, hunmarked, hagain, hc'⟩ := Returns.inTurn
        (fun x hx => ih x hx hs hN (Expr.throughout_apply.mp he x hx) (hdirect x hx)) s' c hgrows hc
      exact ⟨t, .apply op as, c', accept_apply_iff.mpr ⟨as, rfl, hrun⟩, hunmarked, .apply op hagain, hc'⟩
  | kept hleaf hm hstatement hc =>
      exact fun _ _ _ _ => .kept hleaf hm hstatement (checkDeclared_congr hk _ _ ▸ hc)
  | @reference s q m src v p hroute hp hd ih =>
      intro hs hN he hdirect
      obtain ⟨hv, hdN⟩ := Expr.throughout_projected.mp he
      obtain ⟨l, hl⟩ := (hN.views src hroute.source).statement hroute.behind
      obtain ⟨q₀, hq₀, hqq⟩ := hroute.after.statement?_of hroute.behind
      obtain ⟨x, -, hfind, -, hxs⟩ := hroute.finds hs.self hN (.refl v) (hroute.identifies hv)
      cases v with
      | table t => cases hq₀
      | concrete t => cases hq₀
      | join i j =>
          have hindirect : (!(Scope.resolveExact s.scope (.join i j)).toOption.any (·.view.isStatement)) = false := by
            rw [hfind]
            simp [Except.toOption, hxs]
          exact absurd (hindirect.symm.trans hdirect) Bool.false_ne_true
      | select i r =>
          obtain rfl := Option.some.inj hq₀
          exact .reference hroute hs.self hN hv hp
            (ih (hs.inner src hroute.source q hroute.behind) hl.select hdN (hqq.scope ▸ hdirect))

/-- What a statement carries is not accepted again, if a reference goes through a join. -/
theorem Carries.refuses (h : s.Carries k e) : s.Deep (Tidy k) → s.Throughout (c₀.Knows N) →
    e.Throughout (c₀.Knows N) → e.isDirect s.scope = false → s.Refuses e := by
  induction h with
  | literal v => exact fun _ _ _ h => nomatch h
  | statement i q => exact fun _ _ _ h => nomatch h
  | apply op h ih =>
      intro hs hN he hdirect s' c o hgrows hrun
      obtain ⟨⟨t, a⟩, c'⟩ := o
      rw [Expr.isDirect, Expr.allDirect_eq_all, List.all_eq_false] at hdirect
      obtain ⟨x, hx, hdirect⟩ := hdirect
      obtain ⟨as, -, hturn⟩ := accept_apply_iff.mp hrun
      obtain ⟨u, c₁, o, hu, ho⟩ := hturn.exists_accept hx
      exact ih x hx hs hN (Expr.throughout_apply.mp he x hx) (by simpa using hdirect) u c₁ o (hgrows.trans hu) ho
  | kept hleaf hm hstatement hc =>
      intro _ _ _ hdirect
      rw [isDirect_of_kept hleaf hm hstatement] at hdirect
      cases hdirect
  | @reference s q m src v p hroute hp hd ih =>
      intro hs hN he hdirect
      obtain ⟨hv, hdN⟩ := Expr.throughout_projected.mp he
      obtain ⟨l, hl⟩ := (hN.views src hroute.source).statement hroute.behind
      obtain ⟨q₀, hq₀, hqq⟩ := hroute.after.statement?_of hroute.behind
      cases v with
      | table t => cases hq₀
      | concrete t => cases hq₀
      | join i j => exact .through_join hroute hs hN hv _ _
      | select i r =>
          obtain rfl := Option.some.inj hq₀
          exact .reference hroute hs.self hN hv
            (ih (hs.inner src hroute.source q hroute.behind) hl.select hdN (hqq.scope ▸ hdirect)) _

/-- What was accepted is accepted again exactly if no reference in it, nor in the definitions behind its references,
goes through a join to a nested statement. Then nothing changes but marks, and it prints the same. -/
theorem Formed.accepted_again_iff_direct (h : s.Formed) (hs : s.Deep (Orderly c)) (hN : s.Throughout (c.Knows N))
    (hbasic : e.isBasic = true) (he : e.Throughout (c.Knows N)) (hrun : s.accept e c = .ok ((t, a), c')) :
    ((t.accept a c').isOk = true ↔ a.isDirect t.scope = true) ∧
    ∀ u b c'', t.accept a c' = .ok ((u, b), c'') → u.unmarked = t.unmarked ∧ ∀ k,
      Piece.textAll (b.pieces k t.scope) = Piece.textAll (a.pieces k t.scope) ∧
        Piece.anyFaulty (b.pieces k t.scope) = Piece.anyFaulty (a.pieces k t.scope) := by
  obtain ⟨htidy, hcarries, -, N', -, ht, ha⟩ := accept_lands hrun (h.deep_tidy hs) hN hbasic he
  have hregistries : c'.registries = c.registries := accept_quiet s e hrun
  have hrefuses : a.isDirect t.scope = false → ∀ r, t.accept a c' ≠ .ok r := fun hdirect r =>
    hcarries.refuses htidy ht ha hdirect t c' r (.refl t)
  cases hdirect : a.isDirect t.scope with
  | false =>
      refine ⟨iff_of_false (fun hok => ?_) Bool.false_ne_true, fun u b c'' hub => absurd hub (hrefuses hdirect _)⟩
      obtain ⟨r, hr⟩ := Except.exists_of_isOk hok
      exact hrefuses hdirect r hr
  | true =>
      obtain ⟨u, b, c'', hub, hunmarked, hagain, -⟩ :=
        hcarries.returns hregistries htidy ht ha hdirect t c' (.refl t) ⟨rfl, Nat.le_refl _⟩
      refine ⟨iff_of_true (hub ▸ rfl) rfl, fun u' b' c₂ hub' => ?_⟩
      obtain ⟨hr, -⟩ := Prod.mk.inj (Except.ok.inj (hub'.symm.trans hub))
      obtain ⟨rfl, rfl⟩ := Prod.mk.inj hr
      exact ⟨hunmarked, fun k => hagain.prints_alike k trivial⟩

/-- The names of the people are orderly, and so is a statement over them. -/
theorem peopleNames_over_orderly : peopleNames.over.Deep (Orderly { nextMark := 8 }) := by
  have hcarried : ∀ p ∈ peopleNames.projections, peopleNames.Carries { nextMark := 8 } p.definition := by
    have htaken : peopleNames.projections.all (fun p => p.definition.isLeaf
        && peopleNames.takesLeaf { nextMark := 8 } p.definition) = true := by decide +kernel
    intro p hp
    obtain ⟨hleaf, htakes⟩ := Bool.and_eq_true_iff.mp (List.all_eq_true.mp htaken p hp)
    obtain ⟨-, -, m, hm, hs, hcheck⟩ := takesLeaf_iff.mp htakes
    exact .kept hleaf hm hs hcheck
  have hplain : ∀ src ∈ peopleNames.sources, src.view.nanFree = true ∧ src.view.statement? = none := by
    have htables : peopleNames.sources.all (fun src => src.view.nanFree && src.view.statement?.isNone) = true := by
      decide +kernel
    simpa using htables
  have hinner : peopleNames.Deep (Orderly { nextMark := 8 }) := by
    have hnone : ∀ src ∈ peopleNames.sources, ∀ q, src.view.statement? ≠ some q := fun src hsrc q hq =>
      nomatch (hplain src hsrc).2.symm.trans hq
    exact .mk ⟨fun src hsrc => (hplain src hsrc).1, fun src hsrc q hq => absurd hq (hnone src hsrc q),
      fun x hx y hy q r hq => absurd hq (hnone x hx q), fun src hsrc q hq => absurd hq (hnone src hsrc q)⟩
      fun src hsrc q hq => absurd hq (hnone src hsrc q)
  have hsource : ∀ src ∈ peopleNames.over.sources, src.view = .select 7 peopleNames := by
    intro src hsrc
    rw [List.mem_singleton.mp hsrc]
  have hbehind : ∀ src ∈ peopleNames.over.sources, ∀ q, src.view.statement? = some q → peopleNames = q := by
    intro src hsrc q hq
    rw [hsource src hsrc] at hq
    exact Option.some.inj hq
  refine .mk ⟨fun src hsrc => ?_, fun src hsrc q hq => ?_, fun x hx y hy _ _ _ _ _ => ?_, fun src hsrc q hq => ?_⟩
    fun src hsrc q hq => ?_
  · rw [hsource src hsrc]
    decide +kernel
  · rw [← hbehind src hsrc q hq]
    decide +kernel
  · rw [List.mem_singleton.mp hx, List.mem_singleton.mp hy]
  · exact hbehind src hsrc q hq ▸ hcarried
  · exact hbehind src hsrc q hq ▸ hinner

/-- All nodes in the statement are known, where every mark stands for the names of the people. -/
theorem peopleNames_over_known : peopleNames.over.Throughout (Catalog.Knows { nextMark := 8 }
    ⟨fun _ => ⟨none, .table people, .table people, .literal .null⟩, fun _ => peopleNames⟩) := by
  have hview : (View.select 7 peopleNames).Throughout (Catalog.Knows { nextMark := 8 }
      ⟨fun _ => ⟨none, .table people, .table people, .literal .null⟩, fun _ => peopleNames⟩) := by
    refine View.throughout_select.mpr ⟨⟨by decide, rfl⟩, fun v hv => ?_⟩
    obtain ⟨t, rfl⟩ := mem_inside_peopleNames hv
    trivial
  refine throughout_iff.mpr ⟨fun src hsrc => ?_, nofun, nofun, nofun, nofun, fun m hm => ?_⟩
  · rw [List.mem_singleton.mp hsrc]
    exact ⟨hview, nofun⟩
  · rw [List.mem_singleton.mp hm]
    exact hview

/-- The reference to a name is accepted again, and nothing changes. -/
theorem peopleNames_over_accepted_again : ∃ t a c' u b c'',
    peopleNames.over.accept (.ofPeople "name") { nextMark := 8 } = .ok ((t, a), c')
    ∧ t.accept a c' = .ok ((u, b), c'') ∧ u.unmarked = t.unmarked
    ∧ Piece.textAll (b.pieces {} t.scope) = "a.name" := by
  have hshown : (peopleNames.over.accept (.ofPeople "name") { nextMark := 8 }).toOption.map
      (fun r => (r.1.2.isDirect r.1.1.scope, Piece.textAll (r.1.2.pieces {} r.1.1.scope)))
        = some (true, "a.name") := by decide +kernel
  obtain ⟨⟨⟨t, a⟩, c'⟩, hrun, hshown⟩ := Except.exists_of_toOption hshown
  obtain ⟨hdirect, htext⟩ := Prod.mk.inj hshown
  obtain ⟨hiff, hsame⟩ := peopleNames_formed.over.accepted_again_iff_direct peopleNames_over_orderly
    peopleNames_over_known rfl (Expr.throughout_column.mpr trivial) hrun
  obtain ⟨⟨⟨u, b⟩, c''⟩, hub⟩ := Except.exists_of_isOk (hiff.mpr hdirect)
  obtain ⟨hunmarked, hprints⟩ := hsame u b c'' hub
  exact ⟨t, a, c', u, b, c'', hrun, hub, hunmarked, (hprints {}).1.trans htext⟩

/-- The people, and their names as the target of a join. -/
def peopleWithNames : Select :=
  (Call.addSource (.join 8 ontoNames)).attempt {} ((Call.addSource (.table people)).attempt {} (.empty 1))

/-- The reference to a name that is reached through the join is not accepted again. -/
theorem peopleWithNames_not_accepted_again : peopleWithNames.Reached ∧ ∃ t a c',
    peopleWithNames.accept (.ofPeople "name") { nextMark := 9 } = .ok ((t, a), c')
    ∧ Piece.textAll (a.pieces {} t.scope) = "a.name" ∧ (t.accept a c').isOk = false := by
  have hshown : (peopleWithNames.accept (.ofPeople "name") { nextMark := 9 }).toOption.map
      (fun r => (Piece.textAll (r.1.2.pieces {} r.1.1.scope), (r.1.1.accept r.1.2 r.2).isOk))
        = some ("a.name", false) := by decide +kernel
  obtain ⟨⟨⟨t, a⟩, c'⟩, hrun, hshown⟩ := Except.exists_of_toOption hshown
  obtain ⟨htext, hagain⟩ := Prod.mk.inj hshown
  exact ⟨.call (.call (.empty 1) _ {}) _ {}, t, a, c', hrun, htext, hagain⟩

end Select

end SqlCompose
