import SqlCompose.Proofs.Recurring

/-!
What a statement accepts does not depend on how far it has grown. Growth changes neither the scope nor the aliases of
the sources, and a statement that has grown recognises the same references as its own. So it accepts the same
expressions, and it accepts an operator with its arguments exactly if it accepts each argument by itself, although
every argument that is accepted lets the statement grow for the next one.
-/

namespace SqlCompose

/-! Steps that succeed. -/

namespace Build

variable {α β : Type} {c : Catalog}

theorem bind_isOk {x : Build α} {f : α → Build β} :
    ((x >>= f) c).isOk = true ↔ ∃ a c', x c = .ok (a, c') ∧ (f a c').isOk = true := by
  change (x c >>= fun p => f p.1 p.2).isOk = true ↔ _
  cases x c with
  | error cause => exact iff_of_false Bool.false_ne_true (by rintro ⟨_, _, h, -⟩; cases h)
  | ok p =>
      constructor
      · exact fun h => ⟨p.1, p.2, rfl, h⟩
      · rintro ⟨a, c', h, hf⟩
        obtain rfl := Except.ok.inj h
        exact hf

theorem bind_pure_isOk {x : Build α} {f : α → β} : ((x >>= fun a => pure (f a)) c).isOk = (x c).isOk := by
  change (x c >>= fun p => (pure (f p.1) : Build β) p.2).isOk = (x c).isOk
  cases x c <;> rfl

theorem lift_isOk {x : Except Error α} : ((liftM x : Build α) c).isOk = x.isOk := by
  cases x <;> rfl

end Build

theorem View.withStatement_isOk (r : Select) : ∀ (v : View) (c : Catalog), (v.withStatement r c).isOk = true
  | .table _, _ => rfl
  | .concrete _, _ => rfl
  | .select _ _, _ => rfl
  | .join _ ⟨_, _, t, _⟩, c => by
      obtain ⟨⟨u, c'⟩, hu⟩ := Except.exists_of_isOk (withStatement_isOk r t c)
      exact Build.bind_isOk.mpr ⟨u, c', hu, rfl⟩

/-- The sources found under an alias grow with the FROM list. -/
theorem Source.GrowAll.find? {f g : List Source} (h : GrowAll f g) (l : String) :
    Option.Rel Source.Grows (f.find? (·.label == l)) (g.find? (·.label == l)) := by
  induction growAll_iff.mp h with
  | nil => exact .none
  | @cons x y f g hxy htail ih =>
      rw [List.find?_cons, List.find?_cons, hxy.1]
      cases x.label == l with
      | true => exact .some hxy
      | false => exact ih (growAll_iff.mpr htail)

namespace Select

variable {s u q : Select} {e a leaf : Expr} {es : List Expr} {c k : Catalog} {N M : Nodes} {src : Source}
  {accept : Acceptor}

theorem updateSource_isOk {l : String} {f : Source → Build (Source × Expr)} : ∀ {sources : List Source},
    (updateSource l f sources c).isOk = true ↔
      ∃ src, sources.find? (·.label == l) = some src ∧ (f src c).isOk = true
  | [] => iff_of_false Bool.false_ne_true (by rintro ⟨_, h, -⟩; cases h)
  | src :: rest => by
      rw [updateSource, List.find?_cons]
      cases src.label == l with
      | true =>
          rw [if_pos rfl]
          refine (Bool.eq_iff_iff.mp Build.bind_pure_isOk).trans ?_
          refine ⟨fun h => ⟨src, rfl, h⟩, ?_⟩
          rintro ⟨_, h, hf⟩
          exact Option.some.inj h ▸ hf
      | false =>
          rw [if_neg Bool.false_ne_true]
          exact (Bool.eq_iff_iff.mp Build.bind_pure_isOk).trans updateSource_isOk

theorem provide_isOk : (provide accept q e c).isOk = (accept q e c).isOk := by
  refine Bool.eq_iff_iff.mpr (Build.bind_isOk.trans ⟨?_, fun h => ?_⟩)
  · rintro ⟨r, c', hr, -⟩
    rw [hr]
    rfl
  · obtain ⟨⟨⟨r, a⟩, c'⟩, hr⟩ := Except.exists_of_isOk h
    refine ⟨(r, a), c', hr, ?_⟩
    dsimp only
    cases r.projections.find? (·.definition == a) <;> rfl

theorem throughSource_isOk : (throughSource accept leaf src c).isOk = true ↔
    ∃ q, src.view.statement? = some q ∧ (accept q leaf c).isOk = true := by
  rw [throughSource]
  cases hq : src.view.statement? with
  | none => exact iff_of_false Bool.false_ne_true (by rintro ⟨_, h, -⟩; cases h)
  | some q =>
      refine Iff.trans ⟨fun h => ?_, fun h => ?_⟩
        (show (provide accept q leaf c).isOk = true ↔ ∃ q', some q = some q' ∧ (accept q' leaf c).isOk = true by
          rw [provide_isOk]
          refine ⟨fun h => ⟨q, rfl, h⟩, ?_⟩
          rintro ⟨_, h, hq'⟩
          exact Option.some.inj h ▸ hq')
      · obtain ⟨r, c₁, hr, -⟩ := Build.bind_isOk.mp h
        rw [hr]
        rfl
      · obtain ⟨⟨⟨r, name, d⟩, c₁⟩, hr⟩ := Except.exists_of_isOk h
        refine Build.bind_isOk.mpr ⟨_, c₁, hr, ?_⟩
        exact Build.bind_pure_isOk.trans (View.withStatement_isOk r src.view c₁)

theorem acceptLeaf_isOk : (acceptLeaf accept s leaf c).isOk = true ↔
    ∃ m, Scope.resolveLeaf s.scope leaf = .ok m ∧ checkDeclared c m.view leaf.unpinned = .ok () ∧
      (m.view.isStatement = true → ∃ src q, s.sources.find? (·.label == m.label) = some src ∧
        src.view.statement? = some q ∧ (accept q leaf.unpinned c).isOk = true) := by
  have hbehind : ∀ m : Mapping, (updateSource m.label (throughSource accept leaf.unpinned) s.sources c).isOk = true ↔
      ∃ src q, s.sources.find? (·.label == m.label) = some src ∧ src.view.statement? = some q ∧
        (accept q leaf.unpinned c).isOk = true := by
    intro m
    rw [updateSource_isOk]
    simp only [throughSource_isOk, exists_and_left]
  rw [acceptLeaf, Build.bind_isOk]
  constructor
  · rintro ⟨m, c₁, hresolve, h₁⟩
    obtain ⟨hm, rfl⟩ := Build.lift_eq_ok.mp hresolve
    obtain ⟨k, c₂, hget, h₂⟩ := Build.bind_isOk.mp h₁
    obtain ⟨rfl, rfl⟩ := Prod.mk.inj (Build.get_eq_ok.mp hget)
    obtain ⟨⟨⟩, c₃, hdeclared, h₃⟩ := Build.bind_isOk.mp h₂
    obtain ⟨hcheck, rfl⟩ := Build.lift_eq_ok.mp hdeclared
    refine ⟨m, hm, hcheck, fun hs => (hbehind m).mp ?_⟩
    rw [if_pos hs] at h₃
    exact Build.bind_pure_isOk.symm.trans h₃
  · rintro ⟨m, hm, hcheck, h⟩
    refine ⟨m, c, Build.lift_eq_ok.mpr ⟨hm, rfl⟩, Build.bind_isOk.mpr ⟨c, c, Build.get_eq_ok.mpr rfl, ?_⟩⟩
    refine Build.bind_isOk.mpr ⟨(), c, Build.lift_eq_ok.mpr ⟨hcheck, rfl⟩, ?_⟩
    split
    case isTrue hs => exact Build.bind_pure_isOk.trans ((hbehind m).mpr (h hs))
    case isFalse => rfl

/-! Accepting after growth. -/

/-- Nested statements accept the same expressions after they have grown. -/
structure Acceptor.Steady (accept : Acceptor) : Prop extends accept.Recurring where
  steady : ∀ {s u : Select} {e : Expr} {c k : Catalog} {N M : Nodes}, s.Grows u → c.Learns N k M →
    k.registries = c.registries → s.Throughout (c.Knows N) → u.Throughout (k.Knows M) → e.Throughout (c.Knows N) →
      e.Definite → (accept u e k).isOk = (accept s e c).isOk

theorem acceptLeaf_steady (h : accept.Steady) (hgrows : s.Grows u) (hlearns : c.Learns N k M)
    (hk : k.registries = c.registries) (hs : s.Throughout (c.Knows N)) (hu : u.Throughout (k.Knows M))
    (he : leaf.Throughout (c.Knows N)) (hdef : leaf.Definite) :
    (acceptLeaf accept u leaf k).isOk = (acceptLeaf accept s leaf c).isOk := by
  refine Bool.eq_iff_iff.mpr ?_
  rw [acceptLeaf_isOk, acceptLeaf_isOk, hgrows.scope]
  refine exists_congr fun m => and_congr_right fun _ => ?_
  rw [checkDeclared_congr hk]
  refine and_congr_right fun _ => imp_congr_right fun hstatement => ?_
  -- the same source is found, and the statements behind it accept the same
  have hinside : ∀ {x y : Source} {q r : Select}, x ∈ s.sources → y ∈ u.sources → x.view.statement? = some q →
      y.view.statement? = some r → q.Grows r →
        (accept r leaf.unpinned k).isOk = (accept q leaf.unpinned c).isOk := by
    intro x y q r hx hy hq hr hqr
    obtain ⟨i, hqi⟩ := (hs.views x hx).statement hq
    obtain ⟨j, hrj⟩ := (hu.views y hy).statement hr
    exact h.steady hqr hlearns hk hqi.select hrj.select he.unpinned hdef.unpinned
  have hfind := hgrows.sources.find? m.label
  constructor
  · rintro ⟨y, r, hy, hr, hok⟩
    rw [hy] at hfind
    cases hx : s.sources.find? (·.label == m.label) with
    | none => rw [hx] at hfind; cases hfind
    | some x =>
        rw [hx] at hfind
        cases hfind with
        | some hxy =>
            obtain ⟨q, hq, hqr⟩ := hxy.2.2.2.statement?_of hr
            refine ⟨x, q, rfl, hq, ?_⟩
            rw [← hinside (List.mem_of_find?_eq_some hx) (List.mem_of_find?_eq_some hy) hq hr hqr]
            exact hok
  · rintro ⟨x, q, hx, hq, hok⟩
    rw [hx] at hfind
    cases hy : u.sources.find? (·.label == m.label) with
    | none => rw [hy] at hfind; cases hfind
    | some y =>
        rw [hy] at hfind
        cases hfind with
        | some hxy =>
            obtain ⟨r, hr, hqr⟩ := hxy.2.2.2.statement? hq
            refine ⟨y, r, rfl, hr, ?_⟩
            rw [hinside (List.mem_of_find?_eq_some hx) (List.mem_of_find?_eq_some hy) hq hr hqr]
            exact hok

mutual

theorem acceptWith_steady (h : accept.Steady) : ∀ {e : Expr} {s u : Select} {c k : Catalog} {N M : Nodes},
    s.Grows u → c.Learns N k M → k.registries = c.registries → s.Throughout (c.Knows N) → u.Throughout (k.Knows M) →
      e.Throughout (c.Knows N) → e.Definite → (acceptWith accept u e k).isOk = (acceptWith accept s e c).isOk
  | .literal v, _, _, _, _, _, _, _, _, _, _, _, _, _ => rfl
  | .apply op args, s, u, c, k, N, M, hgrows, hlearns, hk, hs, hu, he, hdef => by
      rw [acceptWith, acceptWith]
      refine Build.bind_pure_isOk.trans (.trans (Bool.eq_iff_iff.mpr ?_) Build.bind_pure_isOk.symm)
      rw [acceptAllWith_isOk_iff h op hgrows hlearns hk hs hu (Expr.throughout_apply.mp he) hdef,
        acceptAllWith_isOk_iff h op (.refl s) (.refl c N) rfl hs hs (Expr.throughout_apply.mp he) hdef]
  | .column col, s, u, c, k, N, M, hgrows, hlearns, hk, hs, hu, he, hdef => by
      rw [acceptWith, acceptWith]
      exact acceptLeaf_steady h hgrows hlearns hk hs hu he hdef
  | .star v, s, u, c, k, N, M, hgrows, hlearns, hk, hs, hu, he, hdef => by
      rw [acceptWith, acceptWith]
      exact acceptLeaf_steady h hgrows hlearns hk hs hu he hdef
  | .projected v n d, s, u, c, k, N, M, hgrows, hlearns, hk, hs, hu, he, hdef => by
      obtain ⟨hv, hd⟩ := Expr.throughout_projected.mp he
      have hown : u.isSelf v = s.isSelf v :=
        isSelf_of_grows (fun x hx => (hlearns.statement hs x hx).holds) (fun x hx => (hu x hx).holds)
          (fun x hx => (hlearns.view hv x hx).holds) (Expr.throughout_projected.mp hdef.views).1.self hgrows
      rw [acceptWith, acceptWith, hown]
      split
      · exact acceptWith_steady h hgrows hlearns hk hs hu hd hdef.definition
      · exact acceptLeaf_steady h hgrows hlearns hk hs hu he hdef
  | .pinned b v, s, u, c, k, N, M, hgrows, hlearns, hk, hs, hu, he, hdef => by
      rw [acceptWith, acceptWith]
      exact acceptLeaf_steady h hgrows hlearns hk hs hu he hdef
  | .view v, s, u, c, k, N, M, hgrows, hlearns, hk, hs, hu, he, hdef => by
      rw [acceptWith, acceptWith, acceptView_congr hgrows.scope]
      exact Build.bind_pure_isOk.trans (Build.lift_isOk.trans (Build.lift_isOk.symm.trans Build.bind_pure_isOk.symm))
  | .within sc b, _, _, _, _, _, _, _, _, _, _, _, _, _ => by
      rw [acceptWith, acceptWith]
      rfl

/-- The arguments are accepted in turn exactly if each is accepted by itself. -/
theorem acceptAllWith_isOk_iff (h : accept.Steady) (op : Operator) : ∀ {es : List Expr} {s u : Select} {c k : Catalog}
    {N M : Nodes}, s.Grows u → c.Learns N k M → k.registries = c.registries → s.Throughout (c.Knows N) →
      u.Throughout (k.Knows M) → (∀ e ∈ es, e.Throughout (c.Knows N)) → (Expr.apply op es).Definite →
        ((acceptAllWith accept u es k).isOk = true ↔ ∀ e ∈ es, (acceptWith accept s e c).isOk = true)
  | [], _, _, _, _, _, _, _, _, _, _, _, _, _ => iff_of_true rfl (List.forall_mem_nil _)
  | e :: es, s, u, c, k, N, M, hgrows, hlearns, hk, hs, hu, hes, hdef => by
      have hes' := hes
      rw [List.forall_mem_cons] at hes
      rw [acceptAllWith, List.forall_mem_cons,
        ← acceptWith_steady h hgrows hlearns hk hs hu hes.1 hdef.head, Build.bind_isOk]
      constructor
      · rintro ⟨⟨u₁, a⟩, k₁, hrun, htail⟩
        obtain ⟨-, M₁, hM₁, hu₁M, -, -⟩ :=
          acceptWith_recurs h.toRecurring hrun hu (hlearns.expr hes.1) hdef.head
        refine ⟨by rw [hrun]; rfl, ?_⟩
        have hk₁ : k₁.registries = c.registries := (acceptWith_quiet h.quiet e u hrun).trans hk
        have hu₁ := hgrows.trans (acceptWith_sound h.sound hrun).grows
        rw [← acceptAllWith_isOk_iff h op hu₁ (hlearns.trans hM₁) hk₁ hs hu₁M hes.2 hdef.tail]
        exact Build.bind_pure_isOk.symm.trans htail
      · rintro ⟨hhead, htail⟩
        obtain ⟨⟨⟨u₁, a⟩, k₁⟩, hrun⟩ := Except.exists_of_isOk hhead
        obtain ⟨-, M₁, hM₁, hu₁M, -, -⟩ :=
          acceptWith_recurs h.toRecurring hrun hu (hlearns.expr hes.1) hdef.head
        have hk₁ : k₁.registries = c.registries := (acceptWith_quiet h.quiet e u hrun).trans hk
        have hu₁ := hgrows.trans (acceptWith_sound h.sound hrun).grows
        refine ⟨(u₁, a), k₁, hrun, Build.bind_pure_isOk.trans ?_⟩
        rw [acceptAllWith_isOk_iff h op hu₁ (hlearns.trans hM₁) hk₁ hs hu₁M hes.2 hdef.tail]
        exact htail

end

theorem acceptorAt_steady : ∀ n : Nat, (acceptorAt n).Steady
  | 0 => ⟨acceptorAt_recurring 0, fun _ _ _ _ _ _ _ => rfl⟩
  | n + 1 => by
      refine ⟨acceptorAt_recurring (n + 1), fun hgrows hlearns hk hs hu he hdef => ?_⟩
      rw [show acceptorAt (n + 1) = acceptAt n from rfl, acceptAt_eq]
      exact acceptWith_steady (acceptorAt_steady n) hgrows hlearns hk hs hu he hdef

/-- A statement that has grown accepts the same expressions. -/
theorem accept_isOk_of_grows (hgrows : s.Grows u) (hlearns : c.Learns N k M) (hk : k.registries = c.registries)
    (hs : s.Throughout (c.Knows N)) (hu : u.Throughout (k.Knows M)) (he : e.Throughout (c.Knows N))
    (hdef : e.Definite) : (u.accept e k).isOk = (s.accept e c).isOk := by
  rw [accept, accept, acceptAt_eq, acceptAt_eq, show u.level = s.level from hgrows.sources.level]
  exact acceptWith_steady (acceptorAt_steady s.level) hgrows hlearns hk hs hu he hdef

/-- An operator with its arguments is accepted exactly if each argument is accepted by itself. -/
theorem accept_apply_isOk {op : Operator} (hs : s.Throughout (c.Knows N))
    (hes : ∀ e ∈ es, e.Throughout (c.Knows N)) (hdef : (Expr.apply op es).Definite) :
    (s.accept (.apply op es) c).isOk = true ↔ ∀ e ∈ es, (s.accept e c).isOk = true := by
  simp only [accept, acceptAt_eq]
  rw [acceptWith]
  exact (Bool.eq_iff_iff.mp Build.bind_pure_isOk).trans
    (acceptAllWith_isOk_iff (acceptorAt_steady s.level) op (.refl s) (.refl c N) rfl hs hs hes hdef)

end Select

end SqlCompose
