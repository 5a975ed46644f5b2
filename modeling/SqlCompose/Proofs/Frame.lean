import SqlCompose.Proofs.Handles

/-!
What a call leaves alone. A successful call appends: the projections, predicates and groupings of the
statement stay where they are and print as before, and so do the entries of its FROM list, whose nested
statements may project more and take more aliases for it. Accepting an expression changes nothing else of
the statement than these nested statements.
-/

namespace SqlCompose

/-! The part of a view that no call changes. -/

mutual

/-- A view without its marks and without the projections and the taken aliases of the statements reached
through it. -/
def View.bare : View → View
  | .table t => .table t
  | .concrete m => .concrete m
  | .join _ ⟨n, s, t, p⟩ => .join 0 ⟨n, s, t.bare, p⟩
  | .select _ q => .select 0 q.bare

/-- A statement without its projections and taken aliases, and those of the statements in its FROM
list. -/
def Select.bare : Select → Select
  | ⟨i, f, _, w, h, g, a, sc⟩ => ⟨i, Source.bareAll f, [], w, h, g, ⟨a.letter, []⟩, sc⟩

/-- A FROM list with its views bare. -/
def Source.bareAll : List Source → List Source
  | [] => []
  | ⟨v, l, sc, on⟩ :: f => ⟨v.bare, l, sc, on⟩ :: Source.bareAll f

end

theorem AliasPool.projectionAlias_letter {p pool : AliasPool} {name l : Option String}
    (h : p.projectionAlias name = (l, pool)) : pool.letter = p.letter := by
  cases name with
  | none =>
      obtain ⟨-, rfl⟩ := Prod.mk.inj h
      rfl
  | some name =>
      obtain ⟨-, rfl⟩ := Prod.mk.inj h
      rfl

theorem View.withStatement_bare : ∀ {v w : View} {q r : Select} {c c' : Catalog},
    v.statement? = some q → r.bare = q.bare → v.withStatement r c = .ok (w, c') → w.bare = v.bare
  | .table _, _, _, _, _, _, hq, _, _ => nomatch hq
  | .concrete _, _, _, _, _, _, hq, _, _ => nomatch hq
  | .select _ _, w, q, r, _, _, hq, hr, h => by
      obtain rfl := Option.some.inj hq
      obtain ⟨rfl, -⟩ := Prod.mk.inj (Build.selectView_eq_ok.mp h)
      rw [bare, bare, hr]
  | .join _ ⟨_, _, t, _⟩, w, q, r, _, _, hq, hr, h => by
      obtain ⟨u, c₁, hu, h₁⟩ := Build.bind_eq_ok.mp h
      obtain ⟨rfl, -⟩ := Prod.mk.inj (Build.joinView_eq_ok.mp h₁)
      rw [bare, bare, withStatement_bare (v := t) hq hr hu]

/-- An entry of a FROM list changes at most by what the statements behind it project and by the aliases
they take for it. -/
structure Source.Extends (a b : Source) : Prop where
  grows : a.Grows b
  bare : b.view.bare = a.view.bare

namespace Source.Extends

theorem refl (a : Source) : a.Extends a := ⟨.refl a, rfl⟩

theorem trans {a b d : Source} (h : a.Extends b) (h' : b.Extends d) : a.Extends d where
  grows := by
    obtain ⟨hl, hsc, hon, hv⟩ := h.grows
    obtain ⟨hl', hsc', hon', hv'⟩ := h'.grows
    exact ⟨hl'.trans hl, hsc'.trans hsc, hon'.trans hon, hv.trans hv'⟩
  bare := h'.bare.trans h.bare

end Source.Extends

/-- The entries of a FROM list extend one by one. -/
def Source.ExtendAll (f g : List Source) : Prop := List.Forall₂ Source.Extends f g

namespace Source.ExtendAll

variable {f g h : List Source}

theorem refl (f : List Source) : ExtendAll f f := List.forall₂_same.mpr fun src _ => .refl src

theorem trans (hfg : ExtendAll f g) (hgh : ExtendAll g h) : ExtendAll f h :=
  List.forall₂_trans (R := Extends) (fun _ _ _ => .trans) hfg hgh

theorem bareAll (hfg : ExtendAll f g) : Source.bareAll g = Source.bareAll f := by
  induction hfg with
  | nil => rfl
  | @cons a b f g hab _ ih =>
      obtain ⟨v, l, sc, on⟩ := a
      obtain ⟨w, l', sc', on'⟩ := b
      obtain ⟨rfl, rfl, rfl, -⟩ := hab.grows
      have hbare : w.bare = v.bare := hab.bare
      simp only [Source.bareAll, hbare, ih]

end Source.ExtendAll

namespace Select

variable {s t u : Select} {e a : Expr} {c c' : Catalog}

theorem bare_of_sources (ht : t = { s with sources := t.sources })
    (hf : Source.bareAll t.sources = Source.bareAll s.sources) : t.bare = s.bare := by
  rw [ht]
  cases s with
  | mk => simp only [Select.bare, hf]

theorem bare_of_projections {ps : List Projection} {pool : AliasPool}
    (hpool : pool.letter = s.aliases.letter) :
    Select.bare { s with projections := ps, aliases := pool } = s.bare := by
  cases s with
  | mk => simp only [Select.bare, hpool]

mutual

/-- An acceptance extends the sources of the statement. -/
theorem Accepts.extendAll : ∀ {s t : Select} {e a : Expr}, s.Accepts e t a →
    Source.ExtendAll s.sources t.sources
  | _, _, _, _, .literal s _ => .refl s.sources
  | _, _, _, _, .apply _ h => h.extendAll
  | _, _, _, _, .own _ _ h => h.extendAll
  | s, _, _, _, .view _ => .refl s.sources
  | s, _, _, _, .kept _ _ _ => .refl s.sources
  | _, _, _, _, .routed _ _ _ hf _ _ hq hp hv => by
      have hview := (View.withStatement_spec hq hp.grows hv).1
      rw [hf]
      exact List.rel_append (Source.ExtendAll.refl _)
        (.cons ⟨⟨rfl, rfl, rfl, hview⟩, View.withStatement_bare hq hp.bare hv⟩
          (Source.ExtendAll.refl _))

theorem AcceptsAll.extendAll : ∀ {s t : Select} {es as : List Expr}, s.AcceptsAll es t as →
    Source.ExtendAll s.sources t.sources
  | _, _, _, _, .nil s => .refl s.sources
  | _, _, _, _, .cons h hs => h.extendAll.trans hs.extendAll

theorem Provides.bare : ∀ {q r : Select} {e d : Expr} {name : Option String},
    q.Provides e r name d → r.bare = q.bare
  | _, _, _, _, _, .reused h _ => bare_of_sources h.frame.1 h.extendAll.bareAll
  | _, _, _, _, _, .added h _ hl =>
      (bare_of_projections (AliasPool.projectionAlias_letter hl)).trans
        (bare_of_sources h.frame.1 h.extendAll.bareAll)

end

/-- A statement becomes another one that continues it: its clauses are prefixes, its sources extend in
their places, and its scope and its aliases go on. -/
structure Appends (s u : Select) : Prop where
  identity : u.identity = s.identity
  projections : s.projections <+: u.projections
  filters : s.filters <+: u.filters
  having : s.having <+: u.having
  grouping : s.grouping <+: u.grouping
  sources : Source.ExtendAll s.sources (u.sources.take s.sources.length)
  scope : s.scope <:+ u.scope
  aliases : s.aliases.taken <+: u.aliases.taken

namespace Appends

theorem refl (s : Select) : s.Appends s where
  identity := rfl
  projections := List.prefix_rfl
  filters := List.prefix_rfl
  having := List.prefix_rfl
  grouping := List.prefix_rfl
  sources := by
    rw [List.take_length]
    exact .refl s.sources
  scope := List.suffix_rfl
  aliases := List.prefix_rfl

theorem trans (h : s.Appends t) (h' : t.Appends u) : s.Appends u where
  identity := h'.identity.trans h.identity
  projections := h.projections.trans h'.projections
  filters := h.filters.trans h'.filters
  having := h.having.trans h'.having
  grouping := h.grouping.trans h'.grouping
  sources := by
    have hlength : s.sources.length ≤ t.sources.length := by
      have heq := h.sources.length_eq
      rw [List.length_take] at heq
      omega
    have hlater := List.forall₂_take s.sources.length h'.sources
    rw [List.take_take, Nat.min_eq_left hlength] at hlater
    exact Source.ExtendAll.trans h.sources hlater
  scope := h.scope.trans h'.scope
  aliases := h.aliases.trans h'.aliases

end Appends

theorem Accepts.appends (h : s.Accepts e t a) : s.Appends t := by
  obtain ⟨ht, -⟩ := h.frame
  have hf := h.extendAll
  have hsources : Source.ExtendAll s.sources (t.sources.take s.sources.length) := by
    rw [hf.length_eq, List.take_length]
    exact hf
  rw [ht]
  exact { Appends.refl s with sources := hsources }

theorem Adds.appends (h : t.Adds a u) : t.Appends u := by
  have hrefl := Appends.refl t
  cases h with
  | known => exact hrefl
  | projection hl =>
      exact { hrefl with
        projections := List.prefix_append _ _
        aliases := ⟨_, (AliasPool.projectionAlias_taken hl).symm⟩ }
  | filter => exact { hrefl with filters := List.prefix_append _ _ }
  | having => exact { hrefl with having := List.prefix_append _ _ }
  | grouping => exact { hrefl with grouping := List.prefix_append _ _ }

theorem appends_listing (s : Select) (src : Source) : s.Appends (s.listing src) where
  identity := rfl
  projections := List.prefix_rfl
  filters := List.prefix_rfl
  having := List.prefix_rfl
  grouping := List.prefix_rfl
  sources := by
    show Source.ExtendAll s.sources ((s.sources ++ [src]).take s.sources.length)
    rw [List.take_left]
    exact .refl s.sources
  scope := List.suffix_rfl
  aliases := List.prefix_rfl

theorem appends_entered (s : Select) {m : Mapping} {pool : AliasPool}
    (hpool : s.aliases.taken <+: pool.taken) : s.Appends (s.entered m pool) :=
  { Appends.refl s with scope := List.suffix_cons m s.scope, aliases := hpool }

theorem Step.appends {Ok : Expr → Prop} {OkView : View → Prop} (h : Step Ok OkView s u) :
    s.Appends u := by
  have htaken : ∀ {name : Option String} {l : String} {pool : AliasPool},
      s.aliases.viewAlias name = (l, pool) → s.aliases.taken <+: pool.taken := by
    intro name l pool hl
    have hspec := (s.aliases.viewAlias_spec name).2
    rw [hl] at hspec
    exact ⟨_, hspec.symm⟩
  cases h with
  | source mark hv hw hj ha => exact (appends_entered s (htaken ha)).trans (appends_listing _ _)
  | join mark hv hl ha h =>
      exact ((appends_entered s (htaken ha)).trans h.appends).trans (appends_listing _ _)
  | clause he h hu => exact h.appends.trans hu.appends

end Select

/-- A successful call appends. -/
theorem Call.run_appends {k : Call} {s u : Select} {c c' : Catalog} (h : k.run s c = .ok (u, c')) :
    s.Appends u := by
  have hsteps : Select.Steps (fun _ => True) (fun _ => True) s u :=
    k.steps (fun _ _ _ => trivial) k.fits_true h
  clear h
  induction hsteps with
  | refl => exact .refl s
  | tail _ hstep ih => exact ih.trans hstep.appends

/-! What is printed. -/

section

variable {c : Catalog}

theorem Projection.piecesAll_prefix : ∀ {ps qs : List Projection}, ps <+: qs →
    Projection.piecesAll c ps <+: Projection.piecesAll c qs
  | ps, _, ⟨more, rfl⟩ => by
      induction ps with
      | nil => exact List.nil_prefix
      | cons p ps ih =>
          obtain ⟨e, a, s⟩ := p
          exact List.prefix_cons_inj _ |>.mpr ih

theorem Condition.piecesAll_prefix : ∀ {cs ds : List Condition}, cs <+: ds →
    Condition.piecesAll c cs <+: Condition.piecesAll c ds
  | cs, _, ⟨more, rfl⟩ => by
      induction cs with
      | nil => exact List.nil_prefix
      | cons k cs ih =>
          obtain ⟨e, s⟩ := k
          exact List.prefix_cons_inj _ |>.mpr ih

end

namespace Select

variable {s t u : Select} {c c' : Catalog}

/-- The entries of a statement print in the same place and in the same pieces in another one. -/
structure PrintsBefore (c : Catalog) (s : Select) (c' : Catalog) (u : Select) : Prop where
  projections : Projection.piecesAll c s.projections <+: Projection.piecesAll c' u.projections
  filters : Condition.piecesAll c s.filters <+: Condition.piecesAll c' u.filters
  having : Condition.piecesAll c s.having <+: Condition.piecesAll c' u.having
  grouping : Condition.piecesAll c s.grouping <+: Condition.piecesAll c' u.grouping

theorem Appends.printsBefore (h : s.Appends u) (hc : c.registries.toList <+: c'.registries.toList)
    (hs : s.Held c.registries.size) : s.PrintsBefore c c' u := by
  have hagree := Catalog.agrees_of_prefix hc
  constructor
  · rw [← Projection.piecesAll_congr hagree hs.definitions]
    exact Projection.piecesAll_prefix h.projections
  · rw [← Condition.piecesAll_congr hagree hs.filters]
    exact Condition.piecesAll_prefix h.filters
  · rw [← Condition.piecesAll_congr hagree hs.having]
    exact Condition.piecesAll_prefix h.having
  · rw [← Condition.piecesAll_congr hagree hs.grouping]
    exact Condition.piecesAll_prefix h.grouping

theorem Appends.printsBefore_same (h : s.Appends u) (c : Catalog) : s.PrintsBefore c c u where
  projections := Projection.piecesAll_prefix h.projections
  filters := Condition.piecesAll_prefix h.filters
  having := Condition.piecesAll_prefix h.having
  grouping := Condition.piecesAll_prefix h.grouping

/-- A statement becomes another one by a successful call, or by the sources that an expression
requires. -/
inductive Builds (s : Select) (c : Catalog) (u : Select) (c' : Catalog) : Prop
  | call {k : Call} (h : k.run s c = .ok (u, c'))
  | require {e : Expr} {added : List View} (h : s.require e c = .ok ((u, added), c'))

theorem requireViews_appends {vs added : List View} (h : s.requireViews vs c = .ok ((u, added), c')) :
    s.Appends u ∧ c.registries.toList <+: c'.registries.toList :=
  requireViews_induction (P := fun t d => s.Appends t ∧ c.registries.toList <+: d.registries.toList)
    (fun {t _ _ _ v} _ hadd ht => ⟨ht.1.trans (Call.run_appends (k := .addSource v) hadd),
      ht.2.trans (addSource_adding t v hadd)⟩) h ⟨.refl s, List.prefix_rfl⟩

theorem Builds.appends (h : s.Builds c u c') :
    s.Appends u ∧ c.registries.toList <+: c'.registries.toList := by
  cases h with
  | call h => exact ⟨Call.run_appends h, Call.run_adding s _ h⟩
  | require h => exact requireViews_appends h

/-- The builder only appends: the clauses stay and print as before, and the entries of the FROM list extend
in their places. Accepting an expression extends the sources and touches nothing else. -/
theorem builder_appends (s : Select) (c : Catalog) :
    (∀ u c', s.Builds c u c' → s.Appends u ∧ (∀ d, s.PrintsBefore d d u)
        ∧ (s.ReachedIn c → s.PrintsBefore c c' u)) ∧
      ∀ e t a c', s.accept e c = .ok ((t, a), c') →
        t = { s with sources := t.sources } ∧ Source.ExtendAll s.sources t.sources := by
  constructor
  · intro u c' h
    obtain ⟨happends, hregistries⟩ := h.appends
    exact ⟨happends, happends.printsBefore_same, fun hs => happends.printsBefore hregistries hs.held⟩
  · intro e t a c' h
    have hacc := accept_sound h
    exact ⟨hacc.frame.1, hacc.extendAll⟩

/-- A predicate on the names of the people. -/
theorem names_filter_appends : ∃ s c u c' t a c₁, s.ReachedIn c ∧ s.projections.length = 1
    ∧ (Call.filter (.revenueAbove 5000)).run s c = .ok (u, c')
    ∧ s.accept (.ofPeople "ID") c = .ok ((t, a), c₁)
    ∧ s.Appends u ∧ (∀ d, s.PrintsBefore d d u) ∧ s.PrintsBefore c c' u
    ∧ t = { s with sources := t.sources } ∧ Source.ExtendAll s.sources t.sources := by
  have hshown : ((Call.addSource (.table people)).run (.empty 0) ⟨#[{}], 1⟩).toOption.map (fun r =>
      (r.2.registries.size, ((Call.project (.ofPeople "name")).run r.1 r.2).toOption.map fun r =>
        (r.1.projections.length, ((Call.filter (.revenueAbove 5000)).run r.1 r.2).isOk,
          (r.1.accept (.ofPeople "ID") r.2).isOk)))
      = some (2, some (1, true, true)) := by decide +kernel
  obtain ⟨⟨o, c₀⟩, hfrom, hshown⟩ := Except.exists_of_toOption hshown
  obtain ⟨hsize, hshown⟩ := Prod.mk.inj hshown
  obtain ⟨⟨s, c⟩, hselect, hshown⟩ := Except.exists_of_toOption hshown
  obtain ⟨hlength, hshown⟩ := Prod.mk.inj hshown
  obtain ⟨hfilter, haccept⟩ := Prod.mk.inj hshown
  obtain ⟨⟨u, c'⟩, hrun⟩ := Except.exists_of_isOk hfilter
  obtain ⟨⟨⟨t, a⟩, c₁⟩, hacc⟩ := Except.exists_of_isOk haccept
  have ho : o.ReachedIn c₀ :=
    .call (k := .addSource (.table people)) (.empty 0 _) (.table (by decide)) hfrom
  have hname : (Expr.ofPeople "name").Held c₀.registries.size := by
    rw [hsize]
    exact .column (by decide)
  have hs : s.ReachedIn c := .call (k := .project (.ofPeople "name")) ho hname hselect
  obtain ⟨hbuilds, haccepts⟩ := builder_appends s c
  obtain ⟨happends, hsame, hprints⟩ := hbuilds u c' (.call hrun)
  obtain ⟨ht, hf⟩ := haccepts _ t a c₁ hacc
  exact ⟨s, c, u, c', t, a, c₁, hs, hlength, hrun, hacc, happends, hsame, hprints hs, ht, hf⟩

end Select

end SqlCompose
