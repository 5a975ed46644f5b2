import SqlCompose.Proofs.Leaves
import SqlCompose.Proofs.Pieces
import SqlCompose.Proofs.Runs

/-!
What the builder accepts, it can print. A statement is sound when its FROM list and scope are linked, its
sources are sound, and the leaves of every clause name something and resolve in the scope of the clause.
Accepting an expression keeps this at every level of nesting, so do the calls, and a sound statement with
a source prints, with no qualifier but the aliases of its own sources.
-/

namespace SqlCompose

namespace Expr

/-- A column, a star or a reference: a leaf without a pin. -/
def isPlain : Expr → Bool
  | column _ => true
  | star _ => true
  | projected .. => true
  | _ => false

/-- Every leaf of an expression resolves in a scope. -/
def ResolvesIn (s : Scope) (e : Expr) : Prop := ∀ leaf ∈ e.leaves, ∃ m, s.resolveLeaf leaf = .ok m

end Expr

namespace Select

/-- Every clause of a statement has a name. -/
def Named (s : Select) : Prop := ∀ p ∈ s.projections, p.name?.isSome = true

end Select

mutual

/-- An expression without NaN whose references have names and whose values are constants and sound
statements. -/
inductive Expr.Regular : Expr → Prop
  | literal {v : Literal} (h : v.isNaN = false) : Expr.Regular (.literal v)
  | apply (op : Operator) {args : List Expr} (h : ∀ e ∈ args, e.Regular) : Expr.Regular (.apply op args)
  | column (c : Column) : Expr.Regular (.column c)
  | star {v : View} (h : v.nanFree = true) : Expr.Regular (.star v)
  | projected (v : View) (n : String) {d : Expr} (h : d.Regular) : Expr.Regular (.projected v (some n) d)
  | pinned {e : Expr} (v : View) (hplain : e.isPlain = true) (h : e.Regular) : Expr.Regular (.pinned e v)
  | select (i : Nat) {q : Select} (h : q.Sound) (hf : q.sources ≠ []) : Expr.Regular (.view (.select i q))

/-- A source that prints: a table, a sound statement whose clauses have names, or a join onto one of
these. -/
inductive View.Sound : View → Prop
  | table (t : Table) : View.Sound (.table t)
  | concrete (t : Table) : View.Sound (.concrete t)
  | select (i : Nat) {q : Select} (h : q.Sound) (hf : q.sources ≠ []) (hn : q.Named) :
      View.Sound (.select i q)
  | join (i : Nat) {j : Join} (hj : j.target.isJoin = false) (ht : j.target.Sound)
      (hs : j.source.nanFree = true) (hp : j.predicate.Regular) : View.Sound (.join i j)

/-- A statement whose clauses print. -/
inductive Select.Sound : Select → Prop
  | mk {s : Select} (linked : s.Linked) (scopes : ∀ k ∈ s.clauses, k.scope ⊆ s.scope)
      (joins : ∀ src ∈ s.sources, src.view.isJoin = true → src.on.isSome = true)
      (resolves : ∀ k ∈ s.clauses, k.expr.ResolvesIn k.scope)
      (views : ∀ src ∈ s.sources, src.view.Sound) (regular : ∀ k ∈ s.clauses, k.expr.Regular) :
      s.Sound

end

namespace Select

/-- What a sound statement is besides being linked. -/
structure Settled (s : Select) : Prop where
  scopes : ∀ k ∈ s.clauses, k.scope ⊆ s.scope
  joins : ∀ src ∈ s.sources, src.view.isJoin = true → src.on.isSome = true
  resolves : ∀ k ∈ s.clauses, k.expr.ResolvesIn k.scope
  views : ∀ src ∈ s.sources, src.view.Sound
  regular : ∀ k ∈ s.clauses, k.expr.Regular

variable {s : Select}

theorem Settled.sound (h : s.Settled) (hl : s.Linked) : s.Sound :=
  .mk hl h.scopes h.joins h.resolves h.views h.regular

namespace Sound

theorem linked (h : s.Sound) : s.Linked := by
  cases h with
  | mk linked scopes joins resolves views regular => exact linked

theorem settled (h : s.Sound) : s.Settled := by
  cases h with
  | mk linked scopes joins resolves views regular => exact ⟨scopes, joins, resolves, views, regular⟩

theorem definition_regular (h : s.Sound) {p : Projection} (hp : p ∈ s.projections) :
    p.definition.Regular :=
  h.settled.regular ⟨p.definition, p.scope⟩ (mem_clauses.mpr (Or.inl ⟨p, hp, rfl⟩))

end Sound

end Select

/-! Sound parts hold no NaN, so they stay equal to themselves. -/

theorem Expr.nanFreeAll_of_forall : ∀ {es : List Expr}, (∀ e ∈ es, e.nanFree = true) →
    Expr.nanFreeAll es = true
  | [], _ => rfl
  | e :: es, h => by
      rw [List.forall_mem_cons] at h
      rw [Expr.nanFreeAll, h.1, nanFreeAll_of_forall h.2, Bool.and_self]

theorem Source.nanFreeAll_of_forall : ∀ {f : List Source}, (∀ src ∈ f, src.view.nanFree = true) →
    Source.nanFreeAll f = true
  | [], _ => rfl
  | ⟨v, _, _, _⟩ :: f, h => by
      rw [List.forall_mem_cons] at h
      rw [Source.nanFreeAll, h.1, nanFreeAll_of_forall h.2, Bool.and_self]

theorem Condition.nanFreeAll_of_forall : ∀ {cs : List Condition}, (∀ k ∈ cs, k.expr.nanFree = true) →
    Condition.nanFreeAll cs = true
  | [], _ => rfl
  | ⟨e, _⟩ :: cs, h => by
      rw [List.forall_mem_cons] at h
      rw [Condition.nanFreeAll, h.1, nanFreeAll_of_forall h.2, Bool.and_self]

theorem Select.nanFree_of_forall {s : Select} (hviews : ∀ src ∈ s.sources, src.view.nanFree = true)
    (hclauses : ∀ k ∈ s.clauses, k.expr.nanFree = true) : s.nanFree = true := by
  obtain ⟨i, f, p, w, h, g, a, sc⟩ := s
  have hw := Condition.nanFreeAll_of_forall fun k (hk : k ∈ w) =>
    hclauses k (Select.mem_clauses.mpr (Or.inr (Or.inr (Or.inl hk))))
  have hg := Condition.nanFreeAll_of_forall fun k (hk : k ∈ g) =>
    hclauses k (Select.mem_clauses.mpr (Or.inr (Or.inr (Or.inr (Or.inl hk)))))
  have hh := Condition.nanFreeAll_of_forall fun k (hk : k ∈ h) =>
    hclauses k (Select.mem_clauses.mpr (Or.inr (Or.inr (Or.inr (Or.inr hk)))))
  have hf := Source.nanFreeAll_of_forall hviews
  rw [Select.nanFree, hf, hw, hh, hg]
  rfl

mutual

theorem Expr.Regular.nanFree : ∀ {e : Expr}, e.Regular → e.nanFree = true
  | _, .literal h => by rw [Expr.nanFree, h]; rfl
  | _, .apply _ h => Expr.nanFreeAll_of_forall fun e he => (h e he).nanFree
  | _, .column _ => rfl
  | _, .star h => h
  | _, .projected _ _ h => h.nanFree
  | _, .pinned _ _ h => h.nanFree
  | _, .select _ h _ => h.nanFree

theorem View.Sound.nanFree : ∀ {v : View}, v.Sound → v.nanFree = true
  | _, .table _ => rfl
  | _, .concrete _ => rfl
  | _, .select _ h _ _ => h.nanFree
  | .join _ ⟨_, _, _, _⟩, .join _ _ ht hs hp => by
      rw [View.nanFree, hs, ht.nanFree, hp.nanFree]
      rfl

theorem Select.Sound.nanFree : ∀ {s : Select}, s.Sound → s.nanFree = true
  | _, .mk _ _ _ _ views regular => Select.nanFree_of_forall (fun src hsrc => (views src hsrc).nanFree)
      fun k hk => (regular k hk).nanFree

end

/-! Accepting keeps soundness, at every level. -/

namespace Select

/-- What a statement needs for the expressions it accepts to resolve: sound sources, each of them in
scope as it is or as it was. -/
structure Ready (s : Select) : Prop where
  views : ∀ src ∈ s.sources, src.view.Sound
  mapped : ∀ src ∈ s.sources, ∃ m ∈ s.scope, m.view.Grows src.view

theorem Sound.ready {s : Select} (h : s.Sound) : s.Ready where
  views := h.settled.views
  mapped := by
    intro src hsrc
    obtain ⟨hsub, m, rest, heq, -, hgrows⟩ := h.linked.captured src hsrc
    exact ⟨m, hsub (heq ▸ List.mem_cons_self), hgrows⟩

end Select

namespace View.Sound

theorem statement {v : View} {q : Select} (h : v.Sound) (hq : v.statement? = some q) :
    q.Sound ∧ q.sources ≠ [] ∧ q.Named := by
  cases h with
  | table t => cases hq
  | concrete t => cases hq
  | select i h hf hn => exact Option.some.inj hq ▸ ⟨h, hf, hn⟩
  | @join i j hj ht hs hp =>
      obtain ⟨n, o, t, p⟩ := j
      cases ht with
      | table t => cases hq
      | concrete t => cases hq
      | select k h hf hn => exact Option.some.inj hq ▸ ⟨h, hf, hn⟩
      | join k hj' ht' hs' hp' => exact absurd hj (by simp [View.isJoin])

theorem withStatement {v w : View} {q : Select} {c c' : Catalog} (h : v.Sound) (hq : q.Sound)
    (hf : q.sources ≠ []) (hn : q.Named) (hw : v.withStatement q c = .ok (w, c')) : w.Sound := by
  cases h with
  | table t =>
      obtain ⟨rfl, -⟩ := Prod.mk.inj (Build.pure_eq_ok.mp hw)
      exact .table t
  | concrete t =>
      obtain ⟨rfl, -⟩ := Prod.mk.inj (Build.pure_eq_ok.mp hw)
      exact .concrete t
  | select i h hf' hn' =>
      obtain ⟨rfl, -⟩ := Prod.mk.inj (Build.selectView_eq_ok.mp hw)
      exact .select _ hq hf hn
  | @join i j hj ht hs hp =>
      obtain ⟨n, o, t, p⟩ := j
      obtain ⟨u, c₁, hu, h₁⟩ := Build.bind_eq_ok.mp hw
      obtain ⟨rfl, -⟩ := Prod.mk.inj (Build.joinView_eq_ok.mp h₁)
      cases ht with
      | table t =>
          obtain ⟨rfl, -⟩ := Prod.mk.inj (Build.pure_eq_ok.mp hu)
          exact .join _ rfl (.table t) hs hp
      | concrete t =>
          obtain ⟨rfl, -⟩ := Prod.mk.inj (Build.pure_eq_ok.mp hu)
          exact .join _ rfl (.concrete t) hs hp
      | select k h hf' hn' =>
          obtain ⟨rfl, -⟩ := Prod.mk.inj (Build.selectView_eq_ok.mp hu)
          exact .join _ rfl (.select _ hq hf hn) hs hp
      | join k hj' ht' hs' hp' => exact absurd hj (by simp [View.isJoin])

end View.Sound

namespace Expr

theorem pieces_of_isLeaf {e : Expr} {s : Scope} (h : e.isLeaf = true) (c : Catalog) :
    e.pieces c s = leafPiecesIn s e := by
  cases e with
  | column col => rfl
  | star v => rfl
  | projected v n d => rfl
  | pinned b v => rfl
  | literal v => cases h
  | apply op args => cases h
  | view v => cases h
  | within sc b => cases h

namespace Regular

theorem unpinned {e : Expr} (he : e.Regular) (hleaf : e.isLeaf = true) :
    e.unpinned.Regular ∧ e.unpinned.isPlain = true := by
  cases he with
  | column c => exact ⟨.column c, rfl⟩
  | star h => exact ⟨.star h, rfl⟩
  | projected v n h => exact ⟨.projected v n h, rfl⟩
  | pinned v hplain h => exact ⟨h, hplain⟩
  | literal h => cases hleaf
  | apply op h => cases hleaf
  | select i h hf => cases hleaf

/-- A plain leaf asks for a name, unless it is a star. -/
theorem name_or_star {e : Expr} (he : e.Regular) (hplain : e.isPlain = true) :
    e.name?.isSome = true ∨ ∃ v, e = .star v := by
  cases he with
  | column c => exact Or.inl rfl
  | star h => exact Or.inr ⟨_, rfl⟩
  | projected v n h => exact Or.inl rfl
  | pinned v hplain' h => cases hplain
  | literal h => cases hplain
  | apply op h => cases hplain
  | select i h hf => cases hplain

end Regular

end Expr

namespace Select

variable {s t u : Select} {e a : Expr}

/-- A mapping of a sound source as it was is a mapping of every view the source has grown into. -/
theorem Ready.resolvesExact (h : s.Ready) {src : Source} (hsrc : src ∈ s.sources) {v : View}
    (hv : src.view.Grows v) : ∃ m, Scope.resolveExact s.scope v = .ok m := by
  obtain ⟨m, hm, hgrows⟩ := h.mapped src hsrc
  have hnan : m.view.nanFree = true := by
    rw [← hgrows.nanFree]
    exact (h.views src hsrc).nanFree
  exact Scope.exists_resolveExact_of_grows hm hnan (hgrows.trans hv)

namespace Settled

theorem accepts (hs : s.Settled) (h : s.Accepts e t a) (ht : t.Ready) : t.Settled where
  scopes := by
    intro k hk
    rw [h.scope]
    exact hs.scopes k (h.mem_clauses hk)
  joins := by
    intro src hsrc hjoin
    obtain ⟨x, hx, -, -, hon, hgrows⟩ := h.frame.2.of_mem hsrc
    rw [hon]
    exact hs.joins x hx (hgrows.isJoin ▸ hjoin)
  resolves := fun k hk => hs.resolves k (h.mem_clauses hk)
  views := ht.views
  regular := fun k hk => hs.regular k (h.mem_clauses hk)

theorem adds (ht : t.Settled) (hu : t.Adds a u) (ha : a.Regular) (hr : a.ResolvesIn t.scope) :
    u.Settled where
  scopes := by
    intro k hk
    rw [hu.scope]
    rcases hu.mem_clauses hk with hk | rfl
    · exact ht.scopes k hk
    · exact List.Subset.refl _
  joins := fun src hsrc => ht.joins src (hu.sources ▸ hsrc)
  resolves := by
    intro k hk
    rcases hu.mem_clauses hk with hk | rfl
    · exact ht.resolves k hk
    · exact hr
  views := fun src hsrc => ht.views src (hu.sources ▸ hsrc)
  regular := by
    intro k hk
    rcases hu.mem_clauses hk with hk | rfl
    · exact ht.regular k hk
    · exact ha

theorem entered (hs : s.Settled) (m : Mapping) (pool : AliasPool) : (s.entered m pool).Settled where
  scopes := fun k hk => List.Subset.trans (hs.scopes k hk) (List.subset_cons_self _ _)
  joins := hs.joins
  resolves := hs.resolves
  views := hs.views
  regular := hs.regular

/-- A new entry of the FROM list, with its predicate if it joins. -/
theorem listing {src : Source} (ht : t.Settled) (hscope : src.scope = t.scope)
    (hview : src.view.Sound) (hjoin : src.view.isJoin = true → src.on.isSome = true)
    (hon : ∀ e, src.on = some e → e.Regular ∧ e.ResolvesIn t.scope) : (t.listing src).Settled where
  scopes := by
    intro k hk
    rcases mem_clauses_listing hk with hk | ⟨e, he, rfl⟩
    · exact ht.scopes k hk
    · rw [hscope]
      exact List.Subset.refl _
  joins := by
    intro x hx
    rcases List.mem_append.mp hx with hx | hx
    · exact ht.joins x hx
    · rw [List.mem_singleton.mp hx]
      exact hjoin
  resolves := by
    intro k hk
    rcases mem_clauses_listing hk with hk | ⟨e, he, rfl⟩
    · exact ht.resolves k hk
    · rw [hscope]
      exact (hon e he).2
  views := by
    intro x hx
    rcases List.mem_append.mp hx with hx | hx
    · exact ht.views x hx
    · rw [List.mem_singleton.mp hx]
      exact hview
  regular := by
    intro k hk
    rcases mem_clauses_listing hk with hk | ⟨e, he, rfl⟩
    · exact ht.regular k hk
    · exact (hon e he).1

end Settled

theorem Sound.accepts (hs : s.Sound) (h : s.Accepts e t a) (ht : t.Ready) : t.Sound :=
  (hs.settled.accepts h ht).sound (hs.linked.grows h.grows)

theorem Sound.adds (ht : t.Sound) (hu : t.Adds a u) (ha : a.Regular) (hr : a.ResolvesIn t.scope) :
    u.Sound :=
  (ht.settled.adds hu ha hr).sound (ht.linked.adds hu)

mutual

theorem Accepts.sound : ∀ {s t : Select} {e a : Expr}, s.Accepts e t a → s.Ready → e.Regular →
    t.Ready ∧ a.Regular ∧ a.ResolvesIn s.scope ∧ ∀ v, e = .star v → a.systemName?.isSome = true
  | _, _, _, _, .literal _ _, hs, he =>
      ⟨hs, he, fun _ hleaf => absurd hleaf List.not_mem_nil, fun _ h => nomatch h⟩
  | _, _, _, _, .apply op h, hs, .apply _ hargs => by
      obtain ⟨ht, hreg, hres⟩ := h.sound hs hargs
      refine ⟨ht, .apply op hreg, ?_, fun _ h => nomatch h⟩
      intro leaf hleaf
      obtain ⟨b, hb, hleaf⟩ := Expr.mem_leavesAll.mp hleaf
      exact hres b hb leaf hleaf
  | _, _, _, _, .own _ _ h, hs, .projected _ _ hd => by
      obtain ⟨ht, hreg, hres, -⟩ := h.sound hs hd
      exact ⟨ht, hreg, hres, fun _ h => nomatch h⟩
  | _, _, _, _, .view h, hs, he => by
      cases he with
      | select i hq hf =>
          obtain rfl := Except.ok.inj h
          exact ⟨hs, .select i hq hf, fun _ hleaf => absurd hleaf List.not_mem_nil,
            fun _ h => nomatch h⟩
  | _, _, _, _, .kept hleaf hm _, hs, he => by
      refine ⟨hs, he, ?_, ?_⟩
      · intro leaf hmem
        rw [Expr.leaves_of_isLeaf hleaf, List.mem_singleton] at hmem
        exact ⟨_, hmem ▸ hm⟩
      · rintro v rfl
        rfl
  | s, _, _, _, @Accepts.routed _ q r _ _ _ before after src _ v _ _ hleaf _ _ hf _ _ hq hp hv, hs,
      he => by
      have hsrc : src ∈ s.sources := by
        rw [hf]
        exact List.mem_append_right _ List.mem_cons_self
      obtain ⟨hqs, hqf, hqn⟩ := (hs.views src hsrc).statement hq
      obtain ⟨hreg, hplain⟩ := he.unpinned hleaf
      obtain ⟨hrs, hrn, hname, hd⟩ := hp.sound hqs hqn hreg hplain
      obtain ⟨n, rfl⟩ := Option.isSome_iff_exists.mp hname
      have hrf := hp.grows.sources_ne_nil hqf
      have hgrows := (View.withStatement_spec hq hp.grows hv).1
      refine ⟨⟨?_, ?_⟩, .projected v n hd, ?_, fun _ _ => rfl⟩
      · intro x hx
        rcases List.mem_append.mp hx with hx | hx
        · exact hs.views x (hf ▸ List.mem_append_left _ hx)
        · rcases List.mem_cons.mp hx with rfl | hx
          · exact (hs.views src hsrc).withStatement hrs hrf hrn hv
          · exact hs.views x (hf ▸ List.mem_append_right _ (List.mem_cons_of_mem _ hx))
      · intro x hx
        rcases List.mem_append.mp hx with hx | hx
        · exact hs.mapped x (hf ▸ List.mem_append_left _ hx)
        · rcases List.mem_cons.mp hx with rfl | hx
          · obtain ⟨m, hm, hmv⟩ := hs.mapped src hsrc
            exact ⟨m, hm, hmv.trans hgrows⟩
          · exact hs.mapped x (hf ▸ List.mem_append_right _ (List.mem_cons_of_mem _ hx))
      · intro leaf hmem
        obtain rfl := List.mem_singleton.mp hmem
        -- the scope holds the source as it was, which equality does not tell from what it is now
        exact hs.resolvesExact hsrc hgrows

theorem AcceptsAll.sound : ∀ {s t : Select} {es as : List Expr}, s.AcceptsAll es t as → s.Ready →
    (∀ e ∈ es, e.Regular) → t.Ready ∧ (∀ a ∈ as, a.Regular) ∧ ∀ a ∈ as, a.ResolvesIn s.scope
  | _, _, _, _, .nil _, hs, _ =>
      ⟨hs, fun _ h => absurd h List.not_mem_nil, fun _ h => absurd h List.not_mem_nil⟩
  | _, _, _, _, .cons h htail, hs, hes => by
      rw [List.forall_mem_cons] at hes
      obtain ⟨ht, hreg, hres, -⟩ := h.sound hs hes.1
      obtain ⟨hu, hregs, hress⟩ := htail.sound ht hes.2
      rw [h.scope] at hress
      exact ⟨hu, List.forall_mem_cons.mpr ⟨hreg, hregs⟩, List.forall_mem_cons.mpr ⟨hres, hress⟩⟩

theorem Provides.sound : ∀ {q r : Select} {e d : Expr} {name : Option String},
    q.Provides e r name d → q.Sound → q.Named → e.Regular → e.isPlain = true →
      r.Sound ∧ r.Named ∧ name.isSome = true ∧ d.Regular
  | _, _, _, _, _, .reused h hp, hq, hn, he, _ => by
      have hr := hq.accepts h (h.sound hq.ready he).1
      have hmem := List.mem_of_find?_eq_some hp
      have hnamed : Named _ := fun p hp => hn p (h.projections ▸ hp)
      exact ⟨hr, hnamed, hnamed _ hmem, hr.definition_regular hmem⟩
  | _, _, _, _, _, .added (r := r) (a := a) (l := l) h _ hl, hq, hn, he, hplain => by
      obtain ⟨ht, hreg, hres, hstar⟩ := h.sound hq.ready he
      have hname : (Projection.name? ⟨a, l, r.scope⟩).isSome = true := by
        rcases he.name_or_star hplain with hsome | ⟨v, rfl⟩
        · obtain ⟨n, hn⟩ := Option.isSome_iff_exists.mp hsome
          rw [hn, AliasPool.projectionAlias_some] at hl
          obtain ⟨rfl, -⟩ := Prod.mk.inj hl
          rfl
        · obtain ⟨rfl, -⟩ := Prod.mk.inj hl
          exact hstar v rfl
      refine ⟨(hq.accepts h ht).adds (.projection hl) hreg (h.scope ▸ hres), ?_, hname, hreg⟩
      intro p hp
      rcases List.mem_append.mp hp with hp | hp
      · exact hn p (h.projections ▸ hp)
      · rw [List.mem_singleton.mp hp]
        exact hname

end

end Select

/-! The calls keep soundness. -/

namespace Expr

theorem mem_unwrapAll {e : Expr} : ∀ {es : List Expr}, e ∈ unwrapAll es ↔ ∃ b ∈ es, b.unwrap = e
  | [] => by simp [unwrapAll]
  | b :: es => by simp [unwrapAll, mem_unwrapAll, eq_comm]

namespace Regular

theorem mapLeaves {f : Expr → Expr}
    (hf : ∀ leaf : Expr, leaf.isLeaf = true → leaf.Regular → (f leaf).Regular) :
    ∀ {e : Expr}, e.Regular → (e.mapLeaves f).Regular
  | _, .literal h => .literal h
  | _, .apply op h => by
      refine .apply op fun e he => ?_
      obtain ⟨b, hb, rfl⟩ := mem_mapLeavesAll.mp he
      exact mapLeaves hf (h b hb)
  | _, .column c => hf _ rfl (.column c)
  | _, .star h => hf _ rfl (.star h)
  | _, .projected v n h => hf _ rfl (.projected v n h)
  | _, .pinned v hplain h => hf _ rfl (.pinned v hplain h)
  | _, .select i h hne => .select i h hne

theorem pinLeaf {leaf : Expr} (hleaf : leaf.isLeaf = true) (h : leaf.Regular) (v : View) :
    (leaf.pinLeaf v).Regular :=
  .pinned v (h.unpinned hleaf).2 (h.unpinned hleaf).1

theorem moveLeaf {leaf : Expr} (h : leaf.Regular) (v : View) : (Join.moveLeaf v leaf).Regular := by
  cases h with
  | pinned w hplain h => exact .pinned v hplain h
  | column c => exact .column c
  | star h => exact .star h
  | projected w n h => exact .projected w n h
  | literal h => exact .literal h
  | apply op h => exact .apply op h
  | select i h hf => exact .select i h hf

theorem attachLeaf {leaf : Expr} (hleaf : leaf.isLeaf = true) (h : leaf.Regular)
    (source target : View) : (Join.attachLeaf source target leaf).Regular := by
  rw [Join.attachLeaf.eq_def]
  split
  · exact h
  · exact h
  · split
    · exact h.pinLeaf hleaf source
    · exact h

theorem unwrap : ∀ {e : Expr}, e.Regular → e.unwrap.Regular
  | _, .literal h => .literal h
  | _, .apply op h => by
      refine .apply op fun e he => ?_
      obtain ⟨b, hb, rfl⟩ := mem_unwrapAll.mp he
      exact unwrap (h b hb)
  | _, .column c => .column c
  | _, .star h => .star h
  | _, .projected _ _ h => h
  | _, .pinned v hplain h => .pinned v hplain h
  | _, .select i h hne => .select i h hne

end Regular

end Expr

namespace Select

variable {s t u : Select} {e a : Expr}

theorem rebase_eq_ok {j l : Join} (h : s.rebase j = .ok l) :
    l = j ∨ ∃ m ∈ s.scope, l = { j with
      source := m.view, predicate := j.predicate.mapLeaves (Join.moveLeaf m.view) } := by
  obtain ⟨m, hm, h₁⟩ := bind_eq_ok.mp h
  dsimp only at h₁
  split at h₁
  · rw [Join.changeSource] at h₁
    split at h₁
    · exact Or.inr ⟨m, Scope.resolve_mem hm, (Except.ok.inj h₁).symm⟩
    · cases h₁
  · exact Or.inl (Except.ok.inj h₁).symm

namespace Sound

theorem empty (i : Nat) : (Select.empty i).Sound :=
  .mk (.empty i) (fun _ h => absurd h List.not_mem_nil) (fun _ h => absurd h List.not_mem_nil)
    (fun _ h => absurd h List.not_mem_nil) (fun _ h => absurd h List.not_mem_nil)
    fun _ h => absurd h List.not_mem_nil

theorem mapping_nanFree (hs : s.Sound) {m : Mapping} (hm : m ∈ s.scope) : m.view.nanFree = true := by
  obtain ⟨src, hsrc, -, hgrows⟩ := hs.linked.mapped m hm
  rw [← hgrows.nanFree]
  exact (hs.settled.views src hsrc).nanFree

theorem rebase (hs : s.Sound) {i k : Nat} {j l : Join} (hv : (View.join i j).Sound)
    (h : s.rebase j = .ok l) : (View.join k l).Sound := by
  cases hv with
  | join i hj ht hsource hp =>
      rcases rebase_eq_ok h with rfl | ⟨m, hm, rfl⟩
      · exact .join k hj ht hsource hp
      · exact .join k hj ht (hs.mapping_nanFree hm)
          (hp.mapLeaves fun leaf _ hleaf => hleaf.moveLeaf m.view)

theorem copyView {v w : View} {c c' : Catalog} (hv : v.Sound)
    (h : Build.copyView v c = .ok (w, c')) : w.Sound ∧ w.isJoin = v.isJoin := by
  cases v with
  | table t =>
      obtain ⟨rfl, -⟩ := Prod.mk.inj (Except.ok.inj h)
      exact ⟨.table _, rfl⟩
  | concrete t =>
      obtain ⟨rfl, -⟩ := Prod.mk.inj (Build.pure_eq_ok.mp h)
      exact ⟨hv, rfl⟩
  | select i q =>
      obtain ⟨rfl, -⟩ := Prod.mk.inj (Build.pure_eq_ok.mp h)
      exact ⟨hv, rfl⟩
  | join i j =>
      obtain ⟨rfl, -⟩ := Prod.mk.inj (Build.pure_eq_ok.mp h)
      exact ⟨hv, rfl⟩

end Sound

theorem Ready.entered (hs : s.Ready) (m : Mapping) (pool : AliasPool) : (s.entered m pool).Ready where
  views := hs.views
  mapped := by
    intro src hsrc
    obtain ⟨x, hx, hgrows⟩ := hs.mapped src hsrc
    exact ⟨x, List.mem_cons_of_mem _ hx, hgrows⟩

theorem Step.sound (h : Step Expr.Regular View.Sound s u) (hs : s.Sound) : u.Sound := by
  have hlinked := h.linked hs.linked
  cases h with
  | @source v w a pool c c' mark hv hw hj ha =>
      obtain ⟨hsound, hjoin⟩ := Sound.copyView hv hw
      refine ((hs.settled.entered _ pool).listing rfl hsound ?_ ?_).sound hlinked
      · intro hw
        rw [hjoin, hj] at hw
        cases hw
      · intro e he
        cases he
  | @join t i k j l a pool e mark hv hl ha h =>
      have hview := hs.rebase (k := k) hv hl
      have hpredicate : l.predicate.Regular := by
        cases hview with
        | join k hj ht hsource hp => exact hp
      obtain ⟨ht, hreg, hres, -⟩ := h.sound (hs.ready.entered _ pool) hpredicate
      have hsettled := (hs.settled.entered _ pool).accepts h ht
      refine (hsettled.listing rfl hview (fun _ => rfl) fun b hb => ?_).sound hlinked
      obtain rfl := Option.some.inj hb
      exact ⟨hreg, h.scope ▸ hres⟩
  | clause he h hu =>
      obtain ⟨ht, hreg, hres, -⟩ := h.sound hs.ready he
      exact (hs.accepts h ht).adds hu hreg (h.scope ▸ hres)

end Select

/-! A sound statement prints, with its own aliases as qualifiers. -/

namespace Piece

/-- The alias in front of a column or a star. -/
def qualifier? : Piece → Option String
  | reference q _ _ => q
  | star q => q
  | _ => none

/-- A piece without a fault whose qualifier is known in a scope. -/
def CleanIn (s : Scope) (x : Piece) : Prop :=
  x.isFaulty = false ∧ ∀ a, x.qualifier? = some a → ∃ m ∈ s, m.label = a

theorem CleanIn.layout (s : Scope) : Layout (CleanIn s) where
  word := fun _ => ⟨rfl, fun _ h => nomatch h⟩
  label := fun _ => ⟨rfl, fun _ h => nomatch h⟩
  name := fun _ _ => ⟨rfl, fun _ h => nomatch h⟩
  literal := fun _ => ⟨rfl, fun _ h => nomatch h⟩

theorem CleanIn.mono {s s' : Scope} {x : Piece} (h : x.CleanIn s) (hsub : s ⊆ s') : x.CleanIn s' :=
  ⟨h.1, fun a ha => by
    obtain ⟨m, hm, hl⟩ := h.2 a ha
    exact ⟨m, hsub hm, hl⟩⟩

end Piece

namespace Expr

theorem qualifier?_of_mem_leafPieces {q : Option String} {leaf : Expr} {x : Piece}
    (h : x ∈ leafPieces q leaf) : x.isFaulty = true ∨ x.qualifier? = q := by
  rw [leafPieces.eq_def] at h
  split at h <;> rw [List.mem_singleton.mp h]
  · exact Or.inr rfl
  · exact Or.inr rfl
  · exact Or.inr rfl
  · exact Or.inl rfl
  · exact Or.inl rfl

/-- A leaf that prints has the alias of a mapping in front. -/
theorem cleanIn_of_printsIn {s : Scope} {leaf : Expr} (h : leaf.printsIn s = true) :
    ∀ x ∈ leafPiecesIn s leaf, x.CleanIn s := by
  have hfine : ∀ x ∈ leafPiecesIn s leaf, x.isFaulty = false := by
    rw [printsIn, Bool.not_eq_true'] at h
    intro x hx
    by_contra hx'
    rw [Bool.not_eq_false] at hx'
    rw [Piece.anyFaulty_of_mem hx hx'] at h
    cases h
  intro x hx
  refine ⟨hfine x hx, fun a ha => ?_⟩
  rw [leafPiecesIn] at hx hfine
  cases hm : s.resolveLeaf leaf with
  | error cause =>
      rw [hm] at hfine
      have hfault := hfine (.faultHere cause) List.mem_cons_self
      cases hfault
  | ok m =>
      rw [hm] at hx hfine
      rcases qualifier?_of_mem_leafPieces hx with hfault | hq
      · exact absurd hfault (by simp [hfine x hx])
      · rw [hq, Option.some.injEq] at ha
        exact ⟨m, Scope.resolveLeaf_mem hm, ha⟩

/-- A regular leaf that resolves prints. -/
theorem Regular.printsIn {s : Scope} {leaf : Expr} (h : leaf.Regular) (hleaf : leaf.isLeaf = true)
    {m : Mapping} (hm : s.resolveLeaf leaf = .ok m) : leaf.printsIn s = true := by
  obtain ⟨hreg, hplain⟩ := h.unpinned hleaf
  rw [Expr.printsIn, leafPiecesIn, hm, resolvedPieces]
  generalize leaf.unpinned = plain at hreg hplain
  cases hreg with
  | column c => rfl
  | star h => rfl
  | projected v n h => rfl
  | pinned v hplain' h => cases hplain
  | literal h => cases hplain
  | apply op h => cases hplain
  | select i h hf => cases hplain

theorem mem_occurrencesAll {raw : Bool} {s : Scope} {o : Occurrence} : ∀ {es : List Expr},
    o ∈ occurrencesAll raw s es ↔ ∃ e ∈ es, o ∈ e.occurrences raw s
  | [] => by simp [occurrencesAll]
  | e :: es => by simp [occurrencesAll, mem_occurrencesAll]

/-- What a leaf shows prints, if it resolves. -/
theorem Regular.clean_leaf {c : Catalog} {s : Scope} {leaf : Expr} {raw : Bool} (h : leaf.Regular)
    (hleaf : leaf.isLeaf = true) (hres : leaf.ResolvesIn s) :
    ∀ o ∈ [Occurrence.leaf s leaf raw], ∀ x ∈ o.pieces c, x.CleanIn s := by
  obtain ⟨m, hm⟩ := hres leaf (by rw [leaves_of_isLeaf hleaf]; exact List.mem_cons_self)
  exact List.forall_mem_singleton.mpr (cleanIn_of_printsIn (h.printsIn hleaf hm))

end Expr

namespace Select

/-- Everything that stands for a sound statement without projections prints. -/
theorem Settled.clean_defaults {c : Catalog} {s : Select} (hs : s.Settled) (hl : s.Linked)
    {p : Projection} (hp : p ∈ s.defaults c) :
    ∀ x ∈ p.definition.leafPiecesIn p.scope, x.CleanIn s.scope := by
  obtain ⟨src, hsrc, hcase⟩ := mem_defaults hp
  obtain ⟨hsub, m, rest, heq, -, hgrows⟩ := hl.captured src hsrc
  have hprints : p.definition.printsIn p.scope = true ∧ p.scope = src.scope := by
    rcases hcase with rfl | ⟨-, hprints, hscope⟩
    · have hnan : m.view.nanFree = true := by
        rw [← hgrows.nanFree]
        exact (hs.views src hsrc).nanFree
      have hm : m ∈ src.scope := heq ▸ List.mem_cons_self
      obtain ⟨x, hx⟩ :=
        Scope.exists_resolve hm (View.compatible_of_beq (View.beq_of_grows hnan hgrows))
      refine ⟨?_, rfl⟩
      rw [Expr.printsIn, Expr.leafPiecesIn, Scope.resolveLeaf, hx]
      rfl
    · exact ⟨hscope ▸ hprints, hscope⟩
  intro x hx
  exact (Expr.cleanIn_of_printsIn hprints.1 x hx).mono (hprints.2 ▸ hsub)

end Select

mutual

theorem Expr.Regular.clean {c : Catalog} : ∀ {e : Expr} {s : Scope} {raw : Bool}, e.Regular →
    e.ResolvesIn s → ∀ o ∈ e.occurrences raw s, ∀ x ∈ o.pieces c, x.CleanIn s
  | _, _, _, .literal _, _ => fun _ ho => absurd ho List.not_mem_nil
  | _, _, _, .apply _ h, hres => by
      intro o ho
      obtain ⟨e, he, ho⟩ := Expr.mem_occurrencesAll.mp ho
      exact (h e he).clean (fun leaf hleaf => hres leaf (Expr.mem_leavesAll.mpr ⟨e, he, hleaf⟩)) o ho
  | _, _, _, .column col, hres => (Expr.Regular.column col).clean_leaf rfl hres
  | _, _, _, .star h, hres => (Expr.Regular.star h).clean_leaf rfl hres
  | _, _, _, .projected v n h, hres => (Expr.Regular.projected v n h).clean_leaf rfl hres
  | _, _, _, .pinned v hplain h, hres => (Expr.Regular.pinned v hplain h).clean_leaf rfl hres
  | _, _, _, .select _ h hf, _ => by
      refine List.forall_mem_singleton.mpr (List.forall_mem_singleton.mpr ⟨?_, fun _ ha => nomatch ha⟩)
      exact Piece.anyFaulty_eq_false fun x hx => (h.clean hf x hx).1

theorem View.Sound.clean {c : Catalog} : ∀ {v : View} {s : Scope}, v.Sound →
    ∀ o ∈ v.listed s, ∀ x ∈ o.pieces c, x.CleanIn s
  | _, _, .table _ => fun _ ho => absurd ho List.not_mem_nil
  | _, _, .concrete _ => fun _ ho => absurd ho List.not_mem_nil
  | _, _, .select _ h hf _ => by
      refine List.forall_mem_singleton.mpr (List.forall_mem_singleton.mpr ⟨?_, fun _ ha => nomatch ha⟩)
      exact Piece.anyFaulty_eq_false fun x hx => (h.clean hf x hx).1
  | _, s, .join _ hj ht _ _ => by
      have htarget := ht.clean (s := s) (c := c)
      rw [View.listed_of_not_join hj] at htarget
      exact htarget

theorem Select.Sound.clean {c : Catalog} : ∀ {s : Select}, s.Sound → s.sources ≠ [] →
    ∀ x ∈ s.pieces c, x.CleanIn s.scope
  | s, .mk linked scopes joins resolves views regular, hf => by
      have hclause : ∀ k ∈ s.clauses, ∀ o ∈ k.occurrences, ∀ x ∈ o.pieces c, x.CleanIn s.scope :=
        fun k hk o ho x hx => ((regular k hk).clean (resolves k hk) o ho x hx).mono (scopes k hk)
      have hview : ∀ src ∈ s.sources, ∀ o ∈ src.view.listed src.scope, ∀ x ∈ o.pieces c,
          x.CleanIn s.scope :=
        fun src hsrc o ho x hx => ((views src hsrc).clean o ho x hx).mono (linked.captured src hsrc).1
      refine (Piece.CleanIn.layout s.scope).select (fun h => absurd h hf) fun o ho => ?_
      rw [Select.occurrences, List.mem_append, List.mem_append] at ho
      rcases ho with (ho | ho) | ho
      · rw [Select.projected] at ho
        split at ho
        · obtain ⟨p, hp, rfl⟩ := List.mem_map.mp ho
          exact Select.Settled.clean_defaults ⟨scopes, joins, resolves, views, regular⟩ linked hp
        · obtain ⟨p, hp, ho⟩ := List.mem_flatMap.mp ho
          exact hclause ⟨p.definition, p.scope⟩ (Select.mem_clauses.mpr (Or.inl ⟨p, hp, rfl⟩)) o ho
      · obtain ⟨src, hsrc, ho⟩ := List.mem_flatMap.mp ho
        rcases Source.mem_occurrences ho (joins src hsrc) with ho | ⟨e, he, ho⟩
        · exact hview src hsrc o ho
        · exact hclause ⟨e, src.scope⟩
            (Select.mem_clauses.mpr (Or.inr (Or.inl ⟨src, hsrc, e, he, rfl⟩))) o ho
      · obtain ⟨k, hk, ho⟩ := List.mem_flatMap.mp ho
        refine hclause k (Select.mem_clauses.mpr (Or.inr (Or.inr ?_))) o ho
        rw [List.mem_append, List.mem_append, or_assoc] at hk
        exact hk

end

end SqlCompose
