import SqlCompose.Proofs.Attachment
import SqlCompose.Proofs.Conjunctions
import SqlCompose.Proofs.Equality
import SqlCompose.Proofs.InStep
import SqlCompose.Proofs.Registries

/-!
What a statement carries once it has accepted it. Every leaf of an accepted expression stays as it is, or refers to a
projection of the statement behind a source; that projection is the first one with an equal definition, and the nested
statement carries the definition in turn. Growth keeps this, and so it holds of all that is accepted, as long as no
statement stands behind two sources and the nested statements carry what they project. Equality of definitions
has to be transitive for this, so the nodes behind the marks are followed through the acceptance.
-/

namespace SqlCompose

/-! A statement and those nested in it. -/

/-- A predicate holds of a statement and of all statements nested in its FROM list. -/
inductive Select.Deep (P : Select → Prop) : Select → Prop
  | mk {s : Select} (self : P s) (inner : ∀ src ∈ s.sources, ∀ q, src.view.statement? = some q → q.Deep P) : s.Deep P

namespace Select.Deep

variable {P Q : Select → Prop} {s : Select}

theorem self (h : s.Deep P) : P s := by
  cases h with
  | mk self inner => exact self

theorem inner (h : s.Deep P) : ∀ src ∈ s.sources, ∀ q, src.view.statement? = some q → q.Deep P := by
  cases h with
  | mk self inner => exact inner

theorem and (h : s.Deep P) (h' : s.Deep Q) : s.Deep fun q => P q ∧ Q q := by
  induction h with
  | mk self inner ih => exact .mk ⟨self, h'.self⟩ fun src hsrc q hq => ih src hsrc q hq (h'.inner src hsrc q hq)

theorem mono (h : s.Deep P) (hPQ : ∀ q, P q → Q q) : s.Deep Q := by
  induction h with
  | mk self inner ih => exact .mk (hPQ _ self) ih

end Select.Deep

/-- What calls make of an empty statement is linked at every level. -/
theorem Select.Formed.deep_linked {s : Select} (h : s.Formed) : s.Deep Linked := by
  generalize hn : s.level = n
  induction n using Nat.strong_induction_on generalizing s with
  | _ n ih =>
      refine .mk (h.induction Linked.empty Step.linked).1 fun src hsrc q hq => ?_
      obtain ⟨i, hi⟩ := View.mem_inside_of_statement? hq
      have hlevel : q.level < n :=
        hn ▸ Nat.lt_of_lt_of_le (View.level_of_statement? hq) (Source.level_le_levelAll hsrc)
      exact ih _ hlevel (h.inside (mem_inside.mpr (.inl ⟨src, hsrc, .inl hi⟩))) rfl

/-! The nodes that are known. -/

/-- A view that is a node is the one behind its mark, and the mark has been given out. -/
def Catalog.Knows (c : Catalog) (N : Nodes) : View → Prop
  | .join i j => i < c.nextMark ∧ N.join i = j
  | .select i q => i < c.nextMark ∧ N.select i = q
  | _ => True

/-- More marks are given out, and the nodes known before stay behind theirs. -/
structure Catalog.Learns (c : Catalog) (N : Nodes) (c' : Catalog) (N' : Nodes) : Prop where
  marks : c.nextMark ≤ c'.nextMark
  join : ∀ i < c.nextMark, N'.join i = N.join i
  select : ∀ i < c.nextMark, N'.select i = N.select i

namespace Catalog

variable {c c' c₁ : Catalog} {N N' N₁ : Nodes} {v : View}

theorem Knows.holds (h : c.Knows N v) : N.Holds v := by
  cases v with
  | table t => trivial
  | concrete t => trivial
  | join i j => exact h.2
  | select i q => exact h.2

namespace Learns

theorem refl (c : Catalog) (N : Nodes) : c.Learns N c N := ⟨Nat.le_refl _, fun _ _ => rfl, fun _ _ => rfl⟩

theorem trans (h : c.Learns N c₁ N₁) (h' : c₁.Learns N₁ c' N') : c.Learns N c' N' where
  marks := Nat.le_trans h.marks h'.marks
  join := fun i hi => (h'.join i (Nat.lt_of_lt_of_le hi h.marks)).trans (h.join i hi)
  select := fun i hi => (h'.select i (Nat.lt_of_lt_of_le hi h.marks)).trans (h.select i hi)

theorem knows (h : c.Learns N c' N') (hv : c.Knows N v) : c'.Knows N' v := by
  cases v with
  | table t => trivial
  | concrete t => trivial
  | join i j => exact ⟨Nat.lt_of_lt_of_le hv.1 h.marks, (h.join i hv.1).trans hv.2⟩
  | select i q => exact ⟨Nat.lt_of_lt_of_le hv.1 h.marks, (h.select i hv.1).trans hv.2⟩

theorem view (h : c.Learns N c' N') (hv : v.Throughout (c.Knows N)) : v.Throughout (c'.Knows N') :=
  fun w hw => h.knows (hv w hw)

theorem expr {e : Expr} (h : c.Learns N c' N') (he : e.Throughout (c.Knows N)) : e.Throughout (c'.Knows N') :=
  fun w hw => h.knows (he w hw)

theorem statement {s : Select} (h : c.Learns N c' N') (hs : s.Throughout (c.Knows N)) :
    s.Throughout (c'.Knows N') :=
  fun w hw => h.knows (hs w hw)

end Learns

/-- A statement becomes a new node. -/
theorem learns_select {q : Select} (hq : q.Throughout (c.Knows N)) : ∃ N', c.Learns N c.freshMark.2 N' ∧
    (View.select c.nextMark q).Throughout (c.freshMark.2.Knows N') := by
  have hlearns : c.Learns N c.freshMark.2 { N with select := fun i => if i = c.nextMark then q else N.select i } :=
    ⟨Nat.le_succ _, fun _ _ => rfl, fun i hi => if_neg (Nat.ne_of_lt hi)⟩
  exact ⟨_, hlearns, View.throughout_select.mpr ⟨⟨Nat.lt_succ_self _, if_pos rfl⟩, hlearns.statement hq⟩⟩

/-- A join becomes a new node. -/
theorem learns_join {j : Join} (hj : j.Throughout (c.Knows N)) : ∃ N', c.Learns N c.freshMark.2 N' ∧
    (View.join c.nextMark j).Throughout (c.freshMark.2.Knows N') := by
  have hlearns : c.Learns N c.freshMark.2 { N with join := fun i => if i = c.nextMark then j else N.join i } :=
    ⟨Nat.le_succ _, fun i hi => if_neg (Nat.ne_of_lt hi), fun _ _ => rfl⟩
  exact ⟨_, hlearns, View.throughout_join.mpr ⟨⟨Nat.lt_succ_self _, if_pos rfl⟩, hlearns.view hj.source,
    hlearns.view hj.target, hlearns.expr hj.predicate⟩⟩

theorem learns_withStatement {r : Select} : ∀ {v w : View} {c c' : Catalog} {N : Nodes},
    v.Throughout (c.Knows N) → r.Throughout (c.Knows N) → v.withStatement r c = .ok (w, c') →
      ∃ N', c.Learns N c' N' ∧ w.Throughout (c'.Knows N')
  | .table _, _, _, _, N, hv, _, h => by
      obtain ⟨rfl, rfl⟩ := Prod.mk.inj (Build.pure_eq_ok.mp h)
      exact ⟨N, .refl _ N, hv⟩
  | .concrete _, _, _, _, N, hv, _, h => by
      obtain ⟨rfl, rfl⟩ := Prod.mk.inj (Build.pure_eq_ok.mp h)
      exact ⟨N, .refl _ N, hv⟩
  | .select _ _, _, _, _, _, _, hr, h => by
      obtain ⟨rfl, rfl⟩ := Prod.mk.inj (Build.selectView_eq_ok.mp h)
      exact learns_select hr
  | .join _ ⟨_, _, t, _⟩, _, _, _, _, hv, hr, h => by
      obtain ⟨-, hs, ht, hp⟩ := View.throughout_join.mp hv
      obtain ⟨u, c₁, hu, h₁⟩ := Build.bind_eq_ok.mp h
      obtain ⟨rfl, rfl⟩ := Prod.mk.inj (Build.joinView_eq_ok.mp h₁)
      obtain ⟨N₁, hlearns, hu⟩ := learns_withStatement (v := t) ht hr hu
      obtain ⟨N', hlearns', hw⟩ := learns_join (j := ⟨_, _, u, _⟩) ⟨hlearns.view hs, hu, hlearns.expr hp⟩
      exact ⟨N', hlearns.trans hlearns', hw⟩

end Catalog

/-! Expressions composed of constants, operators and leaves. -/

mutual

/-- Whether an expression consists of constants other than NaN, operators, columns, stars and references to
projections, pinned or not, and of statements as values. The definitions behind the references count. -/
def Expr.isBasic : Expr → Bool
  | .literal v => !v.isNaN
  | .apply _ args => Expr.allBasic args
  | .column _ => true
  | .star v => v.nanFree
  | .projected _ _ d => d.isBasic
  | .pinned e _ => e.isBasic
  | .view (.select _ q) => q.nanFree
  | .view _ => false
  | .within .. => false

/-- Whether all arguments are basic. -/
def Expr.allBasic : List Expr → Bool
  | [] => true
  | e :: es => e.isBasic && Expr.allBasic es

end

namespace Expr

mutual

theorem nanFree_of_isBasic : ∀ {e : Expr}, e.isBasic = true → e.nanFree = true
  | .literal _, h => h
  | .apply _ _, h => nanFreeAll_of_allBasic h
  | .column _, _ => rfl
  | .star _, h => h
  | .projected _ _ d, h => nanFree_of_isBasic (e := d) h
  | .pinned e _, h => nanFree_of_isBasic (e := e) h
  | .view (.select ..), h => h
  | .view (.table _), h => nomatch h
  | .view (.concrete _), h => nomatch h
  | .view (.join ..), h => nomatch h
  | .within .., h => nomatch h

theorem nanFreeAll_of_allBasic : ∀ {es : List Expr}, allBasic es = true → nanFreeAll es = true
  | [], _ => rfl
  | e :: es, h => by
      obtain ⟨he, hes⟩ := Bool.and_eq_true_iff.mp h
      rw [nanFreeAll, nanFree_of_isBasic he, nanFreeAll_of_allBasic hes, Bool.and_self]

end

theorem isBasic_unpinned {leaf : Expr} (h : leaf.isBasic = true) : leaf.unpinned.isBasic = true := by
  cases leaf with
  | pinned e v => exact h
  | literal v => exact h
  | apply op args => exact h
  | column c => exact h
  | star v => exact h
  | projected v n d => exact h
  | view v => exact h
  | within sc e => exact h

end Expr

/-! What a statement carries. -/

/-- A view that has grown had a statement behind it before. -/
theorem View.Grows.statement?_of : ∀ {v w : View} {r : Select}, v.Grows w → w.statement? = some r →
    ∃ q, v.statement? = some q ∧ q.Grows r
  | .table _, w, r, h, hr => by
      obtain rfl : _ = w := h
      cases hr
  | .concrete _, w, r, h, hr => by
      obtain rfl : _ = w := h
      cases hr
  | .select _ _, w, r, h, hr => by
      obtain ⟨k, q, rfl, hq⟩ := h.of_select
      obtain rfl := Option.some.inj hr
      exact ⟨_, rfl, hq⟩
  | .join _ ⟨_, _, t, _⟩, w, r, h, hr => by
      obtain ⟨k, ⟨_, _, t', _⟩, rfl, -, -, -, ht⟩ := h.of_join
      exact statement?_of (v := t) (w := t') ht hr

namespace Select

/-- A view is one that a source has had since it entered the scope, and a statement stands behind the source. -/
structure Route (s : Select) (m : Mapping) (src : Source) (v : View) (q : Select) : Prop where
  mapping : m ∈ s.scope
  statement : m.view.isStatement = true
  source : src ∈ s.sources
  label : src.label = m.label
  before : m.view.Grows v
  after : v.Grows src.view
  behind : src.view.statement? = some q

/-- A statement carries an expression: every leaf belongs to a view in scope other than a statement, or refers to a
projection of the statement behind a source. That projection is the first one with an equal definition, and the nested
statement carries the definition. -/
inductive Carries (c : Catalog) : Select → Expr → Prop
  | literal {s : Select} (v : Literal) : Carries c s (.literal v)
  | apply {s : Select} (op : Operator) {args : List Expr} (h : ∀ e ∈ args, Carries c s e) :
      Carries c s (.apply op args)
  | statement {s : Select} (i : Nat) (q : Select) : Carries c s (.view (.select i q))
  | kept {s : Select} {leaf : Expr} {m : Mapping} (hleaf : leaf.isLeaf = true)
      (hm : Scope.resolveLeaf s.scope leaf = .ok m) (hs : m.view.isStatement = false)
      (hc : checkDeclared c m.view leaf.unpinned = .ok ()) : Carries c s leaf
  | reference {s q : Select} {m : Mapping} {src : Source} {v : View} {p : Projection} (h : s.Route m src v q)
      (hp : q.projections.find? (·.definition == p.definition) = some p) (hd : Carries c q p.definition) :
      Carries c s (.projected v p.name? p.definition)

variable {s t q r u : Select} {e a d leaf : Expr} {es as : List Expr} {c c' c₁ k : Catalog} {N N' : Nodes} {v w : View}
  {m : Mapping} {src : Source}

/-- Growth keeps the way to a nested statement, which grows with it. -/
theorem Route.grows (h : s.Route m src v q) (hst : s.Grows t) :
    ∃ src' q', t.Route m src' v q' ∧ src'.label = src.label ∧ q.Grows q' := by
  obtain ⟨src', hsrc', hlabel, -, -, hview⟩ := hst.sources.mem h.source
  obtain ⟨r, hr, hqr⟩ := hview.statement? h.behind
  exact ⟨src', r, ⟨hst.scope ▸ h.mapping, h.statement, hsrc', hlabel.trans h.label, h.before, h.after.trans hview, hr⟩,
    hlabel, hqr⟩

/-- Growth keeps what a statement carries. -/
theorem Carries.grows (h : s.Carries c e) : ∀ {t : Select}, s.Grows t → t.Carries c e := by
  induction h with
  | literal v => exact fun _ => .literal v
  | apply op h ih => exact fun ht => .apply op fun e he => ih e he ht
  | statement i q => exact fun _ => .statement i q
  | kept hleaf hm hs hc =>
      intro t ht
      exact .kept hleaf (ht.scope ▸ hm) hs hc
  | reference h hp hd ih =>
      intro t ht
      obtain ⟨src', r, hroute, -, hqr⟩ := h.grows ht
      exact .reference hroute (hqr.projections.find?_eq_some hp) (ih hqr)

/-- No NaN is in the sources, a statement is neither nested in itself nor behind two sources, and the nested statements
carry what they project. -/
structure Orderly (c : Catalog) (s : Select) : Prop where
  nanFree : ∀ src ∈ s.sources, src.view.nanFree = true
  outer : ∀ src ∈ s.sources, ∀ q, src.view.statement? = some q → q.identity ≠ s.identity
  apart : ∀ x ∈ s.sources, ∀ y ∈ s.sources, ∀ q r, x.view.statement? = some q → y.view.statement? = some r →
    q.identity = r.identity → x.label = y.label
  carried : ∀ src ∈ s.sources, ∀ q, src.view.statement? = some q → ∀ p ∈ q.projections, q.Carries c p.definition

/-- An orderly statement whose FROM list and scope are linked. -/
structure Tidy (c : Catalog) (s : Select) : Prop extends s.Orderly c where
  linked : s.Linked

theorem Formed.deep_tidy (h : s.Formed) (hs : s.Deep (Orderly c)) : s.Deep (Tidy c) :=
  (h.deep_linked.and hs).mono fun _ hq => { hq.2 with linked := hq.1 }

/-- A statement that has grown is orderly if those nested in it still carry what they project. -/
theorem Orderly.grows (h : s.Orderly c) (hst : s.Grows t) (hcarried : ∀ src ∈ t.sources, ∀ q,
    src.view.statement? = some q → ∀ p ∈ q.projections, q.Carries c p.definition) : t.Orderly c where
  nanFree := by
    intro y hy
    obtain ⟨x, hx, -, -, -, hview⟩ := hst.sources.of_mem hy
    rw [hview.nanFree]
    exact h.nanFree x hx
  outer := by
    intro y hy r hr
    obtain ⟨x, hx, -, -, -, hview⟩ := hst.sources.of_mem hy
    obtain ⟨q, hq, hqr⟩ := hview.statement?_of hr
    rw [hqr.identity, hst.identity]
    exact h.outer x hx q hq
  apart := by
    intro y hy y' hy' r r' hr hr' hidentity
    obtain ⟨x, hx, hl, -, -, hview⟩ := hst.sources.of_mem hy
    obtain ⟨x', hx', hl', -, -, hview'⟩ := hst.sources.of_mem hy'
    obtain ⟨q, hq, hqr⟩ := hview.statement?_of hr
    obtain ⟨q', hq', hqr'⟩ := hview'.statement?_of hr'
    rw [hqr.identity, hqr'.identity] at hidentity
    rw [hl, hl']
    exact h.apart x hx x' hx' q q' hq hq' hidentity
  carried := hcarried

/-- The statement behind one source grows, and carries what it projects. -/
theorem deep_tidy_update {before after : List Source} (hs : s.Deep (Tidy k)) (hf : s.sources = before ++ src :: after)
    (hv : src.view.Grows v) (hr : v.statement? = some r) (hdeep : r.Deep (Tidy k))
    (hcarried : ∀ p ∈ r.projections, r.Carries k p.definition) :
    Deep (Tidy k) { s with sources := before ++ { src with view := v } :: after } := by
  have hsource : src.Grows { src with view := v } := ⟨rfl, rfl, rfl, hv⟩
  have hgrown : s.Grows { s with sources := before ++ { src with view := v } :: after } := by
    refine grows_of_sources rfl ?_
    rw [hf]
    exact hsource.growAll after before
  have hcases : ∀ x ∈ before ++ { src with view := v } :: after, x ∈ s.sources ∨ x = { src with view := v } := by
    intro x hx
    rw [hf]
    rcases List.mem_append.mp hx with hx | hx
    · exact .inl (List.mem_append_left _ hx)
    · rcases List.mem_cons.mp hx with rfl | hx
      · exact .inr rfl
      · exact .inl (List.mem_append_right _ (List.mem_cons_of_mem _ hx))
  refine .mk { hs.self.toOrderly.grows hgrown fun x hx q hq => ?_ with linked := hs.self.linked.grows hgrown }
    fun x hx q hq => ?_
  · rcases hcases x hx with hx | rfl
    · exact hs.self.carried x hx q hq
    · obtain rfl := Option.some.inj (hr.symm.trans hq)
      exact hcarried
  · rcases hcases x hx with hx | rfl
    · exact hs.inner x hx q hq
    · obtain rfl := Option.some.inj (hr.symm.trans hq)
      exact hdeep

theorem deep_tidy_projecting {p : Projection} {name : Option String} {pool : AliasPool} (h : s.Deep (Tidy k))
    (hl : s.aliases.projectionAlias name = (p.label, pool)) :
    Deep (Tidy k) { s with projections := s.projections ++ [p], aliases := pool } := by
  have hlinked : Linked { s with projections := s.projections ++ [p], aliases := pool } :=
    h.self.linked.grows (grows_of_projection hl)
  have hself := h.self
  exact .mk ⟨⟨hself.nanFree, hself.outer, hself.apart, hself.carried⟩, hlinked⟩ h.inner

/-! Accepting makes a statement carry the accepted expression. -/

theorem checkDeclared_congr (h : c'.registries = c.registries) (v : View) (e : Expr) :
    checkDeclared c' v e = checkDeclared c v e := by
  have hcolumn : c'.hasColumn = c.hasColumn := by
    funext t name
    rw [Catalog.hasColumn, Catalog.hasColumn, Catalog.registry, Catalog.registry, h]
  cases e with
  | column col => rw [checkDeclared, checkDeclared, hcolumn]
  | literal v => rfl
  | apply op args => rfl
  | star v => rfl
  | projected v n d => rfl
  | view v => rfl
  | pinned e v => rfl
  | within sc e => rfl

/-- What a statement is after it has accepted an expression, and what it has accepted. -/
structure Lands (k c : Catalog) (N : Nodes) (t : Select) (a : Expr) (c' : Catalog) : Prop where
  tidy : t.Deep (Tidy k)
  carries : t.Carries k a
  reflexive : (a == a) = true
  known : ∃ N', c.Learns N c' N' ∧ t.Throughout (c'.Knows N') ∧ a.Throughout (c'.Knows N')

/-- Nested statements accept soundly, leave the registries alone, and carry what they have accepted. -/
structure Acceptor.Landing (k : Catalog) (accept : Acceptor) : Prop where
  sound : accept.Sound
  quiet : accept.Quiet
  lands : ∀ {s t : Select} {e a : Expr} {c c' : Catalog} {N : Nodes}, accept s e c = .ok ((t, a), c') →
    c.registries = k.registries → s.Deep (Tidy k) → s.Throughout (c.Knows N) → e.isBasic = true →
      e.Throughout (c.Knows N) → Lands k c N t a c'

variable {accept : Acceptor} {name : Option String}

/-- A nested statement gives the first projection that equals what it has accepted, and carries it. -/
theorem provide_lands (h : accept.Landing k) (hrun : provide accept q e c = .ok ((r, name, d), c'))
    (hc : c.registries = k.registries) (hq : q.Deep (Tidy k)) (hN : q.Throughout (c.Knows N))
    (hbasic : e.isBasic = true) (he : e.Throughout (c.Knows N))
    (hcarried : ∀ p ∈ q.projections, q.Carries k p.definition) :
    r.Deep (Tidy k) ∧ (∀ p ∈ r.projections, r.Carries k p.definition) ∧ (d == d) = true ∧
      (∃ p, r.projections.find? (·.definition == d) = some p ∧ p.name? = name ∧ p.definition = d) ∧
      ∃ N', c.Learns N c' N' ∧ r.Throughout (c'.Knows N') ∧ d.Throughout (c'.Knows N') := by
  obtain ⟨u, b, hub, hcase⟩ := provide_eq_ok hrun
  obtain ⟨htidy, hcarries, hreflexive, N', hlearns, hu, hb⟩ := h.lands hub hc hq hN hbasic he
  have hacc : q.Accepts e u b := h.sound hub
  have hold : ∀ p ∈ u.projections, u.Carries k p.definition := by
    rw [hacc.projections]
    exact fun p hp => (hcarried p hp).grows hacc.grows
  rcases hcase with ⟨p, hp, rfl, rfl, rfl⟩ | ⟨hnone, l, pool, hl, rfl, rfl, rfl⟩
  · have hholds : ∀ p ∈ r.projections, p.definition.Throughout N'.Holds := fun p hp v hv =>
      ((throughout_iff.mp hu).2.1 p hp v hv).holds
    have hmem := List.mem_of_find?_eq_some hp
    have hbeq : p.definition.beq b = true := List.find?_some (p := fun x : Projection => x.definition == b) hp
    have hbN : b.Throughout N'.Holds := fun v hv => (hb v hv).holds
    -- what is equal to the definition is equal to what was accepted, so the same projection is the first
    have hsame : ∀ x ∈ r.projections, (x.definition == p.definition) = (x.definition == b) := by
      intro x hx
      refine Bool.eq_iff_iff.mpr ⟨fun h => ?_, fun h => ?_⟩
      · exact Expr.beq_trans (hholds x hx) (hholds p hmem) hbN h hbeq
      · exact Expr.beq_trans (hholds x hx) hbN (hholds p hmem) h (Expr.beq_symm hbeq)
    refine ⟨htidy, hold, ?_, ⟨p, ?_, rfl, rfl⟩, N', hlearns, hu, (throughout_iff.mp hu).2.1 p hmem⟩
    · exact Expr.beq_trans (hholds p hmem) hbN (hholds p hmem) hbeq (Expr.beq_symm hbeq)
    · rw [← hp]
      exact List.find?_congr hsame
  · have hgrows := grows_of_projection (s := u) (p := ⟨d, l, u.scope⟩) hl
    refine ⟨deep_tidy_projecting htidy hl, ?_, hreflexive, ⟨⟨d, l, u.scope⟩, ?_, rfl, rfl⟩, N', hlearns,
      hu.adds hb (.projection hl), hb⟩
    · intro p hp
      rcases List.mem_append.mp hp with hp | hp
      · exact (hold p hp).grows hgrows
      · rw [List.mem_singleton.mp hp]
        exact hcarries.grows hgrows
    · rw [List.find?_append, hnone, Option.none_or]
      exact List.find?_cons_of_pos (p := fun x : Projection => x.definition == d) hreflexive

/-- A leaf of a table is kept, and a leaf of a nested statement becomes a reference. -/
theorem acceptLeaf_lands (h : accept.Landing k) (hleaf : leaf.isLeaf = true)
    (hrun : acceptLeaf accept s leaf c = .ok ((t, a), c')) (hc : c.registries = k.registries)
    (hs : s.Deep (Tidy k)) (hN : s.Throughout (c.Knows N)) (hbasic : leaf.isBasic = true)
    (he : leaf.Throughout (c.Knows N)) : Lands k c N t a c' := by
  obtain ⟨m, hm, hcheck, ⟨hstatement, rfl, rfl, rfl⟩ |
    ⟨hstatement, before, src, after, q, r, name, d, c₁, v, hf, -, hl, hq, hp, hv, rfl, rfl⟩⟩ := acceptLeaf_eq_ok hrun
  case inl =>
      exact ⟨hs, .kept hleaf hm hstatement (checkDeclared_congr hc _ _ ▸ hcheck),
        Expr.beq_of_core (Expr.nanFree_of_isBasic hbasic) rfl, N, .refl _ N, hN, he⟩
  case inr =>
      have hmem : src ∈ s.sources := hf ▸ List.mem_append_right _ List.mem_cons_self
      have hview := hN.views src hmem
      obtain ⟨i, hinner⟩ := hview.statement hq
      obtain ⟨hdeep, hcarried, hreflexive, ⟨p, hfind, rfl, rfl⟩, N₁, hlearns, hrN, hdN⟩ := provide_lands h hp hc
        (hs.inner src hmem q hq) (View.throughout_select.mp hinner).2 (Expr.isBasic_unpinned hbasic) he.unpinned
        (hs.self.carried src hmem q hq)
      obtain ⟨hgrows, hbehind⟩ := View.withStatement_spec hq (provide_sound h.sound hp).grows hv
      obtain ⟨N', hlearns', hvN⟩ := Catalog.learns_withStatement (hlearns.view hview) hrN hv
      have hall := hlearns.trans hlearns'
      have hpmem := List.mem_of_find?_eq_some hfind
      refine ⟨deep_tidy_update hs hf hgrows hbehind hdeep hcarried, ?_, ?_, N', hall, ?_, ?_⟩
      · have hgrown := (hs.self.linked.grows_of_label (Scope.resolveLeaf_mem hm) hmem hl).trans hgrows
        exact .reference ⟨Scope.resolveLeaf_mem hm, hstatement, List.mem_append_right _ List.mem_cons_self, hl, hgrown,
          .refl v, hbehind⟩ hfind (hcarried p hpmem)
      · show Expr.beq (.projected v p.name? p.definition) _ = true
        rw [Expr.beq, Expr.beq_congr_core (b := .projected v p.name? p.definition) (d := p.definition) rfl]
        exact hreflexive
      · exact (hall.statement hN).replace hf hvN
      · exact Expr.throughout_projected.mpr ⟨hvN, hlearns'.expr hdN⟩

mutual

theorem acceptWith_lands (h : accept.Landing k) : ∀ {e : Expr} {s t : Select} {a : Expr} {c c' : Catalog} {N : Nodes},
    acceptWith accept s e c = .ok ((t, a), c') → c.registries = k.registries → s.Deep (Tidy k) →
      s.Throughout (c.Knows N) → e.isBasic = true → e.Throughout (c.Knows N) → Lands k c N t a c'
  | .literal v, s, t, a, c, c', N, hrun, _, hs, hN, hbasic, he => by
      rw [acceptWith] at hrun
      obtain ⟨hr, rfl⟩ := Prod.mk.inj (Build.pure_eq_ok.mp hrun)
      obtain ⟨rfl, rfl⟩ := Prod.mk.inj hr
      exact ⟨hs, .literal v, Expr.beq_of_core (Expr.nanFree_of_isBasic hbasic) rfl, N, .refl _ N, hN, he⟩
  | .apply op args, s, t, a, c, c', N, hrun, hc, hs, hN, hbasic, he => by
      rw [acceptWith] at hrun
      obtain ⟨⟨u, bs⟩, c₁, hu, h₁⟩ := Build.bind_eq_ok.mp hrun
      obtain ⟨hr, rfl⟩ := Prod.mk.inj (Build.pure_eq_ok.mp h₁)
      obtain ⟨rfl, rfl⟩ := Prod.mk.inj hr
      obtain ⟨htidy, hcarries, hreflexive, N', hlearns, ht, has⟩ :=
        acceptAllWith_lands h hu hc hs hN hbasic (Expr.throughout_apply.mp he)
      exact ⟨htidy, .apply op hcarries, Expr.beq_apply.mpr ⟨bs, rfl, hreflexive⟩, N', hlearns, ht,
        Expr.throughout_apply.mpr has⟩
  | .column col, s, t, a, c, c', N, hrun, hc, hs, hN, hbasic, he => by
      rw [acceptWith] at hrun
      exact acceptLeaf_lands h rfl hrun hc hs hN hbasic he
  | .star v, s, t, a, c, c', N, hrun, hc, hs, hN, hbasic, he => by
      rw [acceptWith] at hrun
      exact acceptLeaf_lands h rfl hrun hc hs hN hbasic he
  | .projected v n d, s, t, a, c, c', N, hrun, hc, hs, hN, hbasic, he => by
      rw [acceptWith] at hrun
      split at hrun
      case isTrue => exact acceptWith_lands h hrun hc hs hN hbasic (Expr.throughout_projected.mp he).2
      case isFalse => exact acceptLeaf_lands h rfl hrun hc hs hN hbasic he
  | .pinned b v, s, t, a, c, c', N, hrun, hc, hs, hN, hbasic, he => by
      rw [acceptWith] at hrun
      exact acceptLeaf_lands h rfl hrun hc hs hN hbasic he
  | .view (.select i q), s, t, a, c, c', N, hrun, _, hs, hN, hbasic, he => by
      rw [acceptWith] at hrun
      obtain ⟨b, c₁, hb, h₁⟩ := Build.bind_eq_ok.mp hrun
      obtain ⟨hview, rfl⟩ := Build.lift_eq_ok.mp hb
      obtain ⟨hr, rfl⟩ := Prod.mk.inj (Build.pure_eq_ok.mp h₁)
      obtain ⟨rfl, rfl⟩ := Prod.mk.inj hr
      obtain rfl := Except.ok.inj hview
      exact ⟨hs, .statement i q, Expr.beq_of_core (Expr.nanFree_of_isBasic hbasic) rfl, N, .refl _ N, hN, he⟩
  | .view (.table _), _, _, _, _, _, _, _, _, _, _, hbasic, _ => nomatch hbasic
  | .view (.concrete _), _, _, _, _, _, _, _, _, _, _, hbasic, _ => nomatch hbasic
  | .view (.join ..), _, _, _, _, _, _, _, _, _, _, hbasic, _ => nomatch hbasic
  | .within .., _, _, _, _, _, _, _, _, _, _, hbasic, _ => nomatch hbasic

theorem acceptAllWith_lands (h : accept.Landing k) : ∀ {es : List Expr} {s t : Select} {as : List Expr}
    {c c' : Catalog} {N : Nodes}, acceptAllWith accept s es c = .ok ((t, as), c') → c.registries = k.registries →
      s.Deep (Tidy k) → s.Throughout (c.Knows N) → Expr.allBasic es = true → (∀ e ∈ es, e.Throughout (c.Knows N)) →
        t.Deep (Tidy k) ∧ (∀ a ∈ as, t.Carries k a) ∧ Expr.beqAll as as = true ∧
        ∃ N', c.Learns N c' N' ∧ t.Throughout (c'.Knows N') ∧ ∀ a ∈ as, a.Throughout (c'.Knows N')
  | [], s, t, as, c, c', N, hrun, _, hs, hN, _, _ => by
      rw [acceptAllWith] at hrun
      obtain ⟨hr, rfl⟩ := Prod.mk.inj (Build.pure_eq_ok.mp hrun)
      obtain ⟨rfl, rfl⟩ := Prod.mk.inj hr
      exact ⟨hs, fun _ ha => (nomatch ha), Expr.beqAll_nil.mpr rfl, N, .refl _ N, hN, fun _ ha => (nomatch ha)⟩
  | e :: es, s, t, as, c, c', N, hrun, hc, hs, hN, hbasic, hes => by
      rw [acceptAllWith] at hrun
      rw [List.forall_mem_cons] at hes
      obtain ⟨hbasic₁, hbasics⟩ := Bool.and_eq_true_iff.mp hbasic
      obtain ⟨⟨u, b⟩, c₁, hu, h₁⟩ := Build.bind_eq_ok.mp hrun
      obtain ⟨⟨w, bs⟩, c₂, hw, h₂⟩ := Build.bind_eq_ok.mp h₁
      obtain ⟨hr, rfl⟩ := Prod.mk.inj (Build.pure_eq_ok.mp h₂)
      obtain ⟨rfl, rfl⟩ := Prod.mk.inj hr
      obtain ⟨htidy, hcarries, hreflexive, N₁, hlearns, huN, hbN⟩ :=
        acceptWith_lands h hu hc hs hN hbasic₁ hes.1
      have hc₁ : c₁.registries = k.registries := (acceptWith_quiet h.quiet e s hu).trans hc
      obtain ⟨htidy', hcarries', hreflexive', N', hlearns', hwN, hbsN⟩ :=
        acceptAllWith_lands h hw hc₁ htidy huN hbasics fun x hx => hlearns.expr (hes.2 x hx)
      have hgrows : u.Grows t := grows_of_sources (acceptAllWith_sound h.sound hw).frame.1
        (acceptAllWith_sound h.sound hw).frame.2
      exact ⟨htidy', List.forall_mem_cons.mpr ⟨hcarries.grows hgrows, hcarries'⟩,
        Expr.beqAll_cons.mpr ⟨b, bs, rfl, hreflexive, hreflexive'⟩, N', hlearns.trans hlearns', hwN,
        List.forall_mem_cons.mpr ⟨hlearns'.expr hbN, hbsN⟩⟩

end

theorem acceptorAt_landing (k : Catalog) : ∀ n : Nat, (acceptorAt n).Landing k
  | 0 => ⟨fun h => absurd h Build.throw_ne_ok, fun _ _ => .throw _, fun h => absurd h Build.throw_ne_ok⟩
  | n + 1 => by
      refine ⟨acceptAt_sound n, acceptAt_quiet n, fun hrun => ?_⟩
      rw [show acceptorAt (n + 1) = acceptAt n from rfl, acceptAt_eq] at hrun
      exact acceptWith_lands (acceptorAt_landing k n) hrun

/-- A statement carries what it has accepted. -/
theorem accept_lands (hrun : s.accept e c = .ok ((t, a), c')) (hs : s.Deep (Tidy c)) (hN : s.Throughout (c.Knows N))
    (hbasic : e.isBasic = true) (he : e.Throughout (c.Knows N)) : Lands c c N t a c' := by
  rw [accept, acceptAt_eq] at hrun
  exact acceptWith_lands (acceptorAt_landing c s.level) hrun rfl hs hN hbasic he

end Select

end SqlCompose
