import SqlCompose.Proofs.Aliases
import SqlCompose.Proofs.Growth

/-!
What accepting an expression does. `Accepts s e t a` says that a statement accepts an expression, becomes
another statement and puts an accepted expression in the place of the given one; it has one rule for every
way this can happen, at any level of nesting. Running the acceptance proves the relation, and whatever is
kept by every rule is kept by every acceptance.
-/

namespace SqlCompose

/-! Resolving finds a mapping of the scope. -/

namespace Scope

variable {s : Scope} {v : View} {m : Mapping} {leaf : Expr}

theorem resolve_mem (h : s.resolve v = .ok m) : m ∈ s := by
  rw [resolve] at h
  split at h
  case h_1 x hx => exact Except.ok.inj h ▸ List.mem_of_find?_eq_some hx
  case h_2 => cases h

theorem resolveExact_mem (h : s.resolveExact v = .ok m) : m ∈ s := by
  rw [resolveExact] at h
  split at h
  case h_1 x hx => exact Except.ok.inj h ▸ List.mem_of_find?_eq_some hx
  case h_2 => cases h

theorem resolveLeaf_mem (h : s.resolveLeaf leaf = .ok m) : m ∈ s := by
  cases leaf with
  | pinned e v =>
      rw [resolveLeaf, resolvePinned] at h
      split at h
      case h_1 x hx => exact Except.ok.inj h ▸ List.mem_of_find?_eq_some hx
      case h_2 => exact resolve_mem h
  | projected v n d => exact resolveExact_mem h
  | column c => exact resolve_mem h
  | star v => exact resolve_mem h
  | literal v => cases h
  | apply op args => cases h
  | view v => cases h
  | within sc e => cases h

theorem resolve_head (h : m.view.compatible v = true) : Scope.resolve (m :: s) v = .ok m := by
  have hfind : (m :: s).find? (·.view.compatible v) = some m := List.find?_cons_of_pos h
  rw [resolve, hfind]

theorem resolveExact_head (h : isMappingOf m v = true) : Scope.resolveExact (m :: s) v = .ok m := by
  have hfind : (m :: s).find? (isMappingOf · v) = some m := List.find?_cons_of_pos h
  rw [resolveExact, hfind]

theorem isMappingOf_of_beq (h : (m.view == v) = true) : isMappingOf m v = true := by
  rw [isMappingOf]
  split
  · rw [h, Bool.true_or]
  · exact h

theorem exists_resolveExact (hm : m ∈ s) (h : isMappingOf m v = true) :
    ∃ m', s.resolveExact v = .ok m' := by
  cases hfind : s.find? (isMappingOf · v) with
  | some x => exact ⟨x, by rw [resolveExact, hfind]⟩
  | none => exact absurd h (by simpa using List.find?_eq_none.mp hfind m hm)

/-- A view that has grown in the meantime is found in the scope. -/
theorem exists_resolveExact_of_grows (hm : m ∈ s) (hnan : m.view.nanFree = true)
    (hgrows : m.view.Grows v) : ∃ m', s.resolveExact v = .ok m' :=
  exists_resolveExact hm (isMappingOf_of_beq (View.beq_of_grows hnan hgrows))

theorem exists_resolve (hm : m ∈ s) (h : m.view.compatible v = true) :
    ∃ m', s.resolve v = .ok m' := by
  cases hfind : s.find? (·.view.compatible v) with
  | some x => exact ⟨x, by rw [resolve, hfind]⟩
  | none => exact absurd h (by simpa using List.find?_eq_none.mp hfind m hm)

end Scope

theorem View.compatible_of_beq {v w : View} (h : (v == w) = true) : v.compatible w = true := by
  rw [compatible, h, Bool.true_or, Bool.true_or]

namespace Join

/-- Settling pins every leaf to one of the two views. -/
theorem settleLeaf_eq (source target : View) (leaf : Expr) :
    ∃ e v, settleLeaf source target leaf = .pinned e v ∧ (v = source ∨ v = target) := by
  cases leaf with
  | pinned e v => exact ⟨e, source, rfl, Or.inl rfl⟩
  | literal v => exact ⟨_, target, rfl, Or.inr rfl⟩
  | apply op args => exact ⟨_, target, rfl, Or.inr rfl⟩
  | column col => exact ⟨_, target, rfl, Or.inr rfl⟩
  | star v => exact ⟨_, target, rfl, Or.inr rfl⟩
  | projected v n d => exact ⟨_, target, rfl, Or.inr rfl⟩
  | view v => exact ⟨_, target, rfl, Or.inr rfl⟩
  | within sc e => exact ⟨_, target, rfl, Or.inr rfl⟩

end Join

namespace Select

mutual

/-- A statement accepts an expression and becomes another statement. -/
inductive Accepts : Select → Expr → Select → Expr → Prop
  | literal (s : Select) (v : Literal) : Accepts s (.literal v) s (.literal v)
  | apply {s t : Select} {args args' : List Expr} (op : Operator) (h : AcceptsAll s args t args') :
      Accepts s (.apply op args) t (.apply op args')
  /-- A reference to a projection of the statement itself counts as its definition. -/
  | own {s t : Select} {v : View} {d a : Expr} (n : Option String) (hv : s.isSelf v = true)
      (h : Accepts s d t a) : Accepts s (.projected v n d) t a
  | view {s : Select} {v : View} {a : Expr} (h : s.acceptView v = .ok a) : Accepts s (.view v) s a
  /-- A leaf of a table stays as it is. -/
  | kept {s : Select} {leaf : Expr} {m : Mapping} (hleaf : leaf.isLeaf = true)
      (hm : Scope.resolveLeaf s.scope leaf = .ok m) (hs : m.view.isStatement = false) :
      Accepts s leaf s leaf
  /-- A leaf of a nested statement is projected there, and a reference takes its place. -/
  | routed {s q r : Select} {leaf d : Expr} {m : Mapping} {before after : List Source} {src : Source}
      {name : Option String} {v : View} {c c' : Catalog} (hleaf : leaf.isLeaf = true)
      (hm : Scope.resolveLeaf s.scope leaf = .ok m) (hs : m.view.isStatement = true)
      (hf : s.sources = before ++ src :: after) (hb : ∀ x ∈ before, x.label ≠ m.label)
      (hl : src.label = m.label) (hq : src.view.statement? = some q)
      (hp : Provides q leaf.unpinned r name d) (hv : src.view.withStatement r c = .ok (v, c')) :
      Accepts s leaf { s with sources := before ++ { src with view := v } :: after }
        (.projected v name d)

/-- A statement accepts arguments one after the other. -/
inductive AcceptsAll : Select → List Expr → Select → List Expr → Prop
  | nil (s : Select) : AcceptsAll s [] s []
  | cons {s t u : Select} {e a : Expr} {es as : List Expr} (h : Accepts s e t a)
      (hs : AcceptsAll t es u as) : AcceptsAll s (e :: es) u (a :: as)

/-- A nested statement projects an expression and gives the name and the definition of the
projection. -/
inductive Provides : Select → Expr → Select → Option String → Expr → Prop
  | reused {q r : Select} {e a : Expr} {p : Projection} (h : Accepts q e r a)
      (hp : r.projections.find? (·.definition == a) = some p) :
      Provides q e r p.name? p.definition
  | added {q r : Select} {e a : Expr} {l : Option String} {pool : AliasPool} (h : Accepts q e r a)
      (hp : r.projections.find? (·.definition == a) = none)
      (hl : r.aliases.projectionAlias e.name? = (l, pool)) :
      Provides q e { r with projections := r.projections ++ [⟨a, l, r.scope⟩], aliases := pool }
        (Projection.name? ⟨a, l, r.scope⟩) a

end

/-! Opening the parts of a successful acceptance. -/

variable {accept : Acceptor} {s t : Select} {e a leaf : Expr} {c c' : Catalog}

theorem updateSource_eq_ok {label : String} {f : Source → Build (Source × Expr)} :
    ∀ {l l' : List Source} {c c' : Catalog}, updateSource label f l c = .ok ((l', a), c') →
      ∃ before src src' after, l = before ++ src :: after ∧ (∀ x ∈ before, x.label ≠ label)
        ∧ src.label = label ∧ f src c = .ok ((src', a), c') ∧ l' = before ++ src' :: after
  | [], l', c, c', h => absurd h Build.throw_ne_ok
  | src :: rest, l', c, c', h => by
      rw [updateSource] at h
      split at h
      case isTrue hl =>
          obtain ⟨⟨src', e⟩, c₁, hsrc, h⟩ := Build.bind_eq_ok.mp h
          simp only [Build.pure_eq_ok, Prod.mk.injEq] at h
          obtain ⟨⟨rfl, rfl⟩, rfl⟩ := h
          exact ⟨[], src, src', rest, rfl, by simp, eq_of_beq hl, hsrc, rfl⟩
      case isFalse hl =>
          obtain ⟨⟨rest', e⟩, c₁, hrest, h⟩ := Build.bind_eq_ok.mp h
          simp only [Build.pure_eq_ok, Prod.mk.injEq] at h
          obtain ⟨⟨rfl, rfl⟩, rfl⟩ := h
          obtain ⟨before, found, found', after, rfl, hb, hfound, hf, rfl⟩ := updateSource_eq_ok hrest
          refine ⟨src :: before, found, found', after, rfl, ?_, hfound, hf, rfl⟩
          intro x hx
          rcases List.mem_cons.mp hx with rfl | hx
          · exact fun heq => hl (beq_iff_eq.mpr heq)
          · exact hb x hx

theorem throughSource_eq_ok {src src' : Source}
    (h : throughSource accept leaf src c = .ok ((src', a), c')) :
    ∃ q r name d c₁ v, src.view.statement? = some q
      ∧ provide accept q leaf c = .ok ((r, name, d), c₁)
      ∧ src.view.withStatement r c₁ = .ok (v, c')
      ∧ src' = { src with view := v } ∧ a = .projected v name d := by
  rw [throughSource] at h
  cases hq : src.view.statement? with
  | none =>
      rw [hq] at h
      exact absurd h Build.throw_ne_ok
  | some q =>
      rw [hq] at h
      obtain ⟨⟨r, name, d⟩, c₁, hp, h⟩ := Build.bind_eq_ok.mp h
      obtain ⟨v, c₂, hv, h⟩ := Build.bind_eq_ok.mp h
      simp only [Build.pure_eq_ok, Prod.mk.injEq] at h
      obtain ⟨⟨rfl, rfl⟩, rfl⟩ := h
      exact ⟨q, r, name, d, c₁, v, rfl, hp, hv, rfl, rfl⟩

/-- An accepted leaf stays as it is in a table; in a nested statement it becomes a reference to what is projected
there for it. -/
theorem acceptLeaf_eq_ok (h : acceptLeaf accept s leaf c = .ok ((t, a), c')) :
    ∃ m, Scope.resolveLeaf s.scope leaf = .ok m ∧ checkDeclared c m.view leaf.unpinned = .ok () ∧
      ((m.view.isStatement = false ∧ t = s ∧ a = leaf ∧ c' = c) ∨
        (m.view.isStatement = true ∧ ∃ before src after q r name d c₁ v, s.sources = before ++ src :: after
          ∧ (∀ x ∈ before, x.label ≠ m.label) ∧ src.label = m.label ∧ src.view.statement? = some q
          ∧ provide accept q leaf.unpinned c = .ok ((r, name, d), c₁) ∧ src.view.withStatement r c₁ = .ok (v, c')
          ∧ t = { s with sources := before ++ { src with view := v } :: after } ∧ a = .projected v name d)) := by
  rw [acceptLeaf] at h
  obtain ⟨m, c₁, hresolve, h₁⟩ := Build.bind_eq_ok.mp h
  obtain ⟨k, c₂, hget, h₂⟩ := Build.bind_eq_ok.mp h₁
  obtain ⟨_, c₃, hcheck, h₃⟩ := Build.bind_eq_ok.mp h₂
  obtain ⟨hm, rfl⟩ := Build.lift_eq_ok.mp hresolve
  obtain ⟨rfl, rfl⟩ := Prod.mk.inj (Build.get_eq_ok.mp hget)
  obtain ⟨hdeclared, rfl⟩ := Build.lift_eq_ok.mp hcheck
  refine ⟨m, hm, hdeclared, ?_⟩
  split at h₃
  case isTrue hs =>
      obtain ⟨⟨sources, b⟩, c₄, hu, h₄⟩ := Build.bind_eq_ok.mp h₃
      simp only [Build.pure_eq_ok, Prod.mk.injEq] at h₄
      obtain ⟨⟨rfl, rfl⟩, rfl⟩ := h₄
      obtain ⟨before, src, src', after, hf, hb, hl, hsrc, rfl⟩ := updateSource_eq_ok hu
      obtain ⟨q, r, name, d, c₅, v, hq, hp, hv, rfl, rfl⟩ := throughSource_eq_ok hsrc
      exact Or.inr ⟨hs, before, src, after, q, r, name, d, c₅, v, hf, hb, hl, hq, hp, hv, rfl, rfl⟩
  case isFalse hs =>
      simp only [Build.pure_eq_ok, Prod.mk.injEq] at h₃
      obtain ⟨⟨rfl, rfl⟩, rfl⟩ := h₃
      exact Or.inl ⟨by simpa using hs, rfl, rfl, rfl⟩

theorem provide_eq_ok {q r : Select} {name : Option String} {d : Expr}
    (h : provide accept q e c = .ok ((r, name, d), c')) :
    ∃ u b, accept q e c = .ok ((u, b), c') ∧
      ((∃ p, u.projections.find? (·.definition == b) = some p ∧ r = u ∧ name = p.name?
          ∧ d = p.definition) ∨
        (u.projections.find? (·.definition == b) = none ∧ ∃ l pool,
          u.aliases.projectionAlias e.name? = (l, pool)
            ∧ r = { u with projections := u.projections ++ [⟨b, l, u.scope⟩], aliases := pool }
            ∧ name = Projection.name? ⟨b, l, u.scope⟩ ∧ d = b)) := by
  rw [provide] at h
  obtain ⟨⟨u, b⟩, c₁, hu, h₁⟩ := Build.bind_eq_ok.mp h
  simp only at h₁
  cases hp : u.projections.find? (·.definition == b) with
  | some p =>
      rw [hp] at h₁
      simp only [Build.pure_eq_ok, Prod.mk.injEq] at h₁
      obtain ⟨⟨rfl, rfl, rfl⟩, rfl⟩ := h₁
      exact ⟨r, b, hu, Or.inl ⟨p, hp, rfl, rfl, rfl⟩⟩
  | none =>
      rw [hp] at h₁
      simp only [Build.pure_eq_ok, Prod.mk.injEq] at h₁
      obtain ⟨⟨rfl, rfl, rfl⟩, rfl⟩ := h₁
      exact ⟨u, _, hu, Or.inr ⟨hp, _, _, rfl, rfl, rfl, rfl⟩⟩

/-! Putting a successful acceptance together. -/

theorem updateSource_of_split {label : String} {f : Source → Build (Source × Expr)} {src src' : Source}
    {after : List Source} (hl : src.label = label) (hf : f src c = .ok ((src', a), c')) : ∀ {before : List Source},
      (∀ x ∈ before, x.label ≠ label) →
        updateSource label f (before ++ src :: after) c = .ok ((before ++ src' :: after, a), c')
  | [], _ => by
      rw [List.nil_append, updateSource, if_pos (beq_iff_eq.mpr hl)]
      exact Build.bind_eq_ok.mpr ⟨_, _, hf, rfl⟩
  | x :: before, hb => by
      rw [List.forall_mem_cons] at hb
      rw [List.cons_append, updateSource, if_neg (fun heq => hb.1 (eq_of_beq heq))]
      exact Build.bind_eq_ok.mpr ⟨_, _, updateSource_of_split hl hf hb.2, rfl⟩

/-- A projection of what the nested statement has accepted is used again. -/
theorem provide_reused {q u : Select} {b : Expr} {p : Projection} (h : accept q e c = .ok ((u, b), c'))
    (hp : u.projections.find? (·.definition == b) = some p) :
    provide accept q e c = .ok ((u, p.name?, p.definition), c') := by
  refine Build.bind_eq_ok.mpr ⟨(u, b), c', h, ?_⟩
  dsimp only
  rw [hp]
  rfl

/-- The statement behind a source that is a statement is replaced by a new node. -/
theorem throughSource_select {src : Source} {i : Nat} {q u : Select} {name : Option String} {d : Expr}
    (hv : src.view = .select i q) (h : provide accept q leaf c = .ok ((u, name, d), c')) :
    throughSource accept leaf src c = .ok (({ src with view := .select c'.nextMark u },
      .projected (.select c'.nextMark u) name d), c'.freshMark.2) := by
  rw [throughSource, hv]
  exact Build.bind_eq_ok.mpr ⟨_, _, h, Build.bind_eq_ok.mpr ⟨_, _, Build.selectView_eq_ok.mpr rfl, rfl⟩⟩

/-- A leaf that does not belong to a statement is accepted as it is. -/
theorem acceptLeaf_kept {m : Mapping} (hm : Scope.resolveLeaf s.scope leaf = .ok m) (hs : m.view.isStatement = false)
    (hcheck : checkDeclared c m.view leaf.unpinned = .ok ()) (accept : Acceptor) :
    acceptLeaf accept s leaf c = .ok ((s, leaf), c) := by
  refine Build.bind_eq_ok.mpr ⟨m, c, Build.lift_eq_ok.mpr ⟨hm, rfl⟩, ?_⟩
  refine Build.bind_eq_ok.mpr ⟨c, c, Build.get_eq_ok.mpr rfl, ?_⟩
  refine Build.bind_eq_ok.mpr ⟨(), c, Build.lift_eq_ok.mpr ⟨hcheck, rfl⟩, ?_⟩
  rw [if_neg (by simp [hs])]
  rfl

/-- A leaf that belongs to a statement is accepted through the source with its alias. -/
theorem acceptLeaf_routed {m : Mapping} {src src' : Source} {before after : List Source}
    (hm : Scope.resolveLeaf s.scope leaf = .ok m) (hs : m.view.isStatement = true)
    (hcheck : checkDeclared c m.view leaf.unpinned = .ok ()) (hf : s.sources = before ++ src :: after)
    (hb : ∀ x ∈ before, x.label ≠ m.label) (hl : src.label = m.label)
    (h : throughSource accept leaf.unpinned src c = .ok ((src', a), c')) :
    acceptLeaf accept s leaf c = .ok (({ s with sources := before ++ src' :: after }, a), c') := by
  refine Build.bind_eq_ok.mpr ⟨m, c, Build.lift_eq_ok.mpr ⟨hm, rfl⟩, ?_⟩
  refine Build.bind_eq_ok.mpr ⟨c, c, Build.get_eq_ok.mpr rfl, ?_⟩
  refine Build.bind_eq_ok.mpr ⟨(), c, Build.lift_eq_ok.mpr ⟨hcheck, rfl⟩, ?_⟩
  rw [if_pos hs, hf]
  exact Build.bind_eq_ok.mpr ⟨_, _, updateSource_of_split hl h hb, rfl⟩

/-! The relation is sound for the functions. -/

/-- Nested statements accept as the relation says. -/
def Acceptor.Sound (accept : Acceptor) : Prop :=
  ∀ {q : Select} {e : Expr} {c : Catalog} {r : Select} {a : Expr} {c' : Catalog},
    accept q e c = .ok ((r, a), c') → q.Accepts e r a

theorem provide_sound (hsound : accept.Sound) {q r : Select} {name : Option String} {d : Expr}
    (h : provide accept q e c = .ok ((r, name, d), c')) : q.Provides e r name d := by
  obtain ⟨u, b, hu, hcase⟩ := provide_eq_ok h
  rcases hcase with ⟨p, hp, rfl, rfl, rfl⟩ | ⟨hp, l, pool, hl, rfl, rfl, rfl⟩
  · exact .reused (hsound hu) hp
  · exact .added (hsound hu) hp hl

theorem acceptLeaf_sound (hsound : accept.Sound) (hleaf : leaf.isLeaf = true)
    (h : acceptLeaf accept s leaf c = .ok ((t, a), c')) : s.Accepts leaf t a := by
  obtain ⟨m, hm, -, ⟨hs, rfl, rfl, -⟩ |
    ⟨hs, before, src, after, q, r, name, d, c₁, v, hf, hb, hl, hq, hp, hv, rfl, rfl⟩⟩ := acceptLeaf_eq_ok h
  · exact .kept hleaf hm hs
  · exact .routed hleaf hm hs hf hb hl hq (provide_sound hsound hp) hv

mutual

theorem acceptWith_sound (hsound : accept.Sound) : ∀ {e : Expr} {s t : Select} {a : Expr}
    {c c' : Catalog}, acceptWith accept s e c = .ok ((t, a), c') → s.Accepts e t a
  | .literal v, s, t, a, c, c', h => by
      rw [acceptWith] at h
      simp only [Build.pure_eq_ok, Prod.mk.injEq] at h
      obtain ⟨⟨rfl, rfl⟩, -⟩ := h
      exact .literal t v
  | .apply op args, s, t, a, c, c', h => by
      rw [acceptWith] at h
      obtain ⟨⟨u, bs⟩, c₁, hu, h₁⟩ := Build.bind_eq_ok.mp h
      simp only [Build.pure_eq_ok, Prod.mk.injEq] at h₁
      obtain ⟨⟨rfl, rfl⟩, -⟩ := h₁
      exact .apply op (acceptAllWith_sound hsound hu)
  | .column col, s, t, a, c, c', h => by
      rw [acceptWith] at h
      exact acceptLeaf_sound hsound rfl h
  | .star v, s, t, a, c, c', h => by
      rw [acceptWith] at h
      exact acceptLeaf_sound hsound rfl h
  | .projected v n d, s, t, a, c, c', h => by
      rw [acceptWith] at h
      split at h
      case isTrue hv => exact .own n hv (acceptWith_sound hsound h)
      case isFalse hv => exact acceptLeaf_sound hsound rfl h
  | .pinned b v, s, t, a, c, c', h => by
      rw [acceptWith] at h
      exact acceptLeaf_sound hsound rfl h
  | .view v, s, t, a, c, c', h => by
      rw [acceptWith] at h
      obtain ⟨b, c₁, hb, h₁⟩ := Build.bind_eq_ok.mp h
      simp only [Build.pure_eq_ok, Prod.mk.injEq] at h₁
      obtain ⟨⟨rfl, rfl⟩, -⟩ := h₁
      exact .view (Build.lift_eq_ok.mp hb).1
  | .within sc b, s, t, a, c, c', h => absurd h (by rw [acceptWith]; exact Build.throw_ne_ok)

theorem acceptAllWith_sound (hsound : accept.Sound) : ∀ {es : List Expr} {s t : Select}
    {as : List Expr} {c c' : Catalog},
    acceptAllWith accept s es c = .ok ((t, as), c') → s.AcceptsAll es t as
  | [], s, t, as, c, c', h => by
      rw [acceptAllWith] at h
      simp only [Build.pure_eq_ok, Prod.mk.injEq] at h
      obtain ⟨⟨rfl, rfl⟩, -⟩ := h
      exact .nil t
  | e :: es, s, t, as, c, c', h => by
      rw [acceptAllWith] at h
      obtain ⟨⟨u, b⟩, c₁, hu, h₁⟩ := Build.bind_eq_ok.mp h
      obtain ⟨⟨w, bs⟩, c₂, hw, h₂⟩ := Build.bind_eq_ok.mp h₁
      simp only [Build.pure_eq_ok, Prod.mk.injEq] at h₂
      obtain ⟨⟨rfl, rfl⟩, -⟩ := h₂
      exact .cons (acceptWith_sound hsound hu) (acceptAllWith_sound hsound hw)

end

theorem acceptAt_sound (n : Nat) : (acceptAt n).Sound := by
  induction n with
  | zero =>
      intro q e c r a c' h
      exact acceptWith_sound (fun h => absurd h Build.throw_ne_ok) h
  | succ n ih =>
      intro q e c r a c' h
      exact acceptWith_sound ih h

theorem accept_sound (h : s.accept e c = .ok ((t, a), c')) : s.Accepts e t a :=
  acceptAt_sound s.level h

/-- A view is accepted as it is or as a view in scope, or as the predicate of a join between two views in
scope. -/
theorem acceptView_cases {v : View} (h : s.acceptView v = .ok a) :
    (∃ w, a = .view w ∧ (w = v ∨ ∃ m ∈ s.scope, m.view = w)) ∨
      ∃ (i : Nat) (j : Join) (x y : Mapping), v = .join i j ∧ x ∈ s.scope ∧ y ∈ s.scope
        ∧ a = j.between x.view y.view := by
  have hplain : ∀ {w : View}, (do return Expr.view (← Scope.resolve s.scope w).view) = Except.ok a →
      ∃ w, a = .view w ∧ (w = v ∨ ∃ m ∈ s.scope, m.view = w) := by
    intro w hw
    obtain ⟨m, hm, h₁⟩ := bind_eq_ok.mp hw
    exact ⟨m.view, (Except.ok.inj h₁).symm, Or.inr ⟨m, Scope.resolve_mem hm, rfl⟩⟩
  cases v with
  | table t => exact Or.inl (hplain h)
  | concrete t => exact Or.inl (hplain h)
  | select i r => exact Or.inl ⟨.select i r, (Except.ok.inj h).symm, Or.inl rfl⟩
  | join i j =>
      obtain ⟨x, hx, h₁⟩ := bind_eq_ok.mp h
      obtain ⟨y, hy, h₂⟩ := bind_eq_ok.mp h₁
      split at h₂
      · cases h₂
      · exact Or.inr ⟨i, j, x, y, rfl, Scope.resolve_mem hx, Scope.resolve_mem hy,
          (Except.ok.inj h₂).symm⟩

/-! An acceptance lets the sources of a statement grow, and changes nothing else of it. -/

theorem eta_sources {s : Select} {f : List Source} (h : s.sources = f) :
    s = { s with sources := f } := by
  cases s with
  | mk => rw [← h]

theorem grows_of_sources (ht : t = { s with sources := t.sources })
    (hf : Source.GrowAll s.sources t.sources) : s.Grows t := by
  rw [grows_iff, ht]
  exact ⟨rfl, hf, List.prefix_rfl, rfl, rfl, rfl, List.prefix_rfl, rfl⟩

theorem grows_of_projection {p : Projection} {name : Option String} {pool : AliasPool}
    (hl : s.aliases.projectionAlias name = (p.label, pool)) :
    s.Grows { s with projections := s.projections ++ [p], aliases := pool } := by
  rw [grows_iff]
  exact ⟨rfl, .refl s.sources, List.prefix_append _ _, rfl, rfl, rfl,
    ⟨_, (AliasPool.projectionAlias_taken hl).symm⟩, rfl⟩

mutual

theorem Accepts.frame : ∀ {s t : Select} {e a : Expr}, s.Accepts e t a →
    t = { s with sources := t.sources } ∧ Source.GrowAll s.sources t.sources
  | _, _, _, _, .literal s _ => ⟨eta_sources rfl, .refl s.sources⟩
  | _, _, _, _, .apply _ h => h.frame
  | _, _, _, _, .own _ _ h => h.frame
  | s, _, _, _, .view _ => ⟨eta_sources rfl, .refl s.sources⟩
  | s, _, _, _, .kept _ _ _ => ⟨eta_sources rfl, .refl s.sources⟩
  | _, _, _, _, @Accepts.routed _ _ _ _ _ _ before after src _ v _ _ _ _ _ hf _ _ hq hp hv => by
      have hgrows : src.Grows { src with view := v } :=
        ⟨rfl, rfl, rfl, (View.withStatement_spec hq hp.grows hv).1⟩
      refine ⟨rfl, ?_⟩
      rw [hf]
      exact hgrows.growAll after before

theorem AcceptsAll.frame : ∀ {s t : Select} {es as : List Expr}, s.AcceptsAll es t as →
    t = { s with sources := t.sources } ∧ Source.GrowAll s.sources t.sources
  | _, _, _, _, .nil s => ⟨eta_sources rfl, .refl s.sources⟩
  | _, _, _, _, .cons h hs => by
      obtain ⟨ht, hst⟩ := h.frame
      obtain ⟨hu, htu⟩ := hs.frame
      refine ⟨?_, hst.trans htu⟩
      rw [hu, ht]

theorem Provides.grows : ∀ {q r : Select} {e d : Expr} {name : Option String},
    q.Provides e r name d → q.Grows r
  | _, _, _, _, _, .reused h _ => grows_of_sources h.frame.1 h.frame.2
  | _, _, _, _, _, .added h _ hl => (grows_of_sources h.frame.1 h.frame.2).trans (grows_of_projection hl)

end

theorem Accepts.grows (h : s.Accepts e t a) : s.Grows t := grows_of_sources h.frame.1 h.frame.2

theorem Accepts.scope (h : s.Accepts e t a) : t.scope = s.scope := by rw [h.frame.1]

theorem Accepts.aliases (h : s.Accepts e t a) : t.aliases = s.aliases := by rw [h.frame.1]

theorem Accepts.projections (h : s.Accepts e t a) : t.projections = s.projections := by rw [h.frame.1]

/-- The name and the definition that a nested statement gives are those of a projection it has now. -/
theorem Provides.clause {q r : Select} {d : Expr} {name : Option String}
    (h : q.Provides e r name d) : ∃ p ∈ r.projections, p.name? = name ∧ p.definition = d := by
  cases h with
  | reused h hp => exact ⟨_, List.mem_of_find?_eq_some hp, rfl, rfl⟩
  | added h hp hl => exact ⟨_, List.mem_append_right _ (List.mem_singleton.mpr rfl), rfl, rfl⟩

/-! The number of levels allowed for does not matter when it suffices. -/

theorem updateSource_congr {label : String} {f g : Source → Build (Source × Expr)} :
    ∀ {l : List Source}, (∀ src ∈ l, f src = g src) → updateSource label f l = updateSource label g l
  | [], _ => rfl
  | src :: rest, h => by
      rw [updateSource, updateSource, h src List.mem_cons_self,
        updateSource_congr fun x hx => h x (List.mem_cons_of_mem src hx)]

theorem acceptLeaf_congr {f g : Acceptor} (h : ∀ q e, q.level < s.level → f q e = g q e)
    (leaf : Expr) : acceptLeaf f s leaf = acceptLeaf g s leaf := by
  have hprovide : ∀ q e, q.level < s.level → provide f q e = provide g q e := by
    intro q e hq
    rw [provide, provide, h q e hq]
  have hthrough : ∀ src ∈ s.sources,
      throughSource f leaf.unpinned src = throughSource g leaf.unpinned src := by
    intro src hsrc
    rw [throughSource, throughSource]
    cases hq : src.view.statement? with
    | none => rfl
    | some q =>
        have hlevel : q.level < s.level :=
          Nat.lt_of_lt_of_le (View.level_of_statement? hq) (Source.level_le_levelAll hsrc)
        simp only [hprovide q _ hlevel]
  rw [acceptLeaf, acceptLeaf]
  simp only [updateSource_congr hthrough]

theorem Accepts.level (h : s.Accepts e t a) : t.level = s.level := h.frame.2.level

mutual

theorem acceptWith_congr {f g : Acceptor} (hsound : f.Sound) {n : Nat}
    (h : ∀ q e, q.level < n → f q e = g q e) : ∀ (e : Expr) {s : Select}, s.level ≤ n →
      acceptWith f s e = acceptWith g s e
  | .literal v, s, _ => by rw [acceptWith, acceptWith]
  | .apply op args, s, hs => by
      rw [acceptWith, acceptWith, acceptAllWith_congr hsound h args hs]
  | .column col, s, hs => by
      rw [acceptWith, acceptWith]
      exact acceptLeaf_congr (fun q e hq => h q e (Nat.lt_of_lt_of_le hq hs)) _
  | .star v, s, hs => by
      rw [acceptWith, acceptWith]
      exact acceptLeaf_congr (fun q e hq => h q e (Nat.lt_of_lt_of_le hq hs)) _
  | .projected v name d, s, hs => by
      rw [acceptWith, acceptWith, acceptWith_congr hsound h d hs,
        acceptLeaf_congr fun q e hq => h q e (Nat.lt_of_lt_of_le hq hs)]
  | .pinned b v, s, hs => by
      rw [acceptWith, acceptWith]
      exact acceptLeaf_congr (fun q e hq => h q e (Nat.lt_of_lt_of_le hq hs)) _
  | .view v, s, _ => by rw [acceptWith, acceptWith]
  | .within sc b, s, _ => by rw [acceptWith, acceptWith]

/-- The arguments behind the first are accepted by what the statement has become, which has as many
levels. -/
theorem acceptAllWith_congr {f g : Acceptor} (hsound : f.Sound) {n : Nat}
    (h : ∀ q e, q.level < n → f q e = g q e) : ∀ (es : List Expr) {s : Select}, s.level ≤ n →
      acceptAllWith f s es = acceptAllWith g s es
  | [], s, _ => by rw [acceptAllWith, acceptAllWith]
  | e :: es, s, hs => by
      rw [acceptAllWith, acceptAllWith, ← acceptWith_congr hsound h e hs]
      funext c
      refine Build.bind_congr fun r c' hr => ?_
      obtain ⟨t, a⟩ := r
      have hlevel : t.level ≤ n := by
        rw [(acceptWith_sound hsound hr).level]
        exact hs
      have htail := acceptAllWith_congr hsound h es hlevel
      simp only [htail]

end

theorem acceptAt_congr (n : Nat) : ∀ (m : Nat) {s : Select} (e : Expr), s.level ≤ n → s.level ≤ m →
    acceptAt n s e = acceptAt m s e := by
  induction n with
  | zero =>
      intro m s e hn _
      cases m with
      | zero => rfl
      | succ m =>
          exact acceptWith_congr (fun h => absurd h Build.throw_ne_ok) (n := 0)
            (fun q _ hq => absurd hq (Nat.not_lt_zero _)) e hn
  | succ n ih =>
      intro m s e hn hm
      cases m with
      | zero =>
          exact acceptWith_congr (acceptAt_sound n) (n := 0)
            (fun q _ hq => absurd hq (Nat.not_lt_zero _)) e hm
      | succ m =>
          -- one level down both allowances still suffice, whichever is the smaller one
          exact acceptWith_congr (acceptAt_sound n) (n := min (n + 1) (m + 1))
            (fun q e hq => ih m e (by omega) (by omega)) e (by omega)

/-- Every allowance that suffices gives what a statement accepts. -/
theorem acceptAt_eq_accept {n : Nat} (e : Expr) (h : s.level ≤ n) : acceptAt n s e = s.accept e :=
  acceptAt_congr n s.level e h (Nat.le_refl _)

/-- How the statements nested in a statement with so many levels accept. -/
def acceptorAt : Nat → Acceptor
  | 0 => fun _ e => throw (.notSupported (.resolve e.describe))
  | n + 1 => acceptAt n

theorem acceptAt_eq (n : Nat) : acceptAt n = acceptWith (acceptorAt n) := by
  cases n <;> rfl

theorem acceptorAt_sound : ∀ n : Nat, (acceptorAt n).Sound
  | 0 => fun h => absurd h Build.throw_ne_ok
  | n + 1 => acceptAt_sound n

theorem acceptorAt_eq_accept {q : Select} {n : Nat} (h : q.level < n) (e : Expr) : acceptorAt n q e = q.accept e := by
  cases n with
  | zero => exact absurd h (Nat.not_lt_zero _)
  | succ n => exact acceptAt_eq_accept e (Nat.le_of_lt_succ h)

end Select

end SqlCompose
