import Mathlib.Data.List.Forall2
import SqlCompose.Proofs.Steps
import SqlCompose.Query.Equality
import SqlCompose.Select.Accept

/-!
How a nested statement changes while a statement around it accepts expressions: it projects more, and so
may the statements inside it, and nothing else changes. A view that grows keeps its kind, its level, its
dialect and everything equality looks at, so without a NaN it stays equal to what it was. Marks play no
part, since every change makes new nodes.
-/

namespace SqlCompose

/-- Whether a constant is the double that equals nothing. -/
def Literal.isNaN : Literal → Bool
  | .double x => x.isNaN
  | _ => false

theorem Literal.beq_self {v : Literal} (h : v.isNaN = false) : (v == v) = true := by
  cases v with
  | string s => exact beq_self_eq_true s
  | integer i => exact beq_self_eq_true i
  | boolean b => exact beq_self_eq_true b
  | null => rfl
  | double x =>
      have hx : x.isNaN = false := h
      show (!x.isNaN && !x.isNaN && (x.bits == x.bits || x.isZero && x.isZero)) = true
      simp [hx]

mutual

/-- Whether equality meets no NaN in an expression. -/
def Expr.nanFree : Expr → Bool
  | .literal v => !v.isNaN
  | .apply _ args => Expr.nanFreeAll args
  | .column _ => true
  | .star v => v.nanFree
  | .projected _ _ d => d.nanFree
  | .view v => v.nanFree
  | .pinned e _ => e.nanFree
  | .within _ e => e.nanFree

/-- Whether equality meets no NaN in the arguments. -/
def Expr.nanFreeAll : List Expr → Bool
  | [] => true
  | e :: es => e.nanFree && Expr.nanFreeAll es

/-- Whether equality meets no NaN in a view. -/
def View.nanFree : View → Bool
  | .table _ => true
  | .concrete _ => true
  | .join _ ⟨_, s, t, p⟩ => s.nanFree && t.nanFree && p.nanFree
  | .select _ q => q.nanFree

/-- Whether equality meets no NaN in a statement. Its projections do not count. -/
def Select.nanFree : Select → Bool
  | ⟨_, f, _, w, h, g, _, _⟩ =>
    Source.nanFreeAll f && Condition.nanFreeAll w && Condition.nanFreeAll h && Condition.nanFreeAll g

/-- Whether equality meets no NaN in a FROM list. -/
def Source.nanFreeAll : List Source → Bool
  | [] => true
  | ⟨v, _, _, _⟩ :: rest => v.nanFree && Source.nanFreeAll rest

/-- Whether equality meets no NaN in some conditions. -/
def Condition.nanFreeAll : List Condition → Bool
  | [] => true
  | ⟨e, _⟩ :: rest => e.nanFree && Condition.nanFreeAll rest

end

mutual

/-- A view becomes another one by growth of the statement behind it. -/
def View.Grows : View → View → Prop
  | .join _ ⟨n, s, t, p⟩, .join _ k =>
    k.name = n ∧ k.source = s ∧ k.predicate = p ∧ t.Grows k.target
  | .select _ q, .select _ r => q.Grows r
  | v, w => v = w

/-- A statement becomes another one by projecting more, in itself and in the statements of its FROM
list. -/
def Select.Grows : Select → Select → Prop
  | ⟨i, f, p, w, h, g, a, sc⟩, r =>
    r.identity = i ∧ Source.GrowAll f r.sources ∧ p <+: r.projections ∧ r.filters = w
      ∧ r.having = h ∧ r.grouping = g ∧ a.taken <+: r.aliases.taken ∧ r.scope = sc

/-- The views of a FROM list grow, each in its place. -/
def Source.GrowAll : List Source → List Source → Prop
  | [], f => f = []
  | ⟨v, l, sc, on⟩ :: f, g =>
    ∃ u g', g = ⟨u, l, sc, on⟩ :: g' ∧ v.Grows u ∧ Source.GrowAll f g'

end

mutual

theorem View.Grows.refl : ∀ v : View, v.Grows v
  | .table _ => rfl
  | .concrete _ => rfl
  | .join _ ⟨_, _, t, _⟩ => ⟨rfl, rfl, rfl, View.Grows.refl t⟩
  | .select _ q => Select.Grows.refl q

theorem Select.Grows.refl : ∀ q : Select, q.Grows q
  | ⟨_, f, _, _, _, _, _, _⟩ =>
    ⟨rfl, Source.GrowAll.refl f, List.prefix_rfl, rfl, rfl, rfl, List.prefix_rfl, rfl⟩

theorem Source.GrowAll.refl : ∀ f : List Source, Source.GrowAll f f
  | [] => rfl
  | ⟨v, _, _, _⟩ :: f => ⟨v, f, rfl, View.Grows.refl v, Source.GrowAll.refl f⟩

end

mutual

theorem View.Grows.trans : ∀ {u v w : View}, u.Grows v → v.Grows w → u.Grows w
  | .table _, v, w, h, h' => by
      obtain rfl : _ = v := h
      exact h'
  | .concrete _, v, w, h, h' => by
      obtain rfl : _ = v := h
      exact h'
  | .join _ ⟨_, _, t, _⟩, .join _ ⟨_, _, t', _⟩, w, h, h' => by
      obtain ⟨rfl, rfl, rfl, ht⟩ := h
      cases w with
      | join k j =>
          obtain ⟨hn, hs, hp, ht'⟩ := h'
          exact ⟨hn, hs, hp, View.Grows.trans ht ht'⟩
      | table t => exact absurd h' (by simp [View.Grows])
      | concrete t => exact absurd h' (by simp [View.Grows])
      | select k q => exact absurd h' (by simp [View.Grows])
  | .join .., .table _, _, h, _ => absurd h (by simp [View.Grows])
  | .join .., .concrete _, _, h, _ => absurd h (by simp [View.Grows])
  | .join .., .select .., _, h, _ => absurd h (by simp [View.Grows])
  | .select _ q, .select _ r, w, h, h' => by
      cases w with
      | select k s => exact Select.Grows.trans (u := q) h h'
      | table t => exact absurd h' (by simp [View.Grows])
      | concrete t => exact absurd h' (by simp [View.Grows])
      | join k j => exact absurd h' (by simp [View.Grows])
  | .select .., .table _, _, h, _ => absurd h (by simp [View.Grows])
  | .select .., .concrete _, _, h, _ => absurd h (by simp [View.Grows])
  | .select .., .join .., _, h, _ => absurd h (by simp [View.Grows])

theorem Select.Grows.trans : ∀ {u v w : Select}, u.Grows v → v.Grows w → u.Grows w
  | ⟨_, f, _, _, _, _, _, _⟩, ⟨_, f', _, _, _, _, _, _⟩, w, h, h' => by
      obtain ⟨rfl, hf, hp, rfl, rfl, rfl, ha, rfl⟩ := h
      obtain ⟨hi, hf', hp', hw, hh, hg, ha', hsc⟩ := h'
      exact ⟨hi, Source.GrowAll.trans hf hf', hp.trans hp', hw, hh, hg, ha.trans ha', hsc⟩

theorem Source.GrowAll.trans : ∀ {f g h : List Source},
    Source.GrowAll f g → Source.GrowAll g h → Source.GrowAll f h
  | [], g, h, hf, hg => by
      obtain rfl : g = [] := hf
      exact hg
  | ⟨v, _, _, _⟩ :: f, g, h, hf, hg => by
      obtain ⟨u, g', rfl, hv, hf'⟩ := hf
      obtain ⟨w, h', rfl, hu, hg'⟩ := hg
      exact ⟨w, h', rfl, View.Grows.trans hv hu, Source.GrowAll.trans hf' hg'⟩

end

theorem View.Grows.of_join {i : Nat} {j : Join} {v : View} (h : (View.join i j).Grows v) :
    ∃ k l, v = .join k l ∧ l.name = j.name ∧ l.source = j.source ∧ l.predicate = j.predicate
      ∧ j.target.Grows l.target := by
  cases v with
  | join k l =>
      cases j with
      | mk => exact ⟨k, l, rfl, h⟩
  | table t => exact absurd h (by simp [View.Grows])
  | concrete t => exact absurd h (by simp [View.Grows])
  | select k q => exact absurd h (by simp [View.Grows])

theorem View.Grows.of_select {i : Nat} {q : Select} {v : View} (h : (View.select i q).Grows v) :
    ∃ k r, v = .select k r ∧ q.Grows r := by
  cases v with
  | select k r => exact ⟨k, r, rfl, h⟩
  | table t => exact absurd h (by simp [View.Grows])
  | concrete t => exact absurd h (by simp [View.Grows])
  | join k j => exact absurd h (by simp [View.Grows])

/-- A view that has grown into a table is that table. -/
theorem View.Grows.eq_of_plain {u v : View} (h : u.Grows v) (hj : v.isJoin = false)
    (hs : v.isStatement = false) : u = v := by
  cases u with
  | table t => exact h
  | concrete t => exact h
  | join i j =>
      obtain ⟨k, l, rfl, -⟩ := h.of_join
      cases hj
  | select i q =>
      obtain ⟨k, r, rfl, -⟩ := h.of_select
      cases hs

theorem View.Grows.to_join {u : View} {k : Nat} {l : Join} (h : u.Grows (.join k l)) :
    ∃ i j, u = .join i j ∧ j.target.Grows l.target := by
  cases u with
  | table t => exact absurd h (by simp [View.Grows])
  | concrete t => exact absurd h (by simp [View.Grows])
  | select i q => exact absurd h (by simp [View.Grows])
  | join i j =>
      obtain ⟨k', l', heq, -, -, -, ht⟩ := h.of_join
      obtain ⟨-, rfl⟩ := View.join.inj heq
      exact ⟨i, j, rfl, ht⟩

theorem Select.grows_iff {q r : Select} :
    q.Grows r ↔ r.identity = q.identity ∧ Source.GrowAll q.sources r.sources
      ∧ q.projections <+: r.projections ∧ r.filters = q.filters ∧ r.having = q.having
      ∧ r.grouping = q.grouping ∧ q.aliases.taken <+: r.aliases.taken ∧ r.scope = q.scope := by
  cases q with
  | mk => exact Iff.rfl

namespace Select.Grows

variable {q r : Select}

theorem identity (h : q.Grows r) : r.identity = q.identity := (grows_iff.mp h).1

theorem sources (h : q.Grows r) : Source.GrowAll q.sources r.sources := (grows_iff.mp h).2.1

theorem projections (h : q.Grows r) : q.projections <+: r.projections := (grows_iff.mp h).2.2.1

theorem scope (h : q.Grows r) : r.scope = q.scope := (grows_iff.mp h).2.2.2.2.2.2.2

end Select.Grows

/-- Lists related element by element by a transitive relation. -/
theorem List.forall₂_trans {α : Type} {R : α → α → Prop} (hR : ∀ a b d : α, R a b → R b d → R a d)
    {f g h : List α} (hfg : List.Forall₂ R f g) (hgh : List.Forall₂ R g h) : List.Forall₂ R f h := by
  induction hfg generalizing h with
  | nil => exact hgh
  | cons hab _ ih =>
      obtain ⟨d, h', hbd, htail, rfl⟩ := List.forall₂_cons_left_iff.mp hgh
      exact .cons (hR _ _ _ hab hbd) (ih htail)

/-- An entry of a FROM list grows with its view. -/
def Source.Grows (a b : Source) : Prop :=
  b.label = a.label ∧ b.scope = a.scope ∧ b.on = a.on ∧ a.view.Grows b.view

theorem Source.Grows.refl (a : Source) : a.Grows a := ⟨rfl, rfl, rfl, View.Grows.refl a.view⟩

theorem Source.growAll_iff : ∀ {f g : List Source}, GrowAll f g ↔ List.Forall₂ Source.Grows f g
  | [], g => by
      rw [List.forall₂_nil_left_iff]
      exact Iff.rfl
  | ⟨v, l, sc, on⟩ :: f, g => by
      rw [List.forall₂_cons_left_iff]
      constructor
      · rintro ⟨u, g', rfl, hv, hf⟩
        exact ⟨⟨u, l, sc, on⟩, g', ⟨rfl, rfl, rfl, hv⟩, growAll_iff.mp hf, rfl⟩
      · rintro ⟨⟨u, l', sc', on'⟩, g', ⟨rfl, rfl, rfl, hv⟩, hf, rfl⟩
        exact ⟨u, g', rfl, hv, growAll_iff.mpr hf⟩

theorem Source.GrowAll.labels {f g : List Source} (h : GrowAll f g) :
    g.map (·.label) = f.map (·.label) := by
  induction growAll_iff.mp h with
  | nil => rfl
  | cons hab _ ih => rw [List.map_cons, List.map_cons, hab.1, ih (growAll_iff.mpr ‹_›)]

theorem Select.Grows.sources_ne_nil {q r : Select} (h : q.Grows r) (hq : q.sources ≠ []) :
    r.sources ≠ [] := by
  intro hr
  have hlabels := h.sources.labels
  rw [hr] at hlabels
  exact hq (List.map_eq_nil_iff.mp hlabels.symm)

theorem Source.GrowAll.of_mem {f g : List Source} (h : GrowAll f g) {b : Source} (hb : b ∈ g) :
    ∃ a ∈ f, a.Grows b := by
  induction growAll_iff.mp h with
  | nil => exact absurd hb List.not_mem_nil
  | @cons a b' f g hab htail ih =>
      rcases List.mem_cons.mp hb with rfl | hb
      · exact ⟨a, List.mem_cons_self, hab⟩
      · obtain ⟨x, hx, hgrows⟩ := ih (growAll_iff.mpr htail) hb
        exact ⟨x, List.mem_cons_of_mem a hx, hgrows⟩

theorem Source.GrowAll.mem {f g : List Source} (h : GrowAll f g) {a : Source} (ha : a ∈ f) :
    ∃ b ∈ g, a.Grows b := by
  induction growAll_iff.mp h with
  | nil => exact absurd ha List.not_mem_nil
  | @cons a' b f g hab htail ih =>
      rcases List.mem_cons.mp ha with rfl | ha
      · exact ⟨b, List.mem_cons_self, hab⟩
      · obtain ⟨x, hx, hgrows⟩ := ih (growAll_iff.mpr htail) ha
        exact ⟨x, List.mem_cons_of_mem b hx, hgrows⟩

/-- One entry of a FROM list grows and the others stay. -/
theorem Source.Grows.growAll {a b : Source} (h : a.Grows b) (after : List Source) :
    ∀ before : List Source, GrowAll (before ++ a :: after) (before ++ b :: after)
  | [] => growAll_iff.mpr (.cons h (growAll_iff.mp (.refl after)))
  | x :: before => growAll_iff.mpr (.cons (.refl x) (growAll_iff.mp (growAll h after before)))

/-! What a growing view keeps. -/

namespace View.Grows

variable {v w : View}

theorem isStatement (h : v.Grows w) : w.isStatement = v.isStatement := by
  cases v with
  | table t => rw [show View.table t = w from h]
  | concrete t => rw [show View.concrete t = w from h]
  | select i q =>
      obtain ⟨k, r, rfl, -⟩ := h.of_select
      rfl
  | join i j =>
      obtain ⟨n, s, t, p⟩ := j
      obtain ⟨k, ⟨n', s', t', p'⟩, rfl, -, -, -, ht⟩ := h.of_join
      have ht : t.Grows t' := ht
      cases t with
      | table t => rw [← show View.table t = t' from ht]; rfl
      | concrete t => rw [← show View.concrete t = t' from ht]; rfl
      | select i q =>
          obtain ⟨k, r, rfl, -⟩ := ht.of_select
          rfl
      | join i l =>
          obtain ⟨k, r, rfl, -⟩ := ht.of_join
          rfl

theorem isJoin (h : v.Grows w) : w.isJoin = v.isJoin := by
  cases v with
  | table t => rw [show View.table t = w from h]
  | concrete t => rw [show View.concrete t = w from h]
  | select i q =>
      obtain ⟨k, r, rfl, -⟩ := h.of_select
      rfl
  | join i j =>
      obtain ⟨k, r, rfl, -⟩ := h.of_join
      rfl

end View.Grows

mutual

theorem View.Grows.level : ∀ {v w : View}, v.Grows w → w.level = v.level
  | .table _, w, h => by rw [← show View.table _ = w from h]
  | .concrete _, w, h => by rw [← show View.concrete _ = w from h]
  | .join _ ⟨_, _, _, _⟩, w, h => by
      obtain ⟨k, ⟨n, s, t, p⟩, rfl, -, -, -, ht⟩ := h.of_join
      rw [View.level, View.level]
      exact View.Grows.level ht
  | .select _ ⟨_, f, _, _, _, _, _, _⟩, w, h => by
      obtain ⟨k, ⟨i, g, p, w, h, gr, a, sc⟩, rfl, hq⟩ := h.of_select
      have hf : Source.GrowAll f g := hq.2.1
      simp only [View.level, Source.GrowAll.level hf]

theorem Source.GrowAll.level : ∀ {f g : List Source},
    Source.GrowAll f g → Source.levelAll g = Source.levelAll f
  | [], g, h => by rw [show g = [] from h]
  | ⟨_, _, _, _⟩ :: f, g, h => by
      obtain ⟨u, g', rfl, hv, hf⟩ := h
      simp only [Source.levelAll, View.Grows.level hv, Source.GrowAll.level hf]

end

mutual

theorem View.Grows.nanFree : ∀ {v w : View}, v.Grows w → w.nanFree = v.nanFree
  | .table _, w, h => by rw [← show View.table _ = w from h]
  | .concrete _, w, h => by rw [← show View.concrete _ = w from h]
  | .join _ ⟨_, _, _, _⟩, w, h => by
      obtain ⟨k, ⟨n, s, t, p⟩, rfl, -, rfl, rfl, ht⟩ := h.of_join
      simp only [View.nanFree, View.Grows.nanFree ht]
  | .select _ ⟨_, f, _, _, _, _, _, _⟩, w, h => by
      obtain ⟨k, ⟨i, g, p, w, h, gr, a, sc⟩, rfl, hq⟩ := h.of_select
      obtain ⟨-, hf, -, rfl, rfl, rfl, -, -⟩ := hq
      simp only [View.nanFree, Select.nanFree, Source.GrowAll.nanFree hf]

theorem Source.GrowAll.nanFree : ∀ {f g : List Source},
    Source.GrowAll f g → Source.nanFreeAll g = Source.nanFreeAll f
  | [], g, h => by rw [show g = [] from h]
  | ⟨_, _, _, _⟩ :: f, g, h => by
      obtain ⟨u, g', rfl, hv, hf⟩ := h
      simp only [Source.nanFreeAll, View.Grows.nanFree hv, Source.GrowAll.nanFree hf]

end

theorem View.Grows.dialect : ∀ {v w : View}, v.Grows w → w.dialect = v.dialect
  | .table _, w, h => by rw [← show View.table _ = w from h]
  | .concrete _, w, h => by rw [← show View.concrete _ = w from h]
  | .join _ ⟨_, _, _, _⟩, w, h => by
      obtain ⟨k, ⟨n, s, t, p⟩, rfl, -, -, -, ht⟩ := h.of_join
      rw [View.dialect, View.dialect]
      exact View.Grows.dialect ht
  | .select _ ⟨_, [], _, _, _, _, _, _⟩, w, h => by
      obtain ⟨k, ⟨i, g, p, w, h, gr, a, sc⟩, rfl, hq⟩ := h.of_select
      obtain rfl : g = [] := hq.2.1
      rfl
  | .select _ ⟨_, ⟨_, _, _, _⟩ :: _, _, _, _, _, _, _⟩, w, h => by
      obtain ⟨k, ⟨i, g, p, w, h, gr, a, sc⟩, rfl, hq⟩ := h.of_select
      obtain ⟨u, g', rfl, hv, -⟩ := hq.2.1
      rw [View.dialect, View.dialect]
      exact View.Grows.dialect hv

theorem View.level_of_statement? : ∀ {v : View} {q : Select},
    v.statement? = some q → q.level < v.level
  | .table _, q, h => nomatch h
  | .concrete _, q, h => nomatch h
  | .select _ ⟨_, f, _, _, _, _, _, _⟩, q, h => by
      obtain rfl := Option.some.inj h
      rw [View.level]
      exact Nat.lt_succ_self _
  | .join _ ⟨_, _, t, _⟩, q, h => by
      rw [View.level]
      exact View.level_of_statement? (v := t) h

theorem Source.level_le_levelAll {a : Source} :
    ∀ {f : List Source}, a ∈ f → a.view.level ≤ Source.levelAll f
  | ⟨v, _, _, _⟩ :: f, h => by
      rw [Source.levelAll]
      rcases List.mem_cons.mp h with rfl | h
      · exact Nat.le_max_left _ _
      · exact Nat.le_trans (level_le_levelAll h) (Nat.le_max_right _ _)

/-! Equality looks at nothing that growth changes. -/

mutual

theorem Expr.beq_of_core : ∀ {e b : Expr}, e.nanFree = true → b.core = e.core → e.beq b = true
  | .literal v, b, h, hb => by
      rw [Expr.beq, hb]
      exact Literal.beq_self (by simpa [Expr.nanFree] using h)
  | .apply op args, b, h, hb => by
      rw [Expr.beq, hb]
      simp only [Expr.core, beq_self_eq_true, Bool.true_and]
      exact Expr.beqAll_self h
  | .column c, b, _, hb => by
      rw [Expr.beq, hb]
      show (c.table.name == c.table.name && c.name == c.name) = true
      simp
  | .star v, b, h, hb => by
      rw [Expr.beq, hb]
      exact View.beq_of_grows h (View.Grows.refl v)
  | .view v, b, h, hb => by
      rw [Expr.beq, hb]
      exact View.beq_of_grows h (View.Grows.refl v)
  | .projected _ _ d, b, h, hb => by
      rw [Expr.beq]
      exact Expr.beq_of_core (e := d) h hb
  | .pinned e _, b, h, hb => by
      rw [Expr.beq]
      exact Expr.beq_of_core (e := e) h hb
  | .within _ e, b, h, hb => by
      rw [Expr.beq]
      exact Expr.beq_of_core (e := e) h hb

theorem Expr.beqAll_self : ∀ {es : List Expr}, Expr.nanFreeAll es = true → Expr.beqAll es es = true
  | [], _ => by rw [Expr.beqAll]
  | e :: es, h => by
      rw [Expr.nanFreeAll, Bool.and_eq_true] at h
      rw [Expr.beqAll, Bool.and_eq_true]
      exact ⟨Expr.beq_of_core h.1 rfl, Expr.beqAll_self h.2⟩

theorem View.beq_of_grows : ∀ {v w : View}, v.nanFree = true → v.Grows w → v.beq w = true
  | .table t, w, _, hw => by
      rw [← show View.table t = w from hw, View.beq]
      exact beq_self_eq_true t.name
  | .concrete m, w, _, hw => by
      rw [← show View.concrete m = w from hw, View.beq]
      exact beq_self_eq_true m.name
  | .join _ ⟨n, s, t, p⟩, w, h, hw => by
      obtain ⟨k, l, rfl, hn, hs, hp, ht⟩ := hw.of_join
      obtain ⟨n', s', t', p'⟩ := l
      simp only at hn hs hp ht
      subst hn hs hp
      simp only [View.nanFree, Bool.and_eq_true] at h
      have hs := View.beq_of_grows h.1.1 (View.Grows.refl s')
      have hp := Expr.beq_of_core (b := p') h.2 rfl
      simp only [View.beq, Join.beq, hs, hp, View.beq_of_grows h.1.2 ht, beq_self_eq_true,
        Bool.and_self, Bool.or_true]
  | .select _ q, w, h, hw => by
      obtain ⟨k, r, rfl, hq⟩ := hw.of_select
      rw [View.beq, Select.beq_of_grows h hq, Bool.or_true]

theorem Select.beq_of_grows : ∀ {q r : Select}, q.nanFree = true → q.Grows r → q.beq r = true
  | ⟨_, f, _, w, h, g, _, _⟩, r, hn, hr => by
      obtain ⟨hi, hf, -, hw, hh, hg, -, -⟩ := hr
      simp only [Select.nanFree, Bool.and_eq_true] at hn
      obtain ⟨⟨⟨hnf, hnw⟩, hnh⟩, hng⟩ := hn
      rw [Select.beq, hi, hw, hh, hg, Source.beqAll_of_growAll hnf hf, Condition.beqAll_self hnw,
        Condition.beqAll_self hnh, Condition.beqAll_self hng, beq_self_eq_true]
      rfl

theorem Source.beqAll_of_growAll : ∀ {f g : List Source},
    Source.nanFreeAll f = true → Source.GrowAll f g → Source.beqAll f g = true
  | [], g, _, h => by rw [show g = [] from h, Source.beqAll]
  | ⟨v, l, _, _⟩ :: f, g, hn, h => by
      obtain ⟨u, g', rfl, hv, hf⟩ := h
      rw [Source.nanFreeAll, Bool.and_eq_true] at hn
      rw [Source.beqAll, View.beq_of_grows hn.1 hv, Source.beqAll_of_growAll hn.2 hf,
        beq_self_eq_true]
      rfl

theorem Condition.beqAll_self : ∀ {cs : List Condition},
    Condition.nanFreeAll cs = true → Condition.beqAll cs cs = true
  | [], _ => by rw [Condition.beqAll]
  | ⟨e, _⟩ :: cs, h => by
      rw [Condition.nanFreeAll, Bool.and_eq_true] at h
      rw [Condition.beqAll, Bool.and_eq_true]
      exact ⟨Expr.beq_of_core h.1 rfl, Condition.beqAll_self h.2⟩

end

/-! The statement behind a view. -/

namespace View

theorem statement?_of_isStatement {v : View} (h : v.isStatement = true) :
    ∃ q, v.statement? = some q := by
  cases v with
  | table t => exact absurd h (by simp [isStatement])
  | concrete t => exact absurd h (by simp [isStatement])
  | select i q => exact ⟨q, rfl⟩
  | join i j =>
      obtain ⟨n, s, t, p⟩ := j
      cases t with
      | table t => exact absurd h (by simp [isStatement])
      | concrete t => exact absurd h (by simp [isStatement])
      | select i q => exact ⟨q, rfl⟩
      | join i j => exact absurd h (by simp [isStatement])

theorem Grows.statement? : ∀ {v w : View} {q : Select}, v.Grows w → v.statement? = some q →
    ∃ r, w.statement? = some r ∧ q.Grows r
  | .table _, w, q, _, hq => nomatch hq
  | .concrete _, w, q, _, hq => nomatch hq
  | .select _ _, w, q, h, hq => by
      obtain rfl := Option.some.inj hq
      obtain ⟨k, r, rfl, hr⟩ := h.of_select
      exact ⟨r, rfl, hr⟩
  | .join _ ⟨_, _, t, _⟩, w, q, h, hq => by
      obtain ⟨k, ⟨n, s, u, p⟩, rfl, -, -, -, ht⟩ := h.of_join
      exact Grows.statement? (v := t) (w := u) ht hq

/-- The view with a grown statement behind it: it has grown, and that statement is behind it. -/
theorem withStatement_spec : ∀ {v w : View} {q r : Select} {c c' : Catalog},
    v.statement? = some q → q.Grows r → v.withStatement r c = .ok (w, c') →
      v.Grows w ∧ w.statement? = some r
  | .table _, w, q, r, c, c', hq, _, _ => nomatch hq
  | .concrete _, w, q, r, c, c', hq, _, _ => nomatch hq
  | .select i _, w, q, r, c, c', hq, hr, h => by
      obtain rfl := Option.some.inj hq
      rw [withStatement, Build.selectView_eq_ok, Prod.mk.injEq] at h
      rw [h.1]
      exact ⟨hr, rfl⟩
  | .join i ⟨n, s, t, p⟩, w, q, r, c, c', hq, hr, h => by
      obtain ⟨u, c₁, hu, h⟩ := Build.bind_eq_ok.mp h
      obtain ⟨ht, hur⟩ := withStatement_spec (v := t) hq hr hu
      rw [Build.joinView_eq_ok, Prod.mk.injEq] at h
      rw [h.1]
      exact ⟨⟨rfl, rfl, rfl, ht⟩, hur⟩

end View

end SqlCompose
