import Mathlib.Data.List.Find
import SqlCompose.Proofs.Inside
import SqlCompose.Proofs.Runs

/-!
Equality and resolution. Equality of views mixes the identity of nodes, the names of tables and the contents
of joins and statements, and a NaN makes a view differ from itself. Where nodes with one mark are the same
node, it is symmetric and transitive all the same, and equal views are related to the same views and found
under the same mappings.
-/

namespace SqlCompose

/-- The joins and the statements behind the marks. -/
structure Nodes where
  join : Nat → Join
  select : Nat → Select

/-- A view that is a node is the one behind its mark. -/
def Nodes.Holds (N : Nodes) : View → Prop
  | .join i j => N.join i = j
  | .select i q => N.select i = q
  | _ => True

/-- A predicate holds of all views inside the sides and the predicate of a join. -/
structure Join.Throughout (P : View → Prop) (j : Join) : Prop where
  source : j.source.Throughout P
  target : j.target.Throughout P
  predicate : j.predicate.Throughout P

theorem View.Throughout.join {P : View → Prop} {i : Nat} {j : Join} (h : (View.join i j).Throughout P) :
    j.Throughout P := by
  obtain ⟨-, hs, ht, hp⟩ := throughout_join.mp h
  exact ⟨hs, ht, hp⟩

theorem View.Throughout.select {P : View → Prop} {i : Nat} {q : Select}
    (h : (View.select i q).Throughout P) : q.Throughout P := (throughout_select.mp h).2

/-! Constants, tables and columns. -/

instance : PartialEquivBEq Double where
  symm := by
    intro x y h
    change Double.beq x y = true at h
    change Double.beq y x = true
    simp only [Double.beq, Bool.and_eq_true, Bool.or_eq_true, beq_iff_eq] at h ⊢
    exact ⟨h.1.symm, h.2.imp Eq.symm And.symm⟩
  trans := by
    intro x y z h h'
    change Double.beq x y = true at h
    change Double.beq y z = true at h'
    change Double.beq x z = true
    obtain ⟨x⟩ := x
    obtain ⟨y⟩ := y
    obtain ⟨z⟩ := z
    simp only [Double.beq, Bool.and_eq_true, Bool.or_eq_true, beq_iff_eq] at h h' ⊢
    refine ⟨⟨h.1.1, h'.1.2⟩, ?_⟩
    rcases h.2 with rfl | ⟨hx, hy⟩
    · exact h'.2
    · rcases h'.2 with rfl | ⟨-, hz⟩
      · exact .inr ⟨hx, hy⟩
      · exact .inr ⟨hx, hz⟩

theorem Literal.beq_symm : ∀ {v w : Literal}, (v == w) = true → (w == v) = true
  | .string a, .string b, h => show (b == a) = true from BEq.symm h
  | .integer a, .integer b, h => show (b == a) = true from BEq.symm h
  | .double x, .double y, h => show (y == x) = true from BEq.symm h
  | .boolean a, .boolean b, h => show (b == a) = true from BEq.symm h
  | .null, .null, _ => rfl

theorem Literal.beq_trans : ∀ {v w u : Literal}, (v == w) = true → (w == u) = true → (v == u) = true
  | .string a, .string b, .string c, h, h' => show (a == c) = true from BEq.trans (b := b) h h'
  | .integer a, .integer b, .integer c, h, h' => show (a == c) = true from BEq.trans (b := b) h h'
  | .double x, .double y, .double z, h, h' => show (x == z) = true from BEq.trans (b := y) h h'
  | .boolean a, .boolean b, .boolean c, h, h' => show (a == c) = true from BEq.trans (b := b) h h'
  | .null, .null, .null, _, _ => rfl

instance : PartialEquivBEq Literal := ⟨Literal.beq_symm, Literal.beq_trans⟩

instance : PartialEquivBEq Table where
  symm := fun {t u} h => show (u.name == t.name) = true from BEq.symm h
  trans := fun {t u v} h h' => show (t.name == v.name) = true from BEq.trans (b := u.name) h h'

instance : PartialEquivBEq Column where
  symm := by
    intro c d h
    obtain ⟨ht, hn⟩ := Bool.and_eq_true_iff.mp h
    exact Bool.and_eq_true_iff.mpr ⟨BEq.symm ht, BEq.symm hn⟩
  trans := by
    intro c d e h h'
    obtain ⟨ht, hn⟩ := Bool.and_eq_true_iff.mp h
    obtain ⟨ht', hn'⟩ := Bool.and_eq_true_iff.mp h'
    exact Bool.and_eq_true_iff.mpr ⟨BEq.trans ht ht', BEq.trans hn hn'⟩

/-! What equality says, by the form of the first side. Expressions compare by their cores. -/

namespace Expr

theorem beq_core_left : ∀ a b : Expr, a.core.beq b = a.beq b
  | literal _, _ => rfl
  | apply _ _, _ => rfl
  | column _, _ => rfl
  | star _, _ => rfl
  | view _, _ => rfl
  | projected _ _ d, b => by rw [core, beq_core_left d b, Expr.beq]
  | pinned e _, b => by rw [core, beq_core_left e b, Expr.beq]
  | within _ e, b => by rw [core, beq_core_left e b, Expr.beq]

/-- Equality looks at nothing but the core of the second side. -/
theorem beq_congr_core {b d : Expr} (h : b.core = d.core) : ∀ a : Expr, a.beq b = a.beq d
  | literal _ => by rw [Expr.beq, Expr.beq, h]
  | apply _ _ => by rw [Expr.beq, Expr.beq, h]
  | column _ => by rw [Expr.beq, Expr.beq, h]
  | star _ => by rw [Expr.beq, Expr.beq, h]
  | view _ => by rw [Expr.beq, Expr.beq, h]
  | projected _ _ e => by rw [Expr.beq, Expr.beq, beq_congr_core h e]
  | pinned e _ => by rw [Expr.beq, Expr.beq, beq_congr_core h e]
  | within _ e => by rw [Expr.beq, Expr.beq, beq_congr_core h e]

theorem Throughout.core {P : View → Prop} : ∀ {e : Expr}, e.Throughout P → e.core.Throughout P
  | literal _, h => h
  | apply _ _, h => h
  | column _, h => h
  | star _, h => h
  | view _, h => h
  | projected _ _ d, h => Throughout.core (e := d) (throughout_projected.mp h).2
  | pinned e _, h => Throughout.core (e := e) (throughout_pinned.mp h).1
  | within _ e, h => Throughout.core (e := e) h

variable {b : Expr}

theorem beq_literal {v : Literal} : (literal v).beq b = true ↔
    ∃ w, b.core = literal w ∧ (v == w) = true := by
  rw [Expr.beq]
  split
  case h_1 w hb => simp [hb]
  case h_2 hb =>
      refine iff_of_false Bool.false_ne_true ?_
      rintro ⟨w, hw, -⟩
      exact hb w hw

theorem beq_apply {op : Operator} {as : List Expr} : (apply op as).beq b = true ↔
    ∃ bs, b.core = apply op bs ∧ beqAll as bs = true := by
  rw [Expr.beq]
  split
  case h_1 op' bs hb =>
      rw [Bool.and_eq_true, beq_iff_eq]
      constructor
      · rintro ⟨rfl, has⟩
        exact ⟨bs, hb, has⟩
      · rintro ⟨cs, hcs, has⟩
        obtain ⟨rfl, rfl⟩ := apply.inj (hb.symm.trans hcs)
        exact ⟨rfl, has⟩
  case h_2 hb =>
      refine iff_of_false Bool.false_ne_true ?_
      rintro ⟨bs, hbs, -⟩
      exact hb op bs hbs

theorem beq_column {c : Column} : (column c).beq b = true ↔
    ∃ d, b.core = column d ∧ (c == d) = true := by
  rw [Expr.beq]
  split
  case h_1 d hb => simp [hb]
  case h_2 hb =>
      refine iff_of_false Bool.false_ne_true ?_
      rintro ⟨w, hw, -⟩
      exact hb w hw

theorem beq_star {v : View} : (star v).beq b = true ↔ ∃ w, b.core = star w ∧ v.beq w = true := by
  rw [Expr.beq]
  split
  case h_1 w hb => simp [hb]
  case h_2 hb =>
      refine iff_of_false Bool.false_ne_true ?_
      rintro ⟨w, hw, -⟩
      exact hb w hw

theorem beq_view {v : View} : (view v).beq b = true ↔ ∃ w, b.core = view w ∧ v.beq w = true := by
  rw [Expr.beq]
  split
  case h_1 w hb => simp [hb]
  case h_2 hb =>
      refine iff_of_false Bool.false_ne_true ?_
      rintro ⟨w, hw, -⟩
      exact hb w hw

theorem beqAll_nil {bs : List Expr} : beqAll [] bs = true ↔ bs = [] := by
  cases bs with
  | nil => simp [beqAll]
  | cons b bs => simp [beqAll]

theorem beqAll_cons {a : Expr} {as bs : List Expr} : beqAll (a :: as) bs = true ↔
    ∃ b bs', bs = b :: bs' ∧ a.beq b = true ∧ beqAll as bs' = true := by
  cases bs with
  | nil => simp [beqAll]
  | cons b bs => simp [beqAll]

end Expr

namespace View

variable {b : View}

theorem beq_table {t : Table} : (table t).beq b = true ↔ ∃ u, b = table u ∧ (t == u) = true := by
  cases b <;> simp [View.beq]

theorem beq_concrete {m : Table} :
    (concrete m).beq b = true ↔ ∃ n, b = concrete n ∧ (m == n) = true := by
  cases b <;> simp [View.beq]

theorem beq_join {i : Nat} {j : Join} : (join i j).beq b = true ↔
    ∃ k l, b = join k l ∧ (i = k ∨ j.beq l = true) := by
  cases b <;> simp [View.beq]

theorem beq_select {i : Nat} {q : Select} : (select i q).beq b = true ↔
    ∃ k r, b = select k r ∧ (i = k ∨ q.beq r = true) := by
  cases b <;> simp [View.beq]

end View

theorem Join.beq_iff {j l : Join} : j.beq l = true ↔ (j.name == l.name) = true ∧
    j.source.beq l.source = true ∧ j.target.beq l.target = true ∧ j.predicate.beq l.predicate = true := by
  obtain ⟨n, s, t, p⟩ := j
  obtain ⟨n', s', t', p'⟩ := l
  simp only [Join.beq, Bool.and_eq_true, and_assoc]

theorem Select.beq_iff {q r : Select} : q.beq r = true ↔ q.identity = r.identity
    ∧ Source.beqAll q.sources r.sources = true ∧ Condition.beqAll q.filters r.filters = true
    ∧ Condition.beqAll q.having r.having = true ∧ Condition.beqAll q.grouping r.grouping = true := by
  obtain ⟨i, f, _, w, h, g, _, _⟩ := q
  simp only [Select.beq, Bool.and_eq_true, beq_iff_eq, and_assoc]

theorem Source.beqAll_nil {g : List Source} : beqAll [] g = true ↔ g = [] := by
  cases g with
  | nil => simp [beqAll]
  | cons b g => simp [beqAll]

theorem Source.beqAll_cons {a : Source} {f g : List Source} : beqAll (a :: f) g = true ↔
    ∃ b g', g = b :: g' ∧ a.view.beq b.view = true ∧ a.label = b.label ∧ beqAll f g' = true := by
  obtain ⟨v, l, sc, on⟩ := a
  cases g with
  | nil => simp [beqAll]
  | cons b g => simp [beqAll, and_assoc]

theorem Condition.beqAll_nil {bs : List Condition} : beqAll [] bs = true ↔ bs = [] := by
  cases bs with
  | nil => simp [beqAll]
  | cons b bs => simp [beqAll]

theorem Condition.beqAll_cons {a : Condition} {as bs : List Condition} : beqAll (a :: as) bs = true ↔
    ∃ b bs', bs = b :: bs' ∧ a.expr.beq b.expr = true ∧ beqAll as bs' = true := by
  obtain ⟨e, sc⟩ := a
  cases bs with
  | nil => simp [beqAll]
  | cons b bs => simp [beqAll]

/-! Equality is symmetric, whatever the nodes. -/

mutual

theorem Expr.beq_symm : ∀ {a b : Expr}, a.beq b = true → b.beq a = true
  | .literal v, b, h => by
      obtain ⟨w, hb, hvw⟩ := Expr.beq_literal.mp h
      rw [← Expr.beq_core_left, hb]
      exact Expr.beq_literal.mpr ⟨v, rfl, BEq.symm hvw⟩
  | .apply op as, b, h => by
      obtain ⟨bs, hb, has⟩ := Expr.beq_apply.mp h
      rw [← Expr.beq_core_left, hb]
      exact Expr.beq_apply.mpr ⟨as, rfl, Expr.beqAll_symm has⟩
  | .column c, b, h => by
      obtain ⟨d, hb, hcd⟩ := Expr.beq_column.mp h
      rw [← Expr.beq_core_left, hb]
      exact Expr.beq_column.mpr ⟨c, rfl, BEq.symm hcd⟩
  | .star v, b, h => by
      obtain ⟨w, hb, hvw⟩ := Expr.beq_star.mp h
      rw [← Expr.beq_core_left, hb]
      exact Expr.beq_star.mpr ⟨v, rfl, View.beq_symm hvw⟩
  | .view v, b, h => by
      obtain ⟨w, hb, hvw⟩ := Expr.beq_view.mp h
      rw [← Expr.beq_core_left, hb]
      exact Expr.beq_view.mpr ⟨v, rfl, View.beq_symm hvw⟩
  | .projected v n d, b, h => by
      rw [Expr.beq] at h
      rw [Expr.beq_congr_core (b := .projected v n d) (d := d) rfl]
      exact Expr.beq_symm h
  | .pinned e v, b, h => by
      rw [Expr.beq] at h
      rw [Expr.beq_congr_core (b := .pinned e v) (d := e) rfl]
      exact Expr.beq_symm h
  | .within sc e, b, h => by
      rw [Expr.beq] at h
      rw [Expr.beq_congr_core (b := .within sc e) (d := e) rfl]
      exact Expr.beq_symm h
termination_by structural a => a

theorem Expr.beqAll_symm : ∀ {as bs : List Expr}, Expr.beqAll as bs = true → Expr.beqAll bs as = true
  | [], _, h => by
      obtain rfl := Expr.beqAll_nil.mp h
      exact h
  | a :: as, _, h => by
      obtain ⟨b, bs, rfl, hab, has⟩ := Expr.beqAll_cons.mp h
      exact Expr.beqAll_cons.mpr ⟨a, as, rfl, Expr.beq_symm hab, Expr.beqAll_symm has⟩
termination_by structural a => a

theorem View.beq_symm : ∀ {a b : View}, a.beq b = true → b.beq a = true
  | .table t, b, h => by
      obtain ⟨u, rfl, htu⟩ := View.beq_table.mp h
      exact View.beq_table.mpr ⟨t, rfl, BEq.symm htu⟩
  | .concrete m, b, h => by
      obtain ⟨n, rfl, hmn⟩ := View.beq_concrete.mp h
      exact View.beq_concrete.mpr ⟨m, rfl, BEq.symm hmn⟩
  | .join i j, b, h => by
      obtain ⟨k, l, rfl, hjl⟩ := View.beq_join.mp h
      exact View.beq_join.mpr ⟨i, j, rfl, hjl.imp Eq.symm Join.beq_symm⟩
  | .select i q, b, h => by
      obtain ⟨k, r, rfl, hqr⟩ := View.beq_select.mp h
      exact View.beq_select.mpr ⟨i, q, rfl, hqr.imp Eq.symm Select.beq_symm⟩
termination_by structural a => a

theorem Join.beq_symm : ∀ {j l : Join}, j.beq l = true → l.beq j = true
  | ⟨_, _, _, _⟩, l, h => by
      obtain ⟨hn, hs, ht, hp⟩ := Join.beq_iff.mp h
      exact Join.beq_iff.mpr ⟨BEq.symm hn, View.beq_symm hs, View.beq_symm ht, Expr.beq_symm hp⟩
termination_by structural a => a

theorem Select.beq_symm : ∀ {q r : Select}, q.beq r = true → r.beq q = true
  | ⟨_, _, _, _, _, _, _, _⟩, r, h => by
      obtain ⟨hi, hf, hw, hh, hg⟩ := Select.beq_iff.mp h
      exact Select.beq_iff.mpr ⟨hi.symm, Source.beqAll_symm hf, Condition.beqAll_symm hw,
        Condition.beqAll_symm hh, Condition.beqAll_symm hg⟩
termination_by structural a => a

theorem Source.beqAll_symm : ∀ {f g : List Source}, Source.beqAll f g = true → Source.beqAll g f = true
  | [], _, h => by
      obtain rfl := Source.beqAll_nil.mp h
      exact h
  | ⟨v, l, sc, on⟩ :: f, _, h => by
      obtain ⟨b, g, rfl, hv, hl, hf⟩ := Source.beqAll_cons.mp h
      exact Source.beqAll_cons.mpr
        ⟨⟨v, l, sc, on⟩, f, rfl, View.beq_symm hv, hl.symm, Source.beqAll_symm hf⟩
termination_by structural a => a

theorem Condition.beqAll_symm : ∀ {as bs : List Condition}, Condition.beqAll as bs = true →
    Condition.beqAll bs as = true
  | [], _, h => by
      obtain rfl := Condition.beqAll_nil.mp h
      exact h
  | ⟨e, sc⟩ :: as, _, h => by
      obtain ⟨b, bs, rfl, hab, has⟩ := Condition.beqAll_cons.mp h
      exact Condition.beqAll_cons.mpr ⟨⟨e, sc⟩, as, rfl, Expr.beq_symm hab, Condition.beqAll_symm has⟩
termination_by structural a => a

end

/-! Equality is transitive where one mark is one node. -/

variable {N : Nodes}

mutual

theorem Expr.beq_trans : ∀ {a b c : Expr}, a.Throughout N.Holds → b.Throughout N.Holds →
    c.Throughout N.Holds → a.beq b = true → b.beq c = true → a.beq c = true
  | .literal v, b, c, _, _, _, h, h' => by
      obtain ⟨w, hb, hvw⟩ := Expr.beq_literal.mp h
      rw [← Expr.beq_core_left, hb] at h'
      obtain ⟨u, hc, hwu⟩ := Expr.beq_literal.mp h'
      exact Expr.beq_literal.mpr ⟨u, hc, BEq.trans hvw hwu⟩
  | .apply op as, b, c, ha, hb, hc, h, h' => by
      obtain ⟨bs, hbs, has⟩ := Expr.beq_apply.mp h
      rw [← Expr.beq_core_left, hbs] at h'
      obtain ⟨cs, hcs, hbcs⟩ := Expr.beq_apply.mp h'
      have hb := hb.core
      have hc := hc.core
      rw [hbs] at hb
      rw [hcs] at hc
      exact Expr.beq_apply.mpr ⟨cs, hcs, Expr.beqAll_trans (Expr.throughout_apply.mp ha)
        (Expr.throughout_apply.mp hb) (Expr.throughout_apply.mp hc) has hbcs⟩
  | .column x, b, c, _, _, _, h, h' => by
      obtain ⟨y, hb, hxy⟩ := Expr.beq_column.mp h
      rw [← Expr.beq_core_left, hb] at h'
      obtain ⟨z, hc, hyz⟩ := Expr.beq_column.mp h'
      exact Expr.beq_column.mpr ⟨z, hc, BEq.trans hxy hyz⟩
  | .star v, b, c, ha, hb, hc, h, h' => by
      obtain ⟨w, hw, hvw⟩ := Expr.beq_star.mp h
      rw [← Expr.beq_core_left, hw] at h'
      obtain ⟨u, hu, hwu⟩ := Expr.beq_star.mp h'
      have hb := hb.core
      have hc := hc.core
      rw [hw] at hb
      rw [hu] at hc
      exact Expr.beq_star.mpr ⟨u, hu, View.beq_trans ha hb hc hvw hwu⟩
  | .view v, b, c, ha, hb, hc, h, h' => by
      obtain ⟨w, hw, hvw⟩ := Expr.beq_view.mp h
      rw [← Expr.beq_core_left, hw] at h'
      obtain ⟨u, hu, hwu⟩ := Expr.beq_view.mp h'
      have hb := hb.core
      have hc := hc.core
      rw [hw] at hb
      rw [hu] at hc
      exact Expr.beq_view.mpr ⟨u, hu, View.beq_trans ha hb hc hvw hwu⟩
  | .projected _ _ d, b, c, ha, hb, hc, h, h' => by
      rw [Expr.beq] at h ⊢
      exact Expr.beq_trans (a := d) (Expr.throughout_projected.mp ha).2 hb hc h h'
  | .pinned e _, b, c, ha, hb, hc, h, h' => by
      rw [Expr.beq] at h ⊢
      exact Expr.beq_trans (a := e) (Expr.throughout_pinned.mp ha).1 hb hc h h'
  | .within _ e, b, c, ha, hb, hc, h, h' => by
      rw [Expr.beq] at h ⊢
      exact Expr.beq_trans (a := e) ha hb hc h h'
termination_by structural a => a

theorem Expr.beqAll_trans : ∀ {as bs cs : List Expr}, (∀ e ∈ as, e.Throughout N.Holds) →
    (∀ e ∈ bs, e.Throughout N.Holds) → (∀ e ∈ cs, e.Throughout N.Holds) →
      Expr.beqAll as bs = true → Expr.beqAll bs cs = true → Expr.beqAll as cs = true
  | [], _, _, _, _, _, h, h' => by
      obtain rfl := Expr.beqAll_nil.mp h
      exact h'
  | a :: as, _, _, ha, hb, hc, h, h' => by
      obtain ⟨b, bs, rfl, hab, has⟩ := Expr.beqAll_cons.mp h
      obtain ⟨c, cs, rfl, hbc, hbs⟩ := Expr.beqAll_cons.mp h'
      rw [List.forall_mem_cons] at ha hb hc
      exact Expr.beqAll_cons.mpr ⟨c, cs, rfl, Expr.beq_trans ha.1 hb.1 hc.1 hab hbc,
        Expr.beqAll_trans ha.2 hb.2 hc.2 has hbs⟩
termination_by structural a => a

theorem View.beq_trans : ∀ {a b c : View}, a.Throughout N.Holds → b.Throughout N.Holds →
    c.Throughout N.Holds → a.beq b = true → b.beq c = true → a.beq c = true
  | .table t, b, c, _, _, _, h, h' => by
      obtain ⟨u, rfl, htu⟩ := View.beq_table.mp h
      obtain ⟨x, rfl, hux⟩ := View.beq_table.mp h'
      exact View.beq_table.mpr ⟨x, rfl, BEq.trans htu hux⟩
  | .concrete m, b, c, _, _, _, h, h' => by
      obtain ⟨n, rfl, hmn⟩ := View.beq_concrete.mp h
      obtain ⟨x, rfl, hnx⟩ := View.beq_concrete.mp h'
      exact View.beq_concrete.mpr ⟨x, rfl, BEq.trans hmn hnx⟩
  | .join i j, b, c, ha, hb, hc, h, h' => by
      obtain ⟨k, l, rfl, hjl⟩ := View.beq_join.mp h
      obtain ⟨m, o, rfl, hlo⟩ := View.beq_join.mp h'
      refine View.beq_join.mpr ⟨m, o, rfl, ?_⟩
      -- where two of the nodes are one, what is said of one of them is said of the other
      rcases hjl with rfl | hjl
      · obtain rfl : j = l := ha.self.symm.trans hb.self
        exact hlo
      · rcases hlo with rfl | hlo
        · obtain rfl : l = o := hb.self.symm.trans hc.self
          exact .inr hjl
        · exact .inr (Join.beq_trans ha.join hb.join hc.join hjl hlo)
  | .select i q, b, c, ha, hb, hc, h, h' => by
      obtain ⟨k, r, rfl, hqr⟩ := View.beq_select.mp h
      obtain ⟨m, p, rfl, hrp⟩ := View.beq_select.mp h'
      refine View.beq_select.mpr ⟨m, p, rfl, ?_⟩
      rcases hqr with rfl | hqr
      · obtain rfl : q = r := ha.self.symm.trans hb.self
        exact hrp
      · rcases hrp with rfl | hrp
        · obtain rfl : r = p := hb.self.symm.trans hc.self
          exact .inr hqr
        · exact .inr (Select.beq_trans ha.select hb.select hc.select hqr hrp)
termination_by structural a => a

theorem Join.beq_trans : ∀ {j l o : Join}, j.Throughout N.Holds → l.Throughout N.Holds →
    o.Throughout N.Holds → j.beq l = true → l.beq o = true → j.beq o = true
  | ⟨_, _, _, _⟩, l, o, hj, hl, ho, h, h' => by
      obtain ⟨hn, hs, ht, hp⟩ := Join.beq_iff.mp h
      obtain ⟨hn', hs', ht', hp'⟩ := Join.beq_iff.mp h'
      exact Join.beq_iff.mpr ⟨BEq.trans hn hn', View.beq_trans hj.source hl.source ho.source hs hs',
        View.beq_trans hj.target hl.target ho.target ht ht',
        Expr.beq_trans hj.predicate hl.predicate ho.predicate hp hp'⟩
termination_by structural a => a

theorem Select.beq_trans : ∀ {q r p : Select}, q.Throughout N.Holds → r.Throughout N.Holds →
    p.Throughout N.Holds → q.beq r = true → r.beq p = true → q.beq p = true
  | ⟨_, _, _, _, _, _, _, _⟩, r, p, hq, hr, hp, h, h' => by
      obtain ⟨hi, hf, hw, hh, hg⟩ := Select.beq_iff.mp h
      obtain ⟨hi', hf', hw', hh', hg'⟩ := Select.beq_iff.mp h'
      obtain ⟨qf, -, qw, qh, qg, -⟩ := Select.throughout_iff.mp hq
      obtain ⟨rf, -, rw, rh, rg, -⟩ := Select.throughout_iff.mp hr
      obtain ⟨pf, -, pw, ph, pg, -⟩ := Select.throughout_iff.mp hp
      exact Select.beq_iff.mpr ⟨hi.trans hi',
        Source.beqAll_trans (fun x hx => (qf x hx).1) (fun x hx => (rf x hx).1)
          (fun x hx => (pf x hx).1) hf hf',
        Condition.beqAll_trans qw rw pw hw hw', Condition.beqAll_trans qh rh ph hh hh',
        Condition.beqAll_trans qg rg pg hg hg'⟩
termination_by structural a => a

theorem Source.beqAll_trans : ∀ {f g k : List Source}, (∀ x ∈ f, x.view.Throughout N.Holds) →
    (∀ x ∈ g, x.view.Throughout N.Holds) → (∀ x ∈ k, x.view.Throughout N.Holds) →
      Source.beqAll f g = true → Source.beqAll g k = true → Source.beqAll f k = true
  | [], _, _, _, _, _, h, h' => by
      obtain rfl := Source.beqAll_nil.mp h
      exact h'
  | ⟨v, _, _, _⟩ :: f, _, _, ha, hb, hc, h, h' => by
      obtain ⟨b, g, rfl, hv, hl, hf⟩ := Source.beqAll_cons.mp h
      obtain ⟨c, k, rfl, hv', hl', hg⟩ := Source.beqAll_cons.mp h'
      rw [List.forall_mem_cons] at ha hb hc
      exact Source.beqAll_cons.mpr ⟨c, k, rfl, View.beq_trans ha.1 hb.1 hc.1 hv hv', hl.trans hl',
        Source.beqAll_trans ha.2 hb.2 hc.2 hf hg⟩
termination_by structural a => a

theorem Condition.beqAll_trans : ∀ {as bs cs : List Condition}, (∀ x ∈ as, x.expr.Throughout N.Holds) →
    (∀ x ∈ bs, x.expr.Throughout N.Holds) → (∀ x ∈ cs, x.expr.Throughout N.Holds) →
      Condition.beqAll as bs = true → Condition.beqAll bs cs = true → Condition.beqAll as cs = true
  | [], _, _, _, _, _, h, h' => by
      obtain rfl := Condition.beqAll_nil.mp h
      exact h'
  | ⟨e, _⟩ :: as, _, _, ha, hb, hc, h, h' => by
      obtain ⟨b, bs, rfl, hab, has⟩ := Condition.beqAll_cons.mp h
      obtain ⟨c, cs, rfl, hbc, hbs⟩ := Condition.beqAll_cons.mp h'
      rw [List.forall_mem_cons] at ha hb hc
      exact Condition.beqAll_cons.mpr ⟨c, cs, rfl, Expr.beq_trans ha.1 hb.1 hc.1 hab hbc,
        Condition.beqAll_trans ha.2 hb.2 hc.2 has hbs⟩
termination_by structural a => a

end

/-! Equal views are related to the same views. -/

namespace View

variable {a b c : View}

theorem beq_comm (a b : View) : a.beq b = b.beq a := Bool.eq_iff_iff.mpr ⟨beq_symm, beq_symm⟩

theorem beq_congr_left (ha : a.Throughout N.Holds) (hb : b.Throughout N.Holds)
    (hc : c.Throughout N.Holds) (h : a.beq b = true) : a.beq c = b.beq c :=
  Bool.eq_iff_iff.mpr ⟨beq_trans hb ha hc (beq_symm h), beq_trans ha hb hc h⟩

theorem compatible_comm (a b : View) : a.compatible b = b.compatible a := by
  rw [compatible, compatible, Bool.or_assoc, Bool.or_assoc, Bool.or_comm (a.inherits b)]
  exact congrArg (· || (b.inherits a || a.inherits b)) (beq_comm a b)

theorem isJoin_of_beq (h : a.beq b = true) : a.isJoin = b.isJoin := by
  cases a with
  | table t =>
      obtain ⟨u, rfl, -⟩ := beq_table.mp h
      rfl
  | concrete m =>
      obtain ⟨n, rfl, -⟩ := beq_concrete.mp h
      rfl
  | join i j =>
      obtain ⟨k, l, rfl, -⟩ := beq_join.mp h
      rfl
  | select i q =>
      obtain ⟨k, r, rfl, -⟩ := beq_select.mp h
      rfl

theorem inherits_select (i : Nat) (q : Select) (p : View) :
    (select i q).inherits p = q.sources.any (·.view.compatible p) := by
  obtain ⟨_, f, _, _, _, _, _, _⟩ := q
  rw [inherits, List.any_subtype (g := fun x => x.view.compatible p) fun _ _ => rfl, List.unattach_attach]

theorem height_lt_select {i : Nat} {q : Select} {x : Source} (h : x ∈ q.sources) :
    x.view.height < (select i q).height := by
  obtain ⟨_, f, _, _, _, _, _, _⟩ := q
  rw [height]
  exact Nat.lt_succ_of_le (Source.height_le_heightAll h)

/-- Views of less than a given height, three together, have the same relations when two are equal. -/
def CongruentBelow (N : Nodes) (n : Nat) : Prop :=
  ∀ a b c : View, a.height + b.height + c.height < n → a.Throughout N.Holds → b.Throughout N.Holds →
    c.Throughout N.Holds → a.beq b = true → a.compatible c = b.compatible c

theorem any_compatible_congr {f g : List Source} (h : Source.beqAll f g = true)
    (hview : ∀ x ∈ f, ∀ y ∈ g, x.view.beq y.view = true → x.view.compatible c = y.view.compatible c) :
    f.any (·.view.compatible c) = g.any (·.view.compatible c) := by
  induction f generalizing g with
  | nil =>
      obtain rfl := Source.beqAll_nil.mp h
      rfl
  | cons x f ih =>
      obtain ⟨y, g, rfl, hxy, -, hf⟩ := Source.beqAll_cons.mp h
      rw [List.any_cons, List.any_cons, hview x List.mem_cons_self y List.mem_cons_self hxy]
      rw [ih hf fun x hx y hy => hview x (List.mem_cons_of_mem _ hx) y (List.mem_cons_of_mem _ hy)]

/-- Equal views inherit from the same views, as what stands behind them is smaller. -/
theorem inherits_congr (ih : CongruentBelow N (a.height + b.height + c.height))
    (ha : a.Throughout N.Holds) (hb : b.Throughout N.Holds) (hc : c.Throughout N.Holds)
    (h : a.beq b = true) : a.inherits c = b.inherits c := by
  cases a with
  | table t =>
      obtain ⟨u, rfl, -⟩ := beq_table.mp h
      rw [inherits, inherits]
      exact beq_congr_left ha hb hc h
  | concrete m =>
      obtain ⟨n, rfl, hmn⟩ := beq_concrete.mp h
      rw [inherits, inherits]
      refine ih _ _ _ ?_ (throughout_table.mpr trivial) (throughout_table.mpr trivial) hc
        (beq_table.mpr ⟨n, rfl, hmn⟩)
      simp only [height]
      omega
  | join i j =>
      obtain ⟨k, l, rfl, hjl⟩ := beq_join.mp h
      rcases hjl with rfl | hjl
      · obtain rfl : j = l := ha.self.symm.trans hb.self
        rfl
      · obtain ⟨_, _, t, _⟩ := j
        obtain ⟨_, _, t', _⟩ := l
        rw [inherits, inherits]
        split
        · exact beq_congr_left ha hb hc h
        · refine ih _ _ _ ?_ ha.join.target hb.join.target hc (Join.beq_iff.mp hjl).2.2.1
          simp only [height]
          omega
  | select i q =>
      obtain ⟨k, r, rfl, hqr⟩ := beq_select.mp h
      rw [inherits_select, inherits_select]
      rcases hqr with rfl | hqr
      · obtain rfl : q = r := ha.self.symm.trans hb.self
        rfl
      · have hqf := (Select.throughout_iff.mp ha.select).1
        have hrf := (Select.throughout_iff.mp hb.select).1
        refine any_compatible_congr (Select.beq_iff.mp hqr).2.1 fun x hx y hy hxy => ?_
        have hxh := height_lt_select (i := i) hx
        have hyh := height_lt_select (i := k) hy
        exact ih _ _ _ (by omega) (hqf x hx).1 (hrf y hy).1 hc hxy

/-- A view inherits from equal views, or from none of them. -/
theorem inherited_congr (ih : CongruentBelow N (a.height + b.height + c.height))
    (ha : a.Throughout N.Holds) (hb : b.Throughout N.Holds) (hc : c.Throughout N.Holds)
    (h : a.beq b = true) : c.inherits a = c.inherits b := by
  have hbeq : c.beq a = c.beq b := by
    rw [beq_comm c a, beq_comm c b]
    exact beq_congr_left ha hb hc h
  cases c with
  | table t =>
      rw [inherits, inherits]
      exact hbeq
  | concrete m =>
      rw [inherits, inherits, compatible_comm _ a, compatible_comm _ b]
      refine ih _ _ _ ?_ ha hb (throughout_table.mpr trivial) h
      simp only [height]
      omega
  | join i j =>
      obtain ⟨_, _, t, _⟩ := j
      rw [inherits, inherits, isJoin_of_beq h, compatible_comm t a, compatible_comm t b]
      split
      · exact hbeq
      · refine ih _ _ _ ?_ ha hb hc.join.target h
        simp only [height]
        omega
  | select i q =>
      rw [inherits_select, inherits_select, Bool.eq_iff_iff, List.any_eq_true, List.any_eq_true]
      refine exists_congr fun x => and_congr_right fun hx => ?_
      have hxh := height_lt_select (i := i) hx
      rw [compatible_comm x.view a, compatible_comm x.view b,
        ih _ _ _ (by omega) ha hb ((Select.throughout_iff.mp hc.select).1 x hx).1 h]

theorem congruentBelow (N : Nodes) : ∀ n, CongruentBelow N n
  | 0 => fun _ _ _ h => absurd h (Nat.not_lt_zero _)
  | n + 1 => fun a b c hn ha hb hc h => by
      have ih : CongruentBelow N (a.height + b.height + c.height) := fun a' b' c' hlt =>
        congruentBelow N n a' b' c' (by omega)
      rw [compatible, compatible, inherits_congr ih ha hb hc h, inherited_congr ih ha hb hc h]
      exact congrArg (· || b.inherits c || c.inherits b) (beq_congr_left ha hb hc h)

theorem compatible_congr (ha : a.Throughout N.Holds) (hb : b.Throughout N.Holds)
    (hc : c.Throughout N.Holds) (h : a.beq b = true) : a.compatible c = b.compatible c :=
  congruentBelow N _ _ _ _ (Nat.lt_succ_self _) ha hb hc h

end View

/-! Equal views are found under the same mappings. -/

namespace Scope

variable {a b : View} {sc : Scope}

theorem resolve_toOption (sc : Scope) (v : View) :
    (sc.resolve v).toOption = sc.find? (·.view.compatible v) := by
  rw [resolve]
  split
  case h_1 m hm => rw [hm]; rfl
  case h_2 hm => rw [hm]; rfl

theorem resolveExact_toOption (sc : Scope) (v : View) :
    (sc.resolveExact v).toOption = sc.find? (isMappingOf · v) := by
  rw [resolveExact]
  split
  case h_1 m hm => rw [hm]; rfl
  case h_2 hm => rw [hm]; rfl

theorem resolvePinned_toOption (sc : Scope) (v : View) :
    (sc.resolvePinned v).toOption = (sc.find? (·.view == v)).or (sc.resolve v).toOption := by
  rw [resolvePinned]
  split
  case h_1 m hm => rw [hm]; rfl
  case h_2 hm => rw [hm]; rfl

theorem isMappingOf_congr {m : Mapping} (hm : m.view.Throughout N.Holds) (ha : a.Throughout N.Holds)
    (hb : b.Throughout N.Holds) (h : a.beq b = true) : isMappingOf m a = isMappingOf m b := by
  have hbeq : ∀ {v : View}, v.Throughout N.Holds → (v == a) = (v == b) := fun {v} hv => by
    show v.beq a = v.beq b
    rw [View.beq_comm v a, View.beq_comm v b]
    exact View.beq_congr_left ha hb hv h
  rw [isMappingOf, isMappingOf]
  split
  case h_1 i j hj => rw [hbeq hm, hbeq (hj ▸ hm).join.target]
  case h_2 => exact hbeq hm

end Scope

theorem View.eq_table_of_height : ∀ {v : View}, v.height = 0 → ∃ t, v = .table t
  | .table t, _ => ⟨t, rfl⟩
  | .concrete _, h => nomatch h
  | .join _ ⟨_, _, _, _⟩, h => nomatch h
  | .select _ ⟨_, _, _, _, _, _, _, _⟩, h => nomatch h

theorem mem_inside_peopleNames {v : View} (h : v ∈ peopleNames.inside) : ∃ t, v = .table t := by
  have htables : peopleNames.inside.all (fun v => v.height == 0) = true := by decide +kernel
  exact View.eq_table_of_height (eq_of_beq (List.all_eq_true.mp htables v h))

/-- The only node inside a node of the names of the people is this node. -/
theorem peopleNames_holds {i : Nat} (h : N.select i = peopleNames) :
    (View.select i peopleNames).Throughout N.Holds := by
  refine View.throughout_select.mpr ⟨h, fun v hv => ?_⟩
  obtain ⟨t, rfl⟩ := mem_inside_peopleNames hv
  trivial

/-- Where one mark is one node, equality is symmetric and transitive, and equal views have the same
relations to every view and resolve to the same mapping in every scope. -/
theorem Nodes.equality_coherent (N : Nodes) :
    PartialEquivBEq {e : Expr // e.Throughout N.Holds} ∧ PartialEquivBEq {v : View // v.Throughout N.Holds}
      ∧ PartialEquivBEq {j : Join // j.Throughout N.Holds}
      ∧ PartialEquivBEq {q : Select // q.Throughout N.Holds}
      ∧ ∀ a b : View, a.Throughout N.Holds → b.Throughout N.Holds → (a == b) = true →
        (∀ c : View, c.Throughout N.Holds → a.inherits c = b.inherits c ∧ c.inherits a = c.inherits b
            ∧ a.compatible c = b.compatible c ∧ c.compatible a = c.compatible b)
          ∧ ∀ sc : Scope, (∀ m ∈ sc, m.view.Throughout N.Holds) →
            (sc.resolve a).toOption = (sc.resolve b).toOption
              ∧ (sc.resolvePinned a).toOption = (sc.resolvePinned b).toOption
              ∧ (sc.resolveExact a).toOption = (sc.resolveExact b).toOption := by
  refine ⟨⟨Expr.beq_symm, ?_⟩, ⟨View.beq_symm, ?_⟩, ⟨Join.beq_symm, ?_⟩, ⟨Select.beq_symm, ?_⟩, ?_⟩
  · exact fun {a b c} => Expr.beq_trans a.2 b.2 c.2
  · exact fun {a b c} => View.beq_trans a.2 b.2 c.2
  · exact fun {a b c} => Join.beq_trans a.2 b.2 c.2
  · exact fun {a b c} => Select.beq_trans a.2 b.2 c.2
  intro a b ha hb h
  have hcompatible : ∀ {c : View}, c.Throughout N.Holds → a.compatible c = b.compatible c :=
    fun hc => View.compatible_congr ha hb hc h
  have hbelow := View.congruentBelow N
  constructor
  · intro c hc
    refine ⟨View.inherits_congr (hbelow _) ha hb hc h, View.inherited_congr (hbelow _) ha hb hc h,
      hcompatible hc, ?_⟩
    rw [View.compatible_comm c a, View.compatible_comm c b, hcompatible hc]
  · intro sc hsc
    have hresolve : (Scope.resolve sc a).toOption = (Scope.resolve sc b).toOption := by
      rw [Scope.resolve_toOption, Scope.resolve_toOption]
      refine List.find?_congr fun m hm => ?_
      rw [View.compatible_comm m.view a, View.compatible_comm m.view b, hcompatible (hsc m hm)]
    refine ⟨hresolve, ?_, ?_⟩
    · rw [Scope.resolvePinned_toOption, Scope.resolvePinned_toOption, hresolve]
      refine congrArg (Option.or · _) (List.find?_congr fun m hm => ?_)
      show m.view.beq a = m.view.beq b
      rw [View.beq_comm m.view a, View.beq_comm m.view b]
      exact View.beq_congr_left ha hb (hsc m hm) h
    · rw [Scope.resolveExact_toOption, Scope.resolveExact_toOption]
      exact List.find?_congr fun m hm => Scope.isMappingOf_congr (hsc m hm) ha hb h

/-- Two nodes of one statement, seen from a table and from the scope of a statement over a third one. -/
theorem peopleNames_nodes_coherent : ∃ (N : Nodes) (a b : View), a.Throughout N.Holds
    ∧ b.Throughout N.Holds ∧ (a == b) = true ∧ a.compatible (.table people) = b.compatible (.table people)
    ∧ peopleNames.over.scope.length = 1
    ∧ (Scope.resolveExact peopleNames.over.scope a).toOption
      = (Scope.resolveExact peopleNames.over.scope b).toOption := by
  let N : Nodes := ⟨fun _ => ⟨none, .table people, .table people, .literal .null⟩, fun _ => peopleNames⟩
  have hnode : ∀ i, (View.select i peopleNames).Throughout N.Holds := fun i => peopleNames_holds rfl
  have hscope : ∀ m ∈ peopleNames.over.scope, m.view.Throughout N.Holds := by
    intro m hm
    obtain rfl := List.mem_singleton.mp (show m ∈ [(⟨0, .select 7 peopleNames, "a"⟩ : Mapping)] from hm)
    exact hnode 7
  have hequal : (View.select 0 peopleNames == View.select 1 peopleNames) = true := by decide +kernel
  obtain ⟨-, -, -, -, hcongr⟩ := N.equality_coherent
  obtain ⟨hviews, hscopes⟩ := hcongr _ _ (hnode 0) (hnode 1) hequal
  have hpeople : (View.table people).Throughout N.Holds := View.throughout_table.mpr trivial
  exact ⟨N, _, _, hnode 0, hnode 1, hequal, (hviews _ hpeople).2.2.1, by decide +kernel,
    (hscopes _ hscope).2.2⟩

-- a NaN differs from itself: equality is not reflexive
example : (Expr.literal (.double ⟨0x7ff8000000000000⟩) == Expr.literal (.double ⟨0x7ff8000000000000⟩))
    = false := by decide +kernel

end SqlCompose
