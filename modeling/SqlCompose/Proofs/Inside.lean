import SqlCompose.Query.Basic

/-!
The views inside an expression, a view or a statement: those it is made of, at every depth. A predicate
holds throughout such a part when it holds of all views inside it. What a scoped expression was given as a
scope is not a part of it, and what a clause has captured is a part of the scope of its statement.
-/

namespace SqlCompose

mutual

/-- The views inside an expression. The owner of a column counts as a view. -/
def Expr.inside : Expr → List View
  | .literal _ => []
  | .apply _ args => Expr.insideAll args
  | .column c => [c.view]
  | .star v => v.inside
  | .projected v _ d => v.inside ++ d.inside
  | .view v => v.inside
  | .pinned e v => e.inside ++ v.inside
  | .within _ e => e.inside

/-- The views inside some expressions. -/
def Expr.insideAll : List Expr → List View
  | [] => []
  | e :: es => e.inside ++ Expr.insideAll es

/-- The views inside a view, and the view itself. -/
def View.inside : View → List View
  | .table t => [.table t]
  | .concrete m => [.concrete m]
  | .join i ⟨n, s, t, p⟩ => .join i ⟨n, s, t, p⟩ :: (s.inside ++ t.inside ++ p.inside)
  | .select i q => .select i q :: q.inside

/-- The views inside the sources, the clauses and the scope of a statement. -/
def Select.inside : Select → List View
  | ⟨_, f, p, w, h, g, _, sc⟩ => Source.insideAll f ++ Projection.insideAll p ++ Condition.insideAll w
      ++ Condition.insideAll h ++ Condition.insideAll g ++ Mapping.insideAll sc

/-- The views inside a FROM list. -/
def Source.insideAll : List Source → List View
  | [] => []
  | ⟨v, _, _, none⟩ :: f => v.inside ++ Source.insideAll f
  | ⟨v, _, _, some e⟩ :: f => v.inside ++ e.inside ++ Source.insideAll f

/-- The views inside some projections. -/
def Projection.insideAll : List Projection → List View
  | [] => []
  | ⟨e, _, _⟩ :: ps => e.inside ++ Projection.insideAll ps

/-- The views inside some conditions. -/
def Condition.insideAll : List Condition → List View
  | [] => []
  | ⟨e, _⟩ :: cs => e.inside ++ Condition.insideAll cs

/-- The views inside a scope. -/
def Mapping.insideAll : List Mapping → List View
  | [] => []
  | ⟨_, v, _⟩ :: sc => v.inside ++ Mapping.insideAll sc

end

/-! Membership in the lists of views. -/

variable {v : View}

theorem Expr.mem_insideAll : ∀ {es : List Expr}, v ∈ insideAll es ↔ ∃ e ∈ es, v ∈ e.inside
  | [] => by simp [insideAll]
  | e :: es => by simp [insideAll, mem_insideAll]

theorem Source.mem_insideAll : ∀ {f : List Source}, v ∈ insideAll f ↔
    ∃ src ∈ f, v ∈ src.view.inside ∨ ∃ e, src.on = some e ∧ v ∈ e.inside
  | [] => by simp [insideAll]
  | ⟨w, _, _, none⟩ :: f => by simp [insideAll, mem_insideAll]
  | ⟨w, _, _, some e⟩ :: f => by simp [insideAll, mem_insideAll, or_assoc]

theorem Projection.mem_insideAll : ∀ {ps : List Projection}, v ∈ insideAll ps ↔
    ∃ p ∈ ps, v ∈ p.definition.inside
  | [] => by simp [insideAll]
  | ⟨e, _, _⟩ :: ps => by simp [insideAll, mem_insideAll]

theorem Condition.mem_insideAll : ∀ {cs : List Condition}, v ∈ insideAll cs ↔
    ∃ k ∈ cs, v ∈ k.expr.inside
  | [] => by simp [insideAll]
  | ⟨e, _⟩ :: cs => by simp [insideAll, mem_insideAll]

theorem Mapping.mem_insideAll : ∀ {sc : List Mapping}, v ∈ insideAll sc ↔ ∃ m ∈ sc, v ∈ m.view.inside
  | [] => by simp [insideAll]
  | ⟨_, w, _⟩ :: sc => by simp [insideAll, mem_insideAll]

theorem Select.mem_inside {s : Select} : v ∈ s.inside ↔
    (∃ src ∈ s.sources, v ∈ src.view.inside ∨ ∃ e, src.on = some e ∧ v ∈ e.inside)
      ∨ (∃ p ∈ s.projections, v ∈ p.definition.inside) ∨ (∃ k ∈ s.filters, v ∈ k.expr.inside)
      ∨ (∃ k ∈ s.having, v ∈ k.expr.inside) ∨ (∃ k ∈ s.grouping, v ∈ k.expr.inside)
      ∨ ∃ m ∈ s.scope, v ∈ m.view.inside := by
  obtain ⟨i, f, p, w, h, g, a, sc⟩ := s
  simp only [Select.inside, List.mem_append, Source.mem_insideAll, Projection.mem_insideAll,
    Condition.mem_insideAll, Mapping.mem_insideAll, or_assoc]

/-! What is inside a view that is inside a part, is inside that part. -/

mutual

theorem Expr.inside_trans {w : View} (hw : w ∈ v.inside) : ∀ {e : Expr}, v ∈ e.inside → w ∈ e.inside
  | .literal _, h => nomatch h
  | .apply _ _, h => Expr.insideAll_trans hw h
  | .column c, h => by
      rw [Expr.inside, List.mem_singleton] at h
      rwa [h] at hw
  | .star _, h => View.inside_trans hw h
  | .projected _ _ _, h => by
      rw [Expr.inside, List.mem_append] at h ⊢
      exact h.imp (View.inside_trans hw) (Expr.inside_trans hw)
  | .view _, h => View.inside_trans hw h
  | .pinned _ _, h => by
      rw [Expr.inside, List.mem_append] at h ⊢
      exact h.imp (Expr.inside_trans hw) (View.inside_trans hw)
  | .within _ e, h => Expr.inside_trans (e := e) hw h

theorem Expr.insideAll_trans {w : View} (hw : w ∈ v.inside) :
    ∀ {es : List Expr}, v ∈ Expr.insideAll es → w ∈ Expr.insideAll es
  | [], h => nomatch h
  | _ :: _, h => by
      rw [Expr.insideAll, List.mem_append] at h ⊢
      exact h.imp (Expr.inside_trans hw) (Expr.insideAll_trans hw)

theorem View.inside_trans {w : View} (hw : w ∈ v.inside) : ∀ {u : View}, v ∈ u.inside → w ∈ u.inside
  | .table _, h => by rwa [List.mem_singleton.mp h] at hw
  | .concrete _, h => by rwa [List.mem_singleton.mp h] at hw
  | .join _ ⟨_, _, _, _⟩, h => by
      rcases List.mem_cons.mp h with rfl | h
      · exact hw
      · rw [List.mem_append, List.mem_append] at h
        refine List.mem_cons_of_mem _ ?_
        rw [List.mem_append, List.mem_append]
        exact h.imp (Or.imp (View.inside_trans hw) (View.inside_trans hw)) (Expr.inside_trans hw)
  | .select _ _, h => by
      rcases List.mem_cons.mp h with rfl | h
      · exact hw
      · exact List.mem_cons_of_mem _ (Select.inside_trans hw h)

theorem Select.inside_trans {w : View} (hw : w ∈ v.inside) :
    ∀ {s : Select}, v ∈ s.inside → w ∈ s.inside
  | ⟨_, _, _, _, _, _, _, _⟩, h => by
      simp only [Select.inside, List.mem_append] at h ⊢
      exact h.imp (Or.imp (Or.imp (Or.imp (Or.imp (Source.insideAll_trans hw)
        (Projection.insideAll_trans hw)) (Condition.insideAll_trans hw)) (Condition.insideAll_trans hw))
        (Condition.insideAll_trans hw)) (Mapping.insideAll_trans hw)

theorem Source.insideAll_trans {w : View} (hw : w ∈ v.inside) :
    ∀ {f : List Source}, v ∈ Source.insideAll f → w ∈ Source.insideAll f
  | [], h => nomatch h
  | ⟨_, _, _, none⟩ :: _, h => by
      rw [Source.insideAll, List.mem_append] at h ⊢
      exact h.imp (View.inside_trans hw) (Source.insideAll_trans hw)
  | ⟨_, _, _, some _⟩ :: _, h => by
      rw [Source.insideAll, List.mem_append, List.mem_append] at h ⊢
      exact h.imp (Or.imp (View.inside_trans hw) (Expr.inside_trans hw)) (Source.insideAll_trans hw)

theorem Projection.insideAll_trans {w : View} (hw : w ∈ v.inside) :
    ∀ {ps : List Projection}, v ∈ Projection.insideAll ps → w ∈ Projection.insideAll ps
  | [], h => nomatch h
  | ⟨_, _, _⟩ :: _, h => by
      rw [Projection.insideAll, List.mem_append] at h ⊢
      exact h.imp (Expr.inside_trans hw) (Projection.insideAll_trans hw)

theorem Condition.insideAll_trans {w : View} (hw : w ∈ v.inside) :
    ∀ {cs : List Condition}, v ∈ Condition.insideAll cs → w ∈ Condition.insideAll cs
  | [], h => nomatch h
  | ⟨_, _⟩ :: _, h => by
      rw [Condition.insideAll, List.mem_append] at h ⊢
      exact h.imp (Expr.inside_trans hw) (Condition.insideAll_trans hw)

theorem Mapping.insideAll_trans {w : View} (hw : w ∈ v.inside) :
    ∀ {sc : List Mapping}, v ∈ Mapping.insideAll sc → w ∈ Mapping.insideAll sc
  | [], h => nomatch h
  | ⟨_, _, _⟩ :: _, h => by
      rw [Mapping.insideAll, List.mem_append] at h ⊢
      exact h.imp (View.inside_trans hw) (Mapping.insideAll_trans hw)

end

/-! What holds of all views inside. -/

/-- A predicate holds of all views inside an expression. -/
def Expr.Throughout (P : View → Prop) (e : Expr) : Prop := ∀ v ∈ e.inside, P v

/-- A predicate holds of all views inside a view. -/
def View.Throughout (P : View → Prop) (v : View) : Prop := ∀ w ∈ v.inside, P w

/-- A predicate holds of all views inside a statement. -/
def Select.Throughout (P : View → Prop) (s : Select) : Prop := ∀ v ∈ s.inside, P v

variable {P : View → Prop}

namespace Expr

@[simp]
theorem throughout_literal (v : Literal) : (literal v).Throughout P := fun _ h => nomatch h

@[simp]
theorem throughout_apply {op : Operator} {args : List Expr} :
    (apply op args).Throughout P ↔ ∀ e ∈ args, e.Throughout P := by
  simp only [Throughout, inside, mem_insideAll]
  exact ⟨fun h e he v hv => h v ⟨e, he, hv⟩, fun h v ⟨e, he, hv⟩ => h e he v hv⟩

@[simp]
theorem throughout_column {c : Column} : (column c).Throughout P ↔ P c.view :=
  List.forall_mem_singleton

@[simp]
theorem throughout_star {v : View} : (star v).Throughout P ↔ v.Throughout P := Iff.rfl

@[simp]
theorem throughout_projected {v : View} {n : Option String} {d : Expr} :
    (projected v n d).Throughout P ↔ v.Throughout P ∧ d.Throughout P := List.forall_mem_append

@[simp]
theorem throughout_view {v : View} : (view v).Throughout P ↔ v.Throughout P := Iff.rfl

@[simp]
theorem throughout_pinned {e : Expr} {v : View} :
    (pinned e v).Throughout P ↔ e.Throughout P ∧ v.Throughout P := List.forall_mem_append

@[simp]
theorem throughout_within {sc : Scope} {e : Expr} : (within sc e).Throughout P ↔ e.Throughout P :=
  Iff.rfl

end Expr

namespace View

@[simp]
theorem throughout_table {t : Table} : (table t).Throughout P ↔ P (table t) :=
  List.forall_mem_singleton

@[simp]
theorem throughout_concrete {m : Table} : (concrete m).Throughout P ↔ P (concrete m) :=
  List.forall_mem_singleton

@[simp]
theorem throughout_join {i : Nat} {j : Join} : (join i j).Throughout P ↔
    P (join i j) ∧ j.source.Throughout P ∧ j.target.Throughout P ∧ j.predicate.Throughout P := by
  obtain ⟨n, s, t, p⟩ := j
  simp only [Throughout, Expr.Throughout, inside, List.forall_mem_cons, List.forall_mem_append, and_assoc]

@[simp]
theorem throughout_select {i : Nat} {q : Select} :
    (select i q).Throughout P ↔ P (select i q) ∧ q.Throughout P := List.forall_mem_cons

theorem mem_inside_self : ∀ v : View, v ∈ v.inside
  | table _ => List.mem_cons_self
  | concrete _ => List.mem_cons_self
  | join _ ⟨_, _, _, _⟩ => List.mem_cons_self
  | select _ _ => List.mem_cons_self

theorem Throughout.self {v : View} (h : v.Throughout P) : P v := h v v.mem_inside_self

end View

namespace Select

variable {s : Select}

/-- A predicate holds throughout the views and the ON expressions of the sources, the clauses and the
scope. -/
theorem throughout_iff : s.Throughout P ↔
    (∀ src ∈ s.sources, src.view.Throughout P ∧ ∀ e, src.on = some e → e.Throughout P)
      ∧ (∀ p ∈ s.projections, p.definition.Throughout P) ∧ (∀ k ∈ s.filters, k.expr.Throughout P)
      ∧ (∀ k ∈ s.having, k.expr.Throughout P) ∧ (∀ k ∈ s.grouping, k.expr.Throughout P)
      ∧ ∀ m ∈ s.scope, m.view.Throughout P := by
  simp only [Throughout, View.Throughout, Expr.Throughout, mem_inside]
  constructor
  · intro h
    exact ⟨fun src hsrc => ⟨fun v hv => h v (.inl ⟨src, hsrc, .inl hv⟩),
        fun e he v hv => h v (.inl ⟨src, hsrc, .inr ⟨e, he, hv⟩⟩)⟩,
      fun p hp v hv => h v (.inr (.inl ⟨p, hp, hv⟩)),
      fun k hk v hv => h v (.inr (.inr (.inl ⟨k, hk, hv⟩))),
      fun k hk v hv => h v (.inr (.inr (.inr (.inl ⟨k, hk, hv⟩)))),
      fun k hk v hv => h v (.inr (.inr (.inr (.inr (.inl ⟨k, hk, hv⟩))))),
      fun m hm v hv => h v (.inr (.inr (.inr (.inr (.inr ⟨m, hm, hv⟩)))))⟩
  · rintro ⟨hf, hp, hw, hh, hg, hs⟩ v (⟨src, hsrc, hv | ⟨e, he, hv⟩⟩ | ⟨p, hp', hv⟩ | ⟨k, hk, hv⟩
      | ⟨k, hk, hv⟩ | ⟨k, hk, hv⟩ | ⟨m, hm, hv⟩)
    · exact (hf src hsrc).1 v hv
    · exact (hf src hsrc).2 e he v hv
    · exact hp p hp' v hv
    · exact hw k hk v hv
    · exact hh k hk v hv
    · exact hg k hk v hv
    · exact hs m hm v hv

end Select

end SqlCompose
