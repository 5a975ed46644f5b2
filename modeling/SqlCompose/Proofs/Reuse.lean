import SqlCompose.Proofs.Texts

/-!
What becomes of an expression that is projected. It gets a clause of its own unless a clause covers it, that
is, has an equal definition whose leaves have the same aliases. Equality looks through references and at
nested statements from afar, so a clause may cover an expression that prints otherwise, and then the
expression is not projected at all. A clause that covers an expression and prints otherwise differs from it
in one of a few places, which are listed here.
-/

namespace SqlCompose

mutual

/-- A place where equal expressions print differently: two zeros, two leaves with different names, a
reference in the place of its definition, two values with different texts, or an expression with a scope of
its own. -/
inductive Expr.Differs (c : Catalog) (s s' : Scope) : Expr → Expr → Prop
  | zeros {v w : Literal} (h : v.sqlText ≠ w.sqlText) : Expr.Differs c s s' (.literal v) (.literal w)
  | names {e b : Expr} (he : e.isLeaf = true) (hb : b.isLeaf = true)
      (h : e.leafText? = none ∨ e.leafText? ≠ b.leafText?) : Expr.Differs c s s' e b
  | reference {e b : Expr} (h : e.isLeaf ≠ b.isLeaf) : Expr.Differs c s s' e b
  | values {v w : View} (h : Piece.textAll (v.pieces c s) ≠ Piece.textAll (w.pieces c s')) :
      Expr.Differs c s s' (.view v) (.view w)
  | scoped {e b : Expr} (h : (∃ sc x, e = .within sc x) ∨ ∃ sc x, b = .within sc x) :
      Expr.Differs c s s' e b
  | apply (op : Operator) {as bs : List Expr} (h : Expr.AnyDiffers c s s' as bs) :
      Expr.Differs c s s' (.apply op as) (.apply op bs)

/-- One of the arguments differs from the one in its place. -/
inductive Expr.AnyDiffers (c : Catalog) (s s' : Scope) : List Expr → List Expr → Prop
  | head {e b : Expr} (es bs : List Expr) (h : Expr.Differs c s s' e b) :
      Expr.AnyDiffers c s s' (e :: es) (b :: bs)
  | tail (e b : Expr) {es bs : List Expr} (h : Expr.AnyDiffers c s s' es bs) :
      Expr.AnyDiffers c s s' (e :: es) (b :: bs)

end

variable {c : Catalog} {s s' : Scope}

theorem View.precedence_of_beq {v w : View} (h : v.beq w = true) : v.precedence = w.precedence := by
  cases v <;> cases w <;> first | rfl | simp [View.beq] at h

theorem Expr.alike_or_differs_leaf {e b : Expr} (he : e.isLeaf = true ∨ b.isLeaf = true) :
    e.Alike c s s' b ∨ e.Differs c s s' b := by
  by_cases hleaf : e.isLeaf = b.isLeaf
  · have hb : b.isLeaf = true := he.elim (fun h => hleaf ▸ h) id
    cases hx : e.leafText? with
    | none => exact Or.inr (.names (hleaf.trans hb) hb (Or.inl hx))
    | some x =>
        by_cases heq : e.leafText? = b.leafText?
        · exact Or.inl (.leaf hx (heq ▸ hx))
        · exact Or.inr (.names (hleaf.trans hb) hb (Or.inr heq))
  · exact Or.inr (.reference hleaf)

mutual

/-- Equal expressions are alike, or there is a place where they differ. -/
theorem Expr.alike_or_differs : ∀ {e b : Expr}, e.beq b = true → e.Alike c s s' b ∨ e.Differs c s s' b
  | .column col, b, _ => alike_or_differs_leaf (Or.inl rfl)
  | .star v, b, _ => alike_or_differs_leaf (Or.inl rfl)
  | .projected v n d, b, _ => alike_or_differs_leaf (Or.inl rfl)
  | .pinned e v, b, _ => alike_or_differs_leaf (Or.inl rfl)
  | .within sc e, b, _ => Or.inr (.scoped (Or.inl ⟨sc, e, rfl⟩))
  | e, .column col, _ => alike_or_differs_leaf (Or.inr rfl)
  | e, .star v, _ => alike_or_differs_leaf (Or.inr rfl)
  | e, .projected v n d, _ => alike_or_differs_leaf (Or.inr rfl)
  | e, .pinned b v, _ => alike_or_differs_leaf (Or.inr rfl)
  | e, .within sc b, _ => Or.inr (.scoped (Or.inr ⟨sc, b, rfl⟩))
  | .literal v, .literal w, _ => by
      by_cases htext : v.sqlText = w.sqlText
      · exact Or.inl (.literal htext)
      · exact Or.inr (.zeros htext)
  | .apply op as, .apply op' bs, h => by
      simp only [Expr.beq, core, Bool.and_eq_true, beq_iff_eq] at h
      obtain ⟨rfl, hargs⟩ := h
      rcases allAlike_or_anyDiffers hargs with halike | hdiffers
      · exact Or.inl (.apply op halike)
      · exact Or.inr (.apply op hdiffers)
  | .view v, .view w, h => by
      by_cases htext : Piece.textAll (v.pieces c s) = Piece.textAll (w.pieces c s')
      · rw [Expr.beq] at h
        exact Or.inl (.value (View.precedence_of_beq h) htext)
      · exact Or.inr (.values htext)
  | .literal v, .apply op bs, h => by simp [Expr.beq, core] at h
  | .literal v, .view w, h => by simp [Expr.beq, core] at h
  | .apply op as, .literal w, h => by simp [Expr.beq, core] at h
  | .apply op as, .view w, h => by simp [Expr.beq, core] at h
  | .view v, .literal w, h => by simp [Expr.beq, core] at h
  | .view v, .apply op bs, h => by simp [Expr.beq, core] at h

theorem Expr.allAlike_or_anyDiffers : ∀ {es bs : List Expr}, Expr.beqAll es bs = true →
    Expr.AllAlike c s s' es bs ∨ Expr.AnyDiffers c s s' es bs
  | [], [], _ => Or.inl .nil
  | [], b :: bs, h => by simp [Expr.beqAll] at h
  | e :: es, [], h => by simp [Expr.beqAll] at h
  | e :: es, b :: bs, h => by
      rw [Expr.beqAll, Bool.and_eq_true] at h
      rcases alike_or_differs h.1 with hhead | hdiffers
      · rcases allAlike_or_anyDiffers h.2 with htail | hdiffers
        · exact Or.inl (.cons hhead htail)
        · exact Or.inr (.tail e b hdiffers)
      · exact Or.inr (.head es bs hdiffers)

end

namespace Select

variable {s t u : Select} {e a : Expr} {label : Option String} {c c' : Catalog}

/-- Project an expression under its own name, or under an alias. -/
def projectUnder (s : Select) (e : Expr) : Option String → Build Select
  | none => s.project e
  | some l => s.projectAs e l

theorem addProjection_eq_ok {name : Option String} {explicit : Bool}
    (h : s.addProjection e name explicit c = .ok (u, c')) :
    ∃ t a, s.accept e c = .ok ((t, a), c') ∧
      (((∃ p ∈ t.projections, t.covers a (if explicit then name else none) p = true) ∧ u = t) ∨
        ((∀ p ∈ t.projections, t.covers a (if explicit then name else none) p = false) ∧ ∃ l pool,
          t.aliases.projectionAlias name = (l, pool) ∧
            u = { t with projections := t.projections ++ [⟨a, l, t.scope⟩], aliases := pool })) := by
  obtain ⟨⟨t, a⟩, c₁, ht, h₁⟩ := Build.bind_eq_ok.mp h
  simp only at h₁
  generalize (if explicit = true then name else none) = wanted at h₁ ⊢
  split at h₁
  case isTrue hany =>
      obtain ⟨rfl, rfl⟩ := Prod.mk.inj (Build.pure_eq_ok.mp h₁)
      exact ⟨u, a, ht, Or.inl ⟨List.any_eq_true.mp hany, rfl⟩⟩
  case isFalse hany =>
      obtain ⟨rfl, rfl⟩ := Prod.mk.inj (Build.pure_eq_ok.mp h₁)
      refine ⟨t, a, ht, Or.inr ⟨fun p hp => ?_, _, _, rfl, rfl⟩⟩
      by_contra hcovers
      exact hany (List.any_eq_true.mpr ⟨p, hp, by simpa using hcovers⟩)

theorem projectUnder_eq_ok (h : s.projectUnder e label c = .ok (u, c')) :
    ∃ t a, s.accept e c = .ok ((t, a), c') ∧
      (((∃ p ∈ t.projections, t.covers a label p = true) ∧ u = t) ∨
        ((∀ p ∈ t.projections, t.covers a label p = false) ∧ ∃ l pool,
          u = { t with projections := t.projections ++ [⟨a, l, t.scope⟩], aliases := pool })) := by
  cases label with
  | none =>
      obtain ⟨t, a, ht, hcase⟩ := addProjection_eq_ok (Build.rejecting_eq_ok.mp h)
      exact ⟨t, a, ht, hcase.imp_right fun ⟨hnone, l, pool, _, hu⟩ => ⟨hnone, l, pool, hu⟩⟩
  | some l =>
      obtain ⟨t, a, ht, hcase⟩ := addProjection_eq_ok (Build.rejecting_eq_ok.mp h)
      exact ⟨t, a, ht, hcase.imp_right fun ⟨hnone, l, pool, _, hu⟩ => ⟨hnone, l, pool, hu⟩⟩

theorem covers_iff {p : Projection} : t.covers a label p = true ↔
    (p.definition.beq a = true ∧ (label = none ∨ p.label = label))
      ∧ leafAliases p.definition p.scope = leafAliases a t.scope := by
  simp only [covers, Bool.and_eq_true, Bool.or_eq_true, Option.isNone_iff_eq_none, beq_iff_eq]
  rfl

/-- A clause that covers an expression prints the same, or there is a place where the two differ. -/
theorem text_of_covers {p : Projection} (h : t.covers a label p = true)
    (hp : ∀ m ∈ p.scope, AliasPool.Dotless m.label) (ht : ∀ m ∈ t.scope, AliasPool.Dotless m.label)
    (k : Catalog) :
    p.text k = Piece.textAll (a.pieces k t.scope) ∨ p.definition.Differs k p.scope t.scope a := by
  obtain ⟨⟨hbeq, -⟩, haliases⟩ := covers_iff.mp h
  refine (Expr.alike_or_differs hbeq).imp (fun halike => ?_) id
  have hmatch : Scope.Matches p.scope t.scope p.definition.leaves a.leaves := by
    have hsome := congrArg (List.map Option.isSome) haliases
    simp only [leafAliases, List.map_map] at hsome
    exact hsome
  exact (halike.text_eq_iff hp ht hmatch).mpr haliases

/-- A projected expression is lost exactly if a clause covers it and none prints like it, and then the
clauses that cover it differ from it. -/
theorem Reached.projection_lost_iff (h : s.Reached) (hrun : s.projectUnder e label c = .ok (u, c')) :
    ∃ t a, s.accept e c = .ok ((t, a), c') ∧ ∀ k,
      ((¬ ∃ p ∈ u.projections, p.text k = Piece.textAll (a.pieces k u.scope)) ↔
        (∃ p ∈ s.projections, t.covers a label p = true) ∧
          ∀ p ∈ s.projections, p.text k ≠ Piece.textAll (a.pieces k u.scope)) ∧
      ∀ p ∈ s.projections, t.covers a label p = true →
        p.text k = Piece.textAll (a.pieces k u.scope) ∨ p.definition.Differs k p.scope u.scope a := by
  obtain ⟨t, a, hacc, hcase⟩ := projectUnder_eq_ok hrun
  have haccepts := accept_sound hacc
  have hscope : u.scope = t.scope := by
    rcases hcase with ⟨-, rfl⟩ | ⟨-, l, pool, rfl⟩ <;> rfl
  refine ⟨t, a, hacc, fun k => ⟨?_, ?_⟩⟩
  · rw [← haccepts.projections]
    rcases hcase with ⟨hcovers, rfl⟩ | ⟨hnone, l, pool, rfl⟩
    · simp only [not_exists, not_and]
      exact ⟨fun hlost => ⟨hcovers, hlost⟩, fun hlost => hlost.2⟩
    · constructor
      · intro hlost
        exact absurd ⟨_, List.mem_append_right _ List.mem_cons_self, rfl⟩ hlost
      · rintro ⟨⟨p, hp, hcovers⟩, -⟩
        rw [hnone p hp] at hcovers
        cases hcovers
  · intro p hp hcovers
    rw [hscope]
    refine text_of_covers hcovers (h.dotless_projection hp) ?_ k
    rw [haccepts.scope]
    exact h.dotless

theorem peopleNames_name_kept : ∃ u c' t a, peopleNames.Reached
    ∧ peopleNames.projectUnder (.ofPeople "name") none {} = .ok (u, c')
    ∧ peopleNames.accept (.ofPeople "name") {} = .ok ((t, a), c') ∧ ∀ k,
      ((¬ ∃ p ∈ u.projections, p.text k = Piece.textAll (a.pieces k u.scope)) ↔
        (∃ p ∈ peopleNames.projections, t.covers a none p = true) ∧
          ∀ p ∈ peopleNames.projections, p.text k ≠ Piece.textAll (a.pieces k u.scope)) ∧
      ∀ p ∈ peopleNames.projections, t.covers a none p = true →
        p.text k = Piece.textAll (a.pieces k u.scope) ∨ p.definition.Differs k p.scope u.scope a := by
  have hreached : peopleNames.Reached := .call (.call (.empty 0) _ {}) _ {}
  obtain ⟨⟨u, c'⟩, hrun⟩ := Except.exists_of_isOk
    (show (peopleNames.projectUnder (.ofPeople "name") none {}).isOk = true by decide +kernel)
  obtain ⟨t, a, hacc, hlost⟩ := hreached.projection_lost_iff hrun
  exact ⟨u, c', t, a, hreached, hrun, hacc, hlost⟩

/-- The sum of the revenues of the people. -/
def revenueSum : Expr := .apply .sum [.ofPeople "revenue"]

/-- The sum of the revenues under a name of its own. -/
def revenueTotal : Select :=
  (Call.projectAs revenueSum "total").attempt {}
    ((Call.addSource (.table people)).attempt {} (Select.empty 0))

/-- A statement that takes the total as its source and projects the reference to it. -/
def totalOnly : Select :=
  match revenueTotal.projections with
  | [p] => (Call.project (p.reference (.select 8 revenueTotal))).attempt {} revenueTotal.over
  | _ => revenueTotal.over

/-- The sum over the columns of the nested statement is taken for the reference to its total, whose
definition is equal and has a leaf with the same alias. -/
theorem totalOnly_loses_sum : totalOnly.Reached ∧ ∃ u c' t a c₁,
    totalOnly.projectUnder revenueSum none {} = .ok (u, c')
    ∧ totalOnly.accept revenueSum {} = .ok ((t, a), c₁)
    ∧ Piece.textAll (a.pieces {} u.scope) = "SUM(a.revenue)"
    ∧ u.projections.map (Projection.text {}) = ["a.total"]
    ∧ ¬ ∃ p ∈ u.projections, p.text {} = Piece.textAll (a.pieces {} u.scope) := by
  have hreached : totalOnly.Reached := by
    rw [totalOnly]
    split
    · exact .call (.call (.empty 1) _ {}) _ {}
    · exact .call (.empty 1) _ {}
  have hshown : ((totalOnly.projectUnder revenueSum none {}).toOption.map fun r =>
      (r.1.projections.map (Projection.text {}),
        (totalOnly.accept revenueSum {}).toOption.map fun r' =>
          Piece.textAll (r'.1.2.pieces {} r.1.scope)))
      = some (["a.total"], some "SUM(a.revenue)") := by decide +kernel
  obtain ⟨⟨u, c'⟩, hrun, hshown⟩ := Except.exists_of_toOption hshown
  obtain ⟨htexts, hsum⟩ := Prod.mk.inj hshown
  obtain ⟨⟨⟨t, a⟩, c₁⟩, hacc, hsum⟩ := Except.exists_of_toOption hsum
  refine ⟨hreached, u, c', t, a, c₁, hrun, hacc, hsum, htexts, ?_⟩
  rintro ⟨p, hp, htext⟩
  have hmem := List.mem_map_of_mem (f := Projection.text {}) hp
  rw [htexts, htext, hsum] at hmem
  simp at hmem

end Select

end SqlCompose
