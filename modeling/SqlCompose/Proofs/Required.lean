import SqlCompose.Proofs.Attachment
import SqlCompose.Proofs.Columns

/-!
Adding the sources that an expression requires, once and again. The views of the expression are tried once, in their
order. A table or a statement can always be added and is in scope from then on. A join is different: its source may
be a view that is only added behind it, and then the join stays out although it could be added now; or its source
may resolve to a more specific view, and then the join that enters the scope is another one. So nothing is added the
second time exactly if no join of the expression is missing after the first.
-/

namespace SqlCompose

namespace Scope

variable {s s' : Scope} {v : View}

theorem canResolve_iff : s.canResolve v = true ↔ ∃ m ∈ s, m.view.compatible v = true := by
  constructor
  · intro h
    obtain ⟨m, hm⟩ := Except.exists_of_isOk h
    rw [resolve] at hm
    split at hm
    case h_1 x hx =>
      exact ⟨x, List.mem_of_find?_eq_some hx, List.find?_some (p := fun y : Mapping => y.view.compatible v) hx⟩
    case h_2 => cases hm
  · rintro ⟨m, hm, hcompatible⟩
    obtain ⟨x, hx⟩ := exists_resolve hm hcompatible
    rw [canResolve, hx]
    rfl

theorem canResolve_mono (h : s ⊆ s') (hv : s.canResolve v = true) : s'.canResolve v = true := by
  obtain ⟨m, hm, hcompatible⟩ := canResolve_iff.mp hv
  exact canResolve_iff.mpr ⟨m, h hm, hcompatible⟩

end Scope

namespace Select

variable {s t u : Select} {v w : View} {vs before after added : List View} {c c' c₁ : Catalog} {i : Nat} {j : Join}

/-! Adding one view. -/

theorem scope_subset_of_addSource (h : s.addSource v c = .ok (t, c')) : s.scope ⊆ t.scope := by
  have hstep : Step (fun _ => True) (fun _ => True) s t := addSource_step trivial h
  exact hstep.scope_subset

/-- A copy of a view can stand for the view. -/
theorem compatible_copyView (hw : Build.copyView v c = .ok (w, c')) : w.compatible v = true := by
  refine View.compatible_of_beq ?_
  cases v with
  | table t =>
      obtain ⟨rfl, -⟩ := Prod.mk.inj (Except.ok.inj hw)
      exact (View.table_beq _ _).trans (beq_self_eq_true t.name)
  | concrete m =>
      obtain ⟨rfl, -⟩ := Prod.mk.inj (Build.pure_eq_ok.mp hw)
      exact View.beq_self _
  | join k l =>
      obtain ⟨rfl, -⟩ := Prod.mk.inj (Build.pure_eq_ok.mp hw)
      exact View.beq_self _
  | select k q =>
      obtain ⟨rfl, -⟩ := Prod.mk.inj (Build.pure_eq_ok.mp hw)
      exact View.beq_self _

/-- A view other than a join can always be added. -/
theorem exists_addSource (s : Select) (c : Catalog) (hv : v.isJoin = false) : ∃ r, s.addSource v c = .ok r := by
  have hcopy : ∃ r, Build.copyView v c = .ok r := by
    cases v <;> exact ⟨_, rfl⟩
  obtain ⟨⟨w, c₁⟩, hw⟩ := hcopy
  have hplace : ∃ r, s.place v c = .ok r := by
    rw [place_eq_ok hv]
    exact ⟨_, Build.bind_eq_ok.mpr ⟨w, c₁, hw, rfl⟩⟩
  obtain ⟨r, hr⟩ := hplace
  exact ⟨r, Build.rejecting_eq_ok.mpr hr⟩

/-- A view other than a join is in scope once it is added. -/
theorem canResolve_of_addSource (hv : v.isJoin = false) (h : s.addSource v c = .ok (t, c')) :
    Scope.canResolve t.scope v = true := by
  have h := Build.rejecting_eq_ok.mp h
  rw [place_eq_ok hv] at h
  obtain ⟨w, c₁, hw, h₁⟩ := Build.bind_eq_ok.mp h
  obtain ⟨mark, a, pool, -, rfl⟩ := registerNamed_eq_ok h₁
  exact Scope.canResolve_iff.mpr ⟨⟨mark, w, a⟩, List.mem_cons_self, compatible_copyView hw⟩

/-- A join is in scope once it is added, unless it is moved to a more specific source or has a constant in its
predicate that does not equal itself. -/
theorem canResolve_of_addSource_join (h : s.addSource (.join i j) c = .ok (t, c')) :
    Scope.canResolve t.scope (.join i j) = true
      ∨ (∃ x ∈ t.scope, ∃ k l, x.view = .join k l ∧ l.target = j.target ∧ l.source.extends? j.source = true)
      ∨ (j.predicate == j.predicate) = false := by
  obtain ⟨l, c₁, hl, h₁⟩ := Build.bind_eq_ok.mp (Build.rejecting_eq_ok.mp h)
  obtain ⟨w, c₂, hw, h₂⟩ := Build.bind_eq_ok.mp h₁
  obtain ⟨rfl, -⟩ := Prod.mk.inj (Build.joinView_eq_ok.mp hw)
  obtain ⟨mark, a, pool, u, e, -, hacc, rfl⟩ := registerNamed_on_eq_ok h₂
  have hl := (Build.lift_eq_ok.mp hl).1
  have hentered : (⟨mark, .join c₁.nextMark l, a⟩ : Mapping) ∈ u.scope := hacc.scope ▸ List.mem_cons_self
  obtain ⟨m, hm, -⟩ := bind_eq_ok.mp hl
  rcases rebase_cases hm hl with ⟨hextends, hsource, -⟩ | ⟨-, rfl⟩
  · have htarget : l.target = j.target := by
      rcases rebase_eq_ok hl with rfl | ⟨y, -, rfl⟩ <;> rfl
    exact Or.inr (Or.inl ⟨_, hentered, _, l, rfl, htarget, hsource ▸ hextends⟩)
  · cases hself : l.predicate == l.predicate with
    | false => exact Or.inr (Or.inr rfl)
    | true =>
        have hjoin : l.beq l = true :=
          Join.beq_iff.mpr ⟨beq_self_eq_true l.name, View.beq_self l.source, View.beq_self l.target, hself⟩
        exact Or.inl (Scope.canResolve_iff.mpr
          ⟨_, hentered, View.compatible_of_beq (View.beq_join.mpr ⟨i, l, rfl, Or.inr hjoin⟩)⟩)

/-! Adding the views in their order. -/

/-- What requiring some views does with each of them: it is in scope already, or it is added, or it is refused. -/
inductive Requires : Select → Catalog → List View → Select → List View → Catalog → Prop
  | nil (s : Select) (c : Catalog) : Requires s c [] s [] c
  | known {s t : Select} {c c' : Catalog} {v : View} {vs added : List View} (hv : Scope.canResolve s.scope v = true)
      (hs : Requires s c vs t added c') : Requires s c (v :: vs) t added c'
  | added {s t u : Select} {c c' c₁ : Catalog} {v : View} {vs added : List View}
      (hv : Scope.canResolve s.scope v = false) (h : s.addSource v c = .ok (u, c₁)) (hs : Requires u c₁ vs t added c') :
      Requires s c (v :: vs) t (v :: added) c'
  | refused {s t : Select} {c c' : Catalog} {v : View} {vs added : List View} {cause : Error}
      (hv : Scope.canResolve s.scope v = false) (h : s.addSource v c = .error cause)
      (hs : Requires s c vs t added c') : Requires s c (v :: vs) t added c'

/-- Requiring some views always succeeds. -/
theorem exists_requires (s : Select) (c : Catalog) (vs : List View) :
    ∃ t added c', s.requireViews vs c = .ok ((t, added), c') ∧ s.Requires c vs t added c' := by
  induction vs generalizing s c with
  | nil => exact ⟨s, [], c, rfl, .nil s c⟩
  | cons v vs ih =>
      cases hv : Scope.canResolve s.scope v with
      | true =>
          obtain ⟨t, added, c', hrun, hreq⟩ := ih s c
          refine ⟨t, added, c', Build.bind_eq_ok.mpr ⟨(s, false), c, ?_, ?_⟩, .known hv hreq⟩
          · rw [requireView, if_pos hv]
          · exact Build.bind_eq_ok.mpr ⟨_, _, hrun, rfl⟩
      | false =>
          cases hadd : s.addSource v c with
          | error cause =>
              obtain ⟨t, added, c', hrun, hreq⟩ := ih s c
              refine ⟨t, added, c', Build.bind_eq_ok.mpr ⟨(s, false), c, ?_, ?_⟩, .refused hv hadd hreq⟩
              · rw [requireView, if_neg (Bool.eq_false_iff.mp hv), hadd]
              · exact Build.bind_eq_ok.mpr ⟨_, _, hrun, rfl⟩
          | ok r =>
              obtain ⟨u, c₁⟩ := r
              obtain ⟨t, added, c', hrun, hreq⟩ := ih u c₁
              refine ⟨t, v :: added, c', Build.bind_eq_ok.mpr ⟨(u, true), c₁, ?_, ?_⟩, .added hv hadd hreq⟩
              · rw [requireView, if_neg (Bool.eq_false_iff.mp hv), hadd]
              · exact Build.bind_eq_ok.mpr ⟨_, _, hrun, rfl⟩

namespace Requires

theorem scope_subset (h : s.Requires c vs t added c') : s.scope ⊆ t.scope := by
  induction h with
  | nil s c => exact List.Subset.refl _
  | known hv hs ih => exact ih
  | added hv h hs ih => exact List.Subset.trans (scope_subset_of_addSource h) ih
  | refused hv h hs ih => exact ih

theorem added_subset (h : s.Requires c vs t added c') : added ⊆ vs := by
  induction h with
  | nil s c => exact List.Subset.refl _
  | known hv hs ih => exact List.subset_cons_of_subset _ ih
  | added hv h hs ih => exact List.cons_subset_cons _ ih
  | refused hv h hs ih => exact List.subset_cons_of_subset _ ih

/-- If no view was added, nothing has changed. -/
theorem unchanged (h : s.Requires c vs t [] c') : t = s ∧ c' = c := by
  generalize hadded : ([] : List View) = added at h
  induction h with
  | nil s c => exact ⟨rfl, rfl⟩
  | known hv hs ih => exact ih hadded
  | added hv h hs ih => cases hadded
  | refused hv h hs ih => exact ih hadded

/-- The views in front are tried before those behind them. -/
theorem split (h : s.Requires c (before ++ after) t added c') : ∃ u c₁ first rest,
    s.Requires c before u first c₁ ∧ u.Requires c₁ after t rest c' ∧ added = first ++ rest := by
  induction before generalizing s c added with
  | nil => exact ⟨s, c, [], added, .nil s c, h, rfl⟩
  | cons v before ih =>
      cases h with
      | known hv hs =>
          obtain ⟨u, c₁, first, rest, hfirst, hrest, hadded⟩ := ih hs
          exact ⟨u, c₁, first, rest, .known hv hfirst, hrest, hadded⟩
      | added hv h hs =>
          obtain ⟨u, c₁, first, rest, hfirst, hrest, rfl⟩ := ih hs
          exact ⟨u, c₁, v :: first, rest, .added hv h hfirst, hrest, rfl⟩
      | refused hv h hs =>
          obtain ⟨u, c₁, first, rest, hfirst, hrest, hadded⟩ := ih hs
          exact ⟨u, c₁, first, rest, .refused hv h hfirst, hrest, hadded⟩

/-- Every required view other than a join is in scope in the end. -/
theorem canResolve (h : s.Requires c vs t added c') (hmem : v ∈ vs) (hv : v.isJoin = false) :
    Scope.canResolve t.scope v = true := by
  obtain ⟨before, after, rfl⟩ := List.append_of_mem hmem
  obtain ⟨u, c₁, first, rest, -, hrest, -⟩ := h.split
  cases hrest with
  | known hknown hs => exact Scope.canResolve_mono hs.scope_subset hknown
  | added hnew hadd hs => exact Scope.canResolve_mono hs.scope_subset (canResolve_of_addSource hv hadd)
  | refused hnew hadd hs =>
      obtain ⟨r, hr⟩ := exists_addSource u c₁ hv
      rw [hr] at hadd
      cases hadd

end Requires

/-! The second time. -/

/-- A view is missing if the scope does not resolve it although it can be added. -/
def Misses (s : Select) (c : Catalog) (v : View) : Prop :=
  Scope.canResolve s.scope v = false ∧ (s.addSource v c).isOk = true

/-- Views are added exactly if one of them is missing: the first missing one is still missing at its turn. -/
theorem Requires.added_eq_nil_iff (h : s.Requires c vs t added c') : added = [] ↔ ∀ v ∈ vs, ¬ s.Misses c v := by
  induction h with
  | nil s c => simp
  | known hv hs ih =>
      rw [ih, List.forall_mem_cons, and_iff_right]
      rintro ⟨hnew, -⟩
      rw [hv] at hnew
      cases hnew
  | added hv hadd hs ih =>
      rw [List.forall_mem_cons]
      exact iff_of_false (List.cons_ne_nil _ _) fun hnone => hnone.1 ⟨hv, hadd ▸ rfl⟩
  | refused hv hadd hs ih =>
      rw [ih, List.forall_mem_cons, and_iff_right]
      rintro ⟨-, hok⟩
      rw [hadd] at hok
      cases hok

/-- Requiring some views leaves a statement as it is exactly if none of them is missing. -/
theorem requireViews_idle_iff : s.requireViews vs c = .ok ((s, []), c) ↔ ∀ v ∈ vs, ¬ s.Misses c v := by
  obtain ⟨t, added, c', hrun, hreq⟩ := exists_requires s c vs
  rw [hrun, ← hreq.added_eq_nil_iff, Except.ok.injEq, Prod.mk.injEq, Prod.mk.injEq]
  constructor
  · exact fun h => h.1.2
  · rintro rfl
    obtain ⟨rfl, rfl⟩ := hreq.unchanged
    exact ⟨⟨rfl, rfl⟩, rfl⟩

/-- A join that is missing after its turn was refused and a view behind it was added, or it was moved to a more
specific source, or a constant in its predicate does not equal itself. -/
theorem Requires.missing_join (h : s.Requires c (before ++ .join i j :: after) t added c')
    (hmissing : t.Misses c' (.join i j)) : (∃ v ∈ after, v ∈ added)
      ∨ (∃ x ∈ t.scope, ∃ k l, x.view = .join k l ∧ l.target = j.target ∧ l.source.extends? j.source = true)
      ∨ (j.predicate == j.predicate) = false := by
  obtain ⟨u, c₁, first, rest, -, hrest, hadded⟩ := h.split
  obtain ⟨hnew, hok⟩ := hmissing
  have hresolves : ∀ {r : Select}, r.scope ⊆ t.scope → Scope.canResolve r.scope (.join i j) = true → False := by
    intro r hr hknown
    rw [Scope.canResolve_mono hr hknown] at hnew
    cases hnew
  cases hrest with
  | known hknown hs => exact (hresolves hs.scope_subset hknown).elim
  | @added _ _ u' _ _ c₂ _ _ rest _ hadd hs =>
      rcases canResolve_of_addSource_join hadd with hknown | ⟨x, hx, hmoved⟩ | hself
      · exact (hresolves hs.scope_subset hknown).elim
      · exact Or.inr (Or.inl ⟨x, hs.scope_subset hx, hmoved⟩)
      · exact Or.inr (Or.inr hself)
  | refused _ hadd hs =>
      cases rest with
      | cons v rest =>
          refine Or.inl ⟨v, hs.added_subset List.mem_cons_self, ?_⟩
          rw [hadded]
          exact List.mem_append_right _ List.mem_cons_self
      | nil =>
          obtain ⟨rfl, rfl⟩ := hs.unchanged
          rw [hadd] at hok
          cases hok

/-- Requiring what an expression depends on always succeeds. A second time adds nothing exactly if no join among the
views is missing then. A join is missing only if a view behind it was added, or if it was moved to a more specific
source, or if a constant in its predicate does not equal itself. -/
theorem require_again (s : Select) (e : Expr) (c : Catalog) : ∃ t added c', s.require e c = .ok ((t, added), c') ∧
    (t.require e c' = .ok ((t, []), c') ↔ ∀ i j, .join i j ∈ e.views.views → ¬ t.Misses c' (.join i j)) ∧
    ∀ before i j after, e.views.views = before ++ .join i j :: after → t.Misses c' (.join i j) →
      (∃ v ∈ after, v ∈ added)
        ∨ (∃ x ∈ t.scope, ∃ k l, x.view = .join k l ∧ l.target = j.target ∧ l.source.extends? j.source = true)
        ∨ (j.predicate == j.predicate) = false := by
  obtain ⟨t, added, c', hrun, hreq⟩ := exists_requires s c e.views.views
  refine ⟨t, added, c', hrun, requireViews_idle_iff.trans ⟨fun hnone i j hmem => hnone _ hmem, ?_⟩, ?_⟩
  · intro hjoins v hmem
    by_cases hv : v.isJoin = false
    · rintro ⟨hnew, -⟩
      rw [hreq.canResolve hmem hv] at hnew
      cases hnew
    · cases v with
      | join i j => exact hjoins i j hmem
      | table u => exact absurd rfl hv
      | concrete m => exact absurd rfl hv
      | select i q => exact absurd rfl hv
  · intro before i j after hviews hmissing
    rw [hviews] at hreq
    exact hreq.missing_join hmissing

/-- The department that a person is joined to, before the person. -/
def departmentOfPerson : Expr := .equals (.pinned (.column ⟨department, "ID"⟩) (.join 5 ofDepartment)) (.ofPeople "ID")

/-- The join to the department comes before the people that it starts from. It is refused the first time and added
the second time. -/
theorem departmentOfPerson_required_again : ∃ t added c' u more c'',
    (Select.empty 0).require departmentOfPerson {} = .ok ((t, added), c')
    ∧ t.require departmentOfPerson c' = .ok ((u, more), c'')
    ∧ (t.print c').toOption = some "SELECT p.* FROM People p"
    ∧ (u.print c'').toOption
        = some "SELECT p.*, d.* FROM People p INNER JOIN Department d ON d.ID=p.DEPARTMENT_ID"
    ∧ more ≠ [] ∧ t.require departmentOfPerson c' ≠ .ok ((t, []), c') := by
  have hshown : ((Select.empty 0).require departmentOfPerson {}).toOption.map (fun r =>
      ((r.1.1.print r.2).toOption, (r.1.1.require departmentOfPerson r.2).toOption.map fun r' =>
        ((r'.1.1.print r'.2).toOption, r'.1.2.isEmpty)))
      = some (some "SELECT p.* FROM People p", some
          (some "SELECT p.*, d.* FROM People p INNER JOIN Department d ON d.ID=p.DEPARTMENT_ID", false)) := by
    decide +kernel
  obtain ⟨⟨⟨t, added⟩, c'⟩, hrun, hshown⟩ := Except.exists_of_toOption hshown
  obtain ⟨hfirst, hshown⟩ := Prod.mk.inj hshown
  obtain ⟨⟨⟨u, more⟩, c''⟩, hagain, hshown⟩ := Except.exists_of_toOption hshown
  obtain ⟨hsecond, hmore⟩ := Prod.mk.inj hshown
  have hmore : more ≠ [] := by
    rintro rfl
    cases hmore
  refine ⟨t, added, c', u, more, c'', hrun, hagain, hfirst, hsecond, hmore, fun hidle => hmore ?_⟩
  rw [hagain] at hidle
  exact (Prod.mk.inj (Prod.mk.inj (Except.ok.inj hidle)).1).2

/-- The join enters as a join from the statement over the people, and is missing again each time. -/
example : ((peopleNames.over.require (.view (.join 5 ofDepartment)) {}).toOption.map fun r =>
    ((r.1.1.require (.view (.join 5 ofDepartment)) r.2).toOption.map fun r => (r.1.1.print r.2).toOption))
      = some (some (some ("SELECT a.name, a.DEPARTMENT_ID, d.*, d1.* FROM (SELECT p.name, p.DEPARTMENT_ID "
        ++ "FROM People p) a INNER JOIN Department d ON d.ID=a.DEPARTMENT_ID "
        ++ "INNER JOIN Department d1 ON d1.ID=a.DEPARTMENT_ID"))) := by
  decide +kernel

end Select

end SqlCompose
