import SqlCompose.Proofs.Recurring
import SqlCompose.Proofs.ResultNames

/-!
Projecting an expression twice. The second call always succeeds, and the clause of the first one has an equal
definition with the same sources. It covers the expression again if no alias is asked for, or if it has the alias that
is asked for. But a clause that got another alias, since the one it was to have was taken, does not have it: then the
same expression is projected again under a third alias, and so on with every call.
-/

namespace SqlCompose

variable {N : Nodes}

namespace Expr

variable {s : Select} {sc : Scope}

mutual

/-- Without a NaN in the sources, the leaves of both have the same aliases. -/
theorem Twin.leafAliases_eq (hnan : ∀ src ∈ s.sources, src.view.nanFree = true)
    (hsc : ∀ m ∈ sc, m.view.Throughout N.Holds) : ∀ {a b : Expr}, a.Twin s b → a.Throughout N.Holds →
      b.Throughout N.Holds → Select.leafAliases a sc = Select.leafAliases b sc
  | _, _, .same _, _, _ => rfl
  | _, _, .apply _ h, ha, hb =>
      AllTwin.leafAliases_eq hnan hsc h (throughout_apply.mp ha) (throughout_apply.mp hb)
  | _, _, .reference (v := v) (w := w) n d hsrc hv hw, ha, hb => by
      have hequal : v.beq w = true := View.beq_of_grows (hv.nanFree.trans (hnan _ hsrc)) hw
      have hresolve : (sc.resolveExact v).toOption = (sc.resolveExact w).toOption := by
        rw [Scope.resolveExact_toOption, Scope.resolveExact_toOption]
        exact List.find?_congr fun m hm => Scope.isMappingOf_congr (hsc m hm) (throughout_projected.mp ha).1
          (throughout_projected.mp hb).1 hequal
      show [(sc.resolveExact v).toOption.map (·.label)] = [(sc.resolveExact w).toOption.map (·.label)]
      rw [hresolve]

theorem AllTwin.leafAliases_eq (hnan : ∀ src ∈ s.sources, src.view.nanFree = true)
    (hsc : ∀ m ∈ sc, m.view.Throughout N.Holds) : ∀ {as bs : List Expr}, AllTwin s as bs →
      (∀ a ∈ as, a.Throughout N.Holds) → (∀ b ∈ bs, b.Throughout N.Holds) →
        (leavesAll as).map (fun leaf => (Scope.resolveLeaf sc leaf).toOption.map (·.label))
          = (leavesAll bs).map fun leaf => (Scope.resolveLeaf sc leaf).toOption.map (·.label)
  | _, _, .nil, _, _ => rfl
  | _, _, .cons h hs, has, hbs => by
      rw [List.forall_mem_cons] at has hbs
      rw [leavesAll, leavesAll, List.map_append, List.map_append, hs.leafAliases_eq hnan hsc has.2 hbs.2]
      exact congrArg (· ++ _) (h.leafAliases_eq hnan hsc has.1 hbs.1)

end

end Expr

namespace Select

variable {s t u : Select} {e a b : Expr} {label name : Option String} {c c' : Catalog} {p : Projection}

/-! Projecting as one step behind the acceptance. -/

/-- A statement with a clause for an accepted expression, unless a clause covers it. The clause has the alias that is
asked for or one from the name of the expression, as far as they are not taken. -/
def enlisting (t : Select) (a : Expr) (label name : Option String) : Select :=
  if t.projections.any (t.covers a label) then t
  else
    let (l, pool) := t.aliases.projectionAlias (label.or name)
    { t with projections := t.projections ++ [⟨a, l, t.scope⟩], aliases := pool }

theorem addProjection_eq_ok_iff {explicit : Bool} : s.addProjection e name explicit c = .ok (u, c') ↔
    ∃ t a, s.accept e c = .ok ((t, a), c') ∧ u = t.enlisting a (if explicit then name else none) name := by
  have hsame : (if explicit = true then name else none).or name = name := by
    cases explicit <;> cases name <;> rfl
  have hstep : ∀ (t : Select) (a : Expr) (k : Catalog),
      (if t.projections.any (t.covers a (if explicit then name else none)) then pure t
        else
          let (l, pool) := t.aliases.projectionAlias name
          pure { t with projections := t.projections ++ [⟨a, l, t.scope⟩], aliases := pool } : Build Select) k
        = .ok (t.enlisting a (if explicit then name else none) name, k) := by
    intro t a k
    rw [enlisting, hsame]
    generalize (if explicit = true then name else none) = wanted
    cases t.projections.any (t.covers a wanted) <;> rfl
  constructor
  · intro h
    obtain ⟨⟨t, a⟩, c₁, hta, h₁⟩ := Build.bind_eq_ok.mp h
    obtain ⟨rfl, rfl⟩ := Prod.mk.inj (Except.ok.inj (h₁.symm.trans (hstep t a c₁)))
    exact ⟨t, a, hta, rfl⟩
  · rintro ⟨t, a, hta, rfl⟩
    exact Build.bind_eq_ok.mpr ⟨(t, a), c', hta, hstep t a c'⟩

theorem project_eq_ok_iff : s.project e c = .ok (u, c') ↔
    ∃ t a, s.accept e c = .ok ((t, a), c') ∧ u = t.enlisting a none e.name? :=
  Build.rejecting_eq_ok.trans addProjection_eq_ok_iff

theorem projectUnder_eq_ok_iff : s.projectUnder e label c = .ok (u, c') ↔
    ∃ t a, s.accept e c = .ok ((t, a), c') ∧ u = t.enlisting a label e.name? := by
  cases label with
  | none => exact project_eq_ok_iff
  | some l => exact Build.rejecting_eq_ok.trans addProjection_eq_ok_iff

theorem grows_enlisting (t : Select) (a : Expr) (label name : Option String) : t.Grows (t.enlisting a label name) := by
  rw [enlisting]
  split
  · exact .refl t
  · exact grows_of_projection (p := ⟨a, _, t.scope⟩) rfl

theorem throughout_enlisting {P : View → Prop} (ht : t.Throughout P) (ha : a.Throughout P)
    (label name : Option String) : (t.enlisting a label name).Throughout P := by
  rw [enlisting]
  split
  · exact ht
  · exact ht.adds ha (.projection rfl)

/-- Nothing is added exactly if a clause covers the expression. -/
theorem enlisting_projections_eq_iff : (t.enlisting a label name).projections = t.projections ↔
    t.projections.any (t.covers a label) = true := by
  rw [enlisting]
  split
  case isTrue h => exact iff_of_true rfl h
  case isFalse h => exact iff_of_false (fun heq => List.cons_ne_nil _ _ (List.append_right_eq_self.mp heq)) h

/-- A clause that is made for an expression covers it if there is no alias it was to have, or if that was free. -/
theorem covers_enlisted_iff (name : Option String) (hself : a.beq a = true) (hscope : u.scope = t.scope) :
    u.covers a label ⟨a, (t.aliases.projectionAlias (label.or name)).1, t.scope⟩ = true ↔
      ∀ l ∈ label, l ∉ t.aliases.taken := by
  rw [covers_iff, hscope, and_iff_left rfl, and_iff_right hself]
  cases label with
  | none => exact iff_of_true (.inl rfl) nofun
  | some l =>
      rw [or_iff_right (Option.some_ne_none l), Option.some_or, AliasPool.projectionAlias_some]
      simp only [Option.mem_def, Option.some.injEq, forall_eq']
      exact AliasPool.fresh_eq_stem

/-- The expression is covered afterwards exactly if it was covered before, or has the alias that is asked for. -/
theorem covered_after_enlisting_iff (hself : a.beq a = true) :
    (∃ p ∈ (t.enlisting a label name).projections, (t.enlisting a label name).covers a label p = true) ↔
      (t.enlisting a label name).projections = t.projections ∨ ∀ l ∈ label, l ∉ t.aliases.taken := by
  rw [enlisting_projections_eq_iff, enlisting]
  split
  case isTrue h => exact iff_of_true (List.any_eq_true.mp h) (.inl h)
  case isFalse h =>
      rw [or_iff_right h, ← covers_enlisted_iff name hself rfl]
      constructor
      · rintro ⟨p, hp, hcovers⟩
        rcases List.mem_append.mp hp with hp | hp
        · exact absurd (List.any_eq_true.mpr ⟨p, hp, hcovers⟩) h
        · obtain rfl := List.mem_singleton.mp hp
          exact hcovers
      · exact fun hcovers => ⟨_, List.mem_append_right _ (List.mem_singleton.mpr rfl), hcovers⟩

/-- What was accepted twice is covered by the same clauses. -/
theorem covers_congr (hscope : u.scope = t.scope) (hequal : ∀ x : Expr, x.beq a = x.beq b)
    (haliases : leafAliases a t.scope = leafAliases b t.scope) (p : Projection) :
    u.covers b label p = t.covers a label p := by
  refine Bool.eq_iff_iff.mpr ?_
  rw [covers_iff, covers_iff, hscope, hequal, haliases]

/-- Projecting an expression twice succeeds. If nothing is added the second time, the statement has the same
selectors and prints the same, and is the same but for marks. Without a NaN in the sources, nothing is added the second
time exactly if nothing was added the first time, or no alias was asked for, or the alias was not taken. -/
theorem project_twice (hs : s.Throughout (c.Knows N)) (he : e.Throughout (c.Knows N)) (hdef : e.Definite)
    (hrun : s.projectUnder e label c = .ok (u, c')) : ∃ w c'', u.projectUnder e label c' = .ok (w, c'') ∧
      (w.projections = u.projections →
        (∀ v, w.selectorsOf v = u.selectorsOf v) ∧ (∀ k, w.print k = u.print k) ∧ w.unmarked = u.unmarked) ∧
      ((∀ src ∈ s.sources, src.view.nanFree = true) →
        (w.projections = u.projections ↔ u.projections = s.projections ∨ ∀ l ∈ label, l ∉ s.aliases.taken)) := by
  obtain ⟨t, a, hta, rfl⟩ := projectUnder_eq_ok_iff.mp hrun
  obtain ⟨hself, N', hlearns, ht, ha, hagain⟩ := accept_recurs hta hs he hdef
  have haccepts := accept_sound hta
  have htu := grows_enlisting t a label e.name?
  have huN := throughout_enlisting ht ha label e.name?
  have hregistries : c'.registries = c.registries := accept_quiet s e hta
  obtain ⟨u', b, c'', hub, hpersists, htwin⟩ := hagain htu (.refl c' N') hregistries huN
  refine ⟨_, c'', projectUnder_eq_ok_iff.mpr ⟨u', b, hub, rfl⟩, fun hsame => ?_, fun hnan => ?_⟩
  · rw [← hpersists.projections, enlisting_projections_eq_iff] at hsame
    obtain ⟨p, hp, -⟩ := List.any_eq_true.mp hsame
    rw [hpersists.projections] at hp
    rw [enlisting, if_pos hsame]
    refine ⟨fun v => ?_, fun k => ?_, hpersists.unmarked⟩
    · rw [selectorsOf, selectorsOf, hpersists.projections]
    · rw [print, print, printout, printout, hpersists.pieces (List.ne_nil_of_mem hp) k]
  · obtain ⟨-, M, hlearns', hu'M, hbM, -⟩ := accept_recurs hub huN (hlearns.expr he) hdef
    have haliases : leafAliases a (t.enlisting a label e.name?).scope
        = leafAliases b (t.enlisting a label e.name?).scope :=
      htwin.leafAliases_eq hnan (fun m hm x hx => ((hlearns'.statement huN).scope m hm x hx).holds)
        (fun x hx => (hlearns'.expr ha x hx).holds) (fun x hx => (hbM x hx).holds)
    have hcovers : u'.covers b label = (t.enlisting a label e.name?).covers a label :=
      funext (covers_congr (accept_sound hub).scope htwin.beq_eq haliases)
    rw [← hpersists.projections, enlisting_projections_eq_iff, hcovers, hpersists.projections, List.any_eq_true,
      covered_after_enlisting_iff hself, haccepts.projections, haccepts.aliases]

/-- The name of the people is projected under an alias from the nested statement that has it, and once more. -/
theorem peopleNames_over_project_twice : ∃ u c' w c'',
    peopleNames.over.projectUnder (.ofPeople "name") (some "n") { nextMark := 8 } = .ok (u, c')
    ∧ u.projectUnder (.ofPeople "name") (some "n") c' = .ok (w, c'') ∧ w.projections = u.projections
    ∧ (w.print {}).toOption = some "SELECT a.name AS n FROM (SELECT p.name FROM People p) a" := by
  have hshown : (peopleNames.over.projectUnder (.ofPeople "name") (some "n") { nextMark := 8 }).toOption.map
      (fun r => (r.1.print {}).toOption)
        = some (some "SELECT a.name AS n FROM (SELECT p.name FROM People p) a") := by decide +kernel
  obtain ⟨⟨u, c'⟩, hrun, hshown⟩ := Except.exists_of_toOption hshown
  have hdef : (Expr.ofPeople "name").Definite := ⟨rfl, Expr.throughout_column.mpr rfl⟩
  have hnan : ∀ src ∈ peopleNames.over.sources, src.view.nanFree = true := List.all_eq_true.mp (by decide +kernel)
  have hfree : ∀ l ∈ some "n", l ∉ peopleNames.over.aliases.taken := by
    intro l hl
    obtain rfl := Option.mem_some.mp hl
    decide +kernel
  obtain ⟨w, c'', hagain, hsame, hiff⟩ :=
    project_twice peopleNames_over_known (Expr.throughout_column.mpr trivial) hdef hrun
  have hnone := (hiff hnan).mpr (.inr hfree)
  exact ⟨u, c', w, c'', hrun, hagain, hnone, ((hsame hnone).2.1 {}).symm ▸ hshown⟩

/-- The people and the departments, with the name of the people. -/
def nameBesideDepartments : Select := (Call.project (.ofPeople "name")).attempt {} peopleAndDepartments

/-- The name of the departments, which is to be called as the name of the people is, is projected twice. -/
theorem nameBesideDepartments_project_twice : nameBesideDepartments.Reached ∧
    (Expr.column ⟨department, "name"⟩).Definite ∧ ∃ u c' w c'',
      nameBesideDepartments.projectUnder (.column ⟨department, "name"⟩) (some "name") {} = .ok (u, c')
      ∧ u.projectUnder (.column ⟨department, "name"⟩) (some "name") c' = .ok (w, c'')
      ∧ (u.print {}).toOption = some "SELECT p.name, d.name AS name1 FROM People p, Department d"
      ∧ (w.print {}).toOption = some "SELECT p.name, d.name AS name1, d.name AS name2 FROM People p, Department d"
      ∧ (u.selectorsOf (.select 0 u)).length = 2 ∧ (w.selectorsOf (.select 0 w)).length = 3 := by
  have hreached : nameBesideDepartments.Reached := .call (.call (.call (.empty 0) _ {}) _ {}) _ {}
  have hshown : (nameBesideDepartments.projectUnder (.column ⟨department, "name"⟩) (some "name") {}).toOption.map
      (fun r => ((r.1.print {}).toOption, (r.1.selectorsOf (.select 0 r.1)).length,
        (r.1.projectUnder (.column ⟨department, "name"⟩) (some "name") r.2).toOption.map fun r' =>
          ((r'.1.print {}).toOption, (r'.1.selectorsOf (.select 0 r'.1)).length)))
      = some (some "SELECT p.name, d.name AS name1 FROM People p, Department d", 2,
        some (some "SELECT p.name, d.name AS name1, d.name AS name2 FROM People p, Department d", 3)) := by
    decide +kernel
  obtain ⟨⟨u, c'⟩, hrun, hshown⟩ := Except.exists_of_toOption hshown
  obtain ⟨hprint, hshown⟩ := Prod.mk.inj hshown
  obtain ⟨hlength, hshown⟩ := Prod.mk.inj hshown
  obtain ⟨⟨w, c''⟩, hagain, hshown⟩ := Except.exists_of_toOption hshown
  obtain ⟨hprint', hlength'⟩ := Prod.mk.inj hshown
  exact ⟨hreached, ⟨rfl, Expr.throughout_column.mpr rfl⟩, u, c', w, c'', hrun, hagain, hprint, hprint', hlength,
    hlength'⟩

-- a nested statement with a NaN differs from itself once it has grown, and so the same is projected again
example :
    let unequal : Expr := .equals (.ofPeople "age") (.literal (.double ⟨0x7ff8000000000000⟩))
    let inner := (Call.filter unequal).attempt {} ((Call.addSource (.table people)).attempt {} (.empty 0))
    let middle := (Call.addSource (.select 1 inner)).attempt {}
      ((Call.addSource (.table department)).attempt {} (.empty 1))
    let outer := (Call.addSource (.select 2 middle)).attempt {} (.empty 2)
    let both : Expr := .equals (.column ⟨department, "name"⟩) (.ofPeople "name")
    ((outer.projectUnder both none { nextMark := 3 }).toOption.map fun r =>
      (r.1.projections.length, (r.1.projectUnder both none r.2).toOption.map (·.1.projections.length)))
        = some (1, some 2) := by decide +kernel

end Select

end SqlCompose
