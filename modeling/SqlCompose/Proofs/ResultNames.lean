import SqlCompose.Proofs.Columns
import SqlCompose.Proofs.InStep
import SqlCompose.Proofs.Reuse

/-!
The names of result columns. A clause has the name of its alias, which comes from the pool and is the alias of no
other clause, or else the name that its expression has. Grouping projects an expression without an alias, also when
the expression has a name. Such a name is not taken from the pool: another clause may have it before, or get it later.
-/

namespace SqlCompose

/-- Whether a clause stands for all columns of a view. -/
def Projection.isStar (p : Projection) : Bool :=
  match p.definition.core with
  | .star _ => true
  | _ => false

namespace Select

variable {s t u : Select} {e a : Expr} {c c' : Catalog}

/-- The explicit clauses that are no stars. -/
def columns (s : Select) : List Projection := s.projections.filter fun p => !p.isStar

/-- The names of these clauses. -/
def resultNames (s : Select) : List String := s.columns.filterMap (·.name?)

/-- The names of the clauses that have an alias. -/
def aliasedNames (s : Select) : List String := (s.columns.filter (·.label.isSome)).filterMap (·.name?)

/-- The names that clauses without an alias have from their expressions. -/
def ownNames (s : Select) : List String := (s.columns.filter fun p => !p.label.isSome).filterMap (·.name?)

theorem resultNames_perm (s : Select) : (s.aliasedNames ++ s.ownNames).Perm s.resultNames := by
  rw [aliasedNames, ownNames, ← List.filterMap_append]
  exact (List.filter_append_perm _ _).filterMap _

theorem aliasedNames_sublist (s : Select) : s.aliasedNames.Sublist s.labels := by
  have hlabel : s.aliasedNames = (s.columns.filter (·.label.isSome)).filterMap (·.label) := by
    refine List.filterMap_congr fun p hp => ?_
    obtain ⟨l, hl⟩ := Option.isSome_iff_exists.mp (List.mem_filter.mp hp).2
    rw [Projection.name?, hl, Option.some_or]
  rw [hlabel, labels]
  refine List.Sublist.trans ?_ (List.sublist_append_right _ _)
  exact (List.filter_sublist.trans List.filter_sublist).filterMap _

/-- Names are distinct if those without an alias are, and no alias is one of them. -/
theorem InStep.names_nodup_iff (h : s.InStep) :
    s.resultNames.Nodup ↔ s.ownNames.Nodup ∧ s.aliasedNames.Disjoint s.ownNames := by
  rw [← s.resultNames_perm.nodup_iff, List.nodup_append']
  exact and_iff_right (h.distinct.sublist s.aliasedNames_sublist)

/-! Which clauses get no alias. -/

theorem ownNames_of_projections (h : t.projections = s.projections) : t.ownNames = s.ownNames := by
  rw [ownNames, ownNames, columns, columns, h]

/-- A clause with an alias adds no name of its own. -/
theorem ownNames_append {p : Projection} (hp : p.label.isSome = true)
    (h : t.projections = s.projections ++ [p]) : t.ownNames = s.ownNames := by
  have hlast : ([p].filter fun p => !p.isStar).filter (fun p => !p.label.isSome) = [] := by
    rw [List.filter_filter, List.filter_singleton, hp]
    rfl
  rw [ownNames, columns, h, List.filter_append, List.filter_append, hlast, List.append_nil]
  rfl

theorem addProjection_ownNames {name : String} {explicit : Bool}
    (h : s.addProjection e (some name) explicit c = .ok (u, c')) : u.ownNames = s.ownNames := by
  obtain ⟨t, a, ht, hcase⟩ := addProjection_eq_ok h
  have hkept := ownNames_of_projections (accept_sound ht).projections
  rcases hcase with ⟨-, rfl⟩ | ⟨-, l, pool, hl, rfl⟩
  · exact hkept
  · obtain ⟨rfl, -⟩ := Prod.mk.inj hl
    exact (ownNames_append rfl rfl).trans hkept

/-- A source brings no clause. -/
theorem addSource_ownNames {v : View} (h : s.addSource v c = .ok (u, c')) : u.ownNames = s.ownNames := by
  have hstep : Step (fun _ => False) (fun _ => True) s u := addSource_step trivial h
  cases hstep with
  | source mark hv hw hj ha => rfl
  | join mark hv hl ha hacc => exact ownNames_of_projections hacc.projections
  | clause he => exact he.elim

theorem acceptHarder_ownNames (h : s.acceptHarder e c = .ok ((t, a), c')) : t.ownNames = s.ownNames := by
  obtain ⟨e', hacc⟩ := exists_accepts_of_acceptHarder h
  exact ownNames_of_projections hacc.projections

/-- What a nested statement projects for the statement around it has an alias, if it asks for a name. -/
theorem provide_ownNames {n : Nat} {name : Option String} {d : Expr} (he : e.name?.isSome = true)
    (h : provide (acceptAt n) s e c = .ok ((u, name, d), c')) : u.ownNames = s.ownNames := by
  have hprovides : s.Provides e u name d := provide_sound (acceptAt_sound n) h
  obtain ⟨wanted, hwanted⟩ := Option.isSome_iff_exists.mp he
  cases hprovides with
  | reused hacc hp => exact ownNames_of_projections hacc.projections
  | added hacc hp hl =>
      rw [hwanted] at hl
      obtain ⟨rfl, -⟩ := Prod.mk.inj hl
      exact (ownNames_append rfl rfl).trans (ownNames_of_projections hacc.projections)

end Select

/-- Whether a call gives all clauses it makes an alias. -/
def Call.givesAlias : Call → Bool
  | project e => e.name?.isSome
  | groupBy _ => false
  | groupByAll _ => false
  | _ => true

namespace Select

variable {s u : Select} {c c' : Catalog}

theorem run_ownNames {k : Call} (hk : k.givesAlias = true) (h : k.run s c = .ok (u, c')) :
    u.ownNames = s.ownNames := by
  cases k with
  | addSource v => exact addSource_ownNames h
  | join target p =>
      obtain ⟨j, c₁, -, h₁⟩ := Build.bind_eq_ok.mp h
      obtain ⟨v, c₂, -, h₂⟩ := Build.bind_eq_ok.mp h₁
      exact addSource_ownNames h₂
  | project e =>
      obtain ⟨name, hname⟩ := Option.isSome_iff_exists.mp hk
      have h : s.addProjection e e.name? false c = .ok (u, c') := Build.rejecting_eq_ok.mp h
      exact addProjection_ownNames (hname ▸ h)
  | projectAs e l => exact addProjection_ownNames (Build.rejecting_eq_ok.mp h)
  | filter e =>
      obtain ⟨⟨t, a⟩, c₁, ht, h₁⟩ := Build.bind_eq_ok.mp (Build.rejecting_eq_ok.mp h)
      obtain ⟨rfl, -⟩ := Prod.mk.inj (Build.pure_eq_ok.mp h₁)
      have hkept : t.ownNames = s.ownNames := acceptHarder_ownNames ht
      exact hkept
  | filterGroups e =>
      obtain ⟨⟨t, a⟩, c₁, ht, h₁⟩ := Build.bind_eq_ok.mp (Build.rejecting_eq_ok.mp h)
      obtain ⟨rfl, -⟩ := Prod.mk.inj (Build.pure_eq_ok.mp h₁)
      have hkept : t.ownNames = s.ownNames := acceptHarder_ownNames ht
      exact hkept
  | groupBy e => cases hk
  | groupByAll es => cases hk

/-- A statement after some calls. -/
def after (s : Select) (ks : List (Call × Catalog)) : Select := ks.foldl (fun s k => k.1.attempt k.2 s) s

/-- A run of calls that give aliases adds no names of clauses without an alias. -/
theorem after_ownNames : ∀ {ks : List (Call × Catalog)} {s : Select}, (∀ k ∈ ks, k.1.givesAlias = true) →
    (s.after ks).ownNames = s.ownNames
  | [], _, _ => rfl
  | (k, c) :: ks, s, h => by
      rw [List.forall_mem_cons] at h
      have hstep : (k.attempt c s).ownNames = s.ownNames := by
        rw [Call.attempt]
        split
        case h_1 hrun => exact run_ownNames h.1 hrun
        case h_2 => rfl
      exact (after_ownNames h.2).trans hstep

theorem InStep.after : ∀ {ks : List (Call × Catalog)} {s : Select}, s.InStep → (s.after ks).InStep
  | [], _, h => h
  | (k, c) :: ks, s, h => by
      show ((k.attempt c s).after ks).InStep
      exact InStep.after (k.attempt_keeps Step.inStep c h)

/-- The names of the result columns are distinct exactly if those of the clauses without an alias are, and no
clause has one of them as its alias. Clauses without an alias come from grouping, and from what asks for no name:
without such clauses the names stay distinct in every run of calls that gives aliases. -/
theorem Formed.resultNames_nodup_iff (h : s.Formed) :
    (s.resultNames.Nodup ↔ s.ownNames.Nodup ∧ s.aliasedNames.Disjoint s.ownNames)
      ∧ (∀ ks : List (Call × Catalog), (∀ k ∈ ks, k.1.givesAlias = true) →
          (s.after ks).ownNames = s.ownNames ∧ (s.ownNames = [] → (s.after ks).resultNames.Nodup))
      ∧ ∀ (n : Nat) (e : Expr) (c : Catalog) (u : Select) (name : Option String) (d : Expr) (c' : Catalog),
          e.name?.isSome = true → provide (acceptAt n) s e c = .ok ((u, name, d), c') →
            u.ownNames = s.ownNames := by
  refine ⟨h.allInStep.1.names_nodup_iff, fun ks hks => ⟨after_ownNames hks, fun hnone => ?_⟩,
    fun n e c u name d c' he hrun => provide_ownNames he hrun⟩
  have hown : (s.after ks).ownNames = [] := (after_ownNames hks).trans hnone
  rw [h.allInStep.1.after.names_nodup_iff, hown]
  exact ⟨List.nodup_nil, List.disjoint_nil_right _⟩

/-- The people and the departments. -/
def peopleAndDepartments : Select :=
  (Call.addSource (.table department)).attempt {} ((Call.addSource (.table people)).attempt {} (Select.empty 0))

theorem peopleAndDepartments_formed : peopleAndDepartments.Formed :=
  ((Formed.empty 0).addTable people {}).addTable department {}

/-- The people and the departments with both names. -/
def bothNames : Select :=
  peopleAndDepartments.after [(.project (.ofPeople "name"), {}), (.project (.column ⟨department, "name"⟩), {})]

/-- The name that is projected last gets another alias. -/
theorem bothNames_distinct : bothNames.resultNames = ["name", "name1"] ∧ bothNames.resultNames.Nodup :=
  ⟨by decide +kernel,
    (peopleAndDepartments_formed.resultNames_nodup_iff.2.1 _ (by decide +kernel)).2 (by decide +kernel)⟩

/-- The people and the departments, grouped by both names. -/
def groupedNames : Select :=
  peopleAndDepartments.after [(.groupBy (.ofPeople "name"), {}), (.groupBy (.column ⟨department, "name"⟩), {})]

/-- Grouping by two columns of one name gives two result columns of that name. -/
theorem groupedNames_same_name : groupedNames.Formed
    ∧ (groupedNames.print {}).toOption
      = some "SELECT p.name, d.name FROM People p, Department d GROUP BY p.name, d.name"
    ∧ groupedNames.resultNames = ["name", "name"] ∧ ¬ groupedNames.resultNames.Nodup := by
  have hformed : groupedNames.Formed :=
    (peopleAndDepartments_formed.plainCall (k := .groupBy (.ofPeople "name")) rfl {}).plainCall
      (k := .groupBy (.column ⟨department, "name"⟩)) rfl {}
  exact ⟨hformed, by decide +kernel, by decide +kernel, by decide +kernel⟩

end Select

end SqlCompose
