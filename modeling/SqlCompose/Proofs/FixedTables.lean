import SqlCompose.Proofs.Handles
import SqlCompose.Proofs.TableRuns

/-!
Fixed tables. A fixed table has a copy of its model with a registry of its own, and gives no column that this
copy does not have. But the copy can be had as a handle, from the fixed table, its columns and its joins, and
a column that is looked up on such a handle is registered. So a fixed table stays what it was exactly as long
as no other name is looked up there. Operations on anything but these handles leave it alone: on other tables,
on the fixed table itself, and on statements and joins over it.
-/

namespace SqlCompose

/-! Calls on all values. -/

/-- The table that registers the column when a view is asked for a selector by its name. -/
def View.handle? : View → Option Table
  | table t => some t
  | concrete _ => none
  | join _ ⟨_, _, t, _⟩ => t.handle?
  | select .. => none

/-- A call on any value. Those that leave the catalogue alone, such as printing and comparing, are left
out. -/
inductive ValueCall
  | onTables (k : TableCall)
  | selector (v : View) (name : String)
  /-- A copy of a value; a view is copied as a value. -/
  | copy (e : Expr)
  | key (v : View)
  | joinNode (j : Join)
  | selectNode (s : Select)
  | statement
  | selectors (s : Select)
  | selectorOf (s : Select) (name : String)
  | call (s : Select) (k : Call)
  | require (s : Select) (e : Expr)

namespace ValueCall

/-- The catalogue after an operation, whether it fails or not. -/
def effect (c : Catalog) : ValueCall → Catalog
  | onTables k => (k.run c).2
  | selector v name => ((v.selector name).toStep c).2
  | copy e => ((Build.copyExpr e).toStep c).2
  | key v => (v.key.toStep c).2
  | joinNode j => ((Build.joinView j).toStep c).2
  | selectNode s => ((Build.selectView s).toStep c).2
  | statement => (Build.emptySelect.toStep c).2
  | selectors s => (s.selectors.toStep c).2
  | selectorOf s name => ((s.selector name).toStep c).2
  | call s k => ((k.run s).toStep c).2
  | require s e => ((s.require e).toStep c).2

/-- The table handle that an operation looks columns up on. -/
def handle? : ValueCall → Option Table
  | onTables k => k.handle?
  | selector v _ => v.handle?
  | _ => none

/-- What an operation does to the tables that are there. -/
def change (c : Catalog) : ValueCall → Change
  | onTables k => k.change c
  | selector v name => match v.handle? with
    | some t => .register t [name]
    | none => .none
  | _ => .none

end ValueCall

/-! What operations do to the registries that are there. -/

namespace Build

variable {α : Type} {x : Build α} {c : Catalog} {t : Table}

theorem Adding.toStep (h : x.Adding) (c : Catalog) : c.registries.toList <+: (x.toStep c).2.registries.toList := by
  rw [Build.toStep]
  cases hx : x c with
  | error cause => exact List.prefix_rfl
  | ok r => exact h hx

theorem Adding.copyAll {es : List Expr} (h : ∀ e ∈ es, (Build.copyExpr e).Adding) :
    (Build.copyAll es).Adding := by
  induction es with
  | nil => exact (Quiet.pure _).adding
  | cons e es ih =>
      rw [List.forall_mem_cons] at h
      rw [Build.copyAll]
      exact .bind h.1 fun _ => .bind (ih h.2) fun _ => (Quiet.pure _).adding

theorem Adding.copyExpr : ∀ e : Expr, (Build.copyExpr e).Adding
  | .view v => .bind (.copyView v) fun _ => (Quiet.pure _).adding
  | .apply op args => by
      rw [Build.copyExpr]
      exact .bind (Adding.copyAll fun e _ => Adding.copyExpr e) fun _ => (Quiet.pure _).adding
  | .literal _ => (Quiet.pure _).adding
  | .column _ => (Quiet.pure _).adding
  | .star _ => (Quiet.pure _).adding
  | .projected .. => (Quiet.pure _).adding
  | .pinned .. => (Quiet.pure _).adding
  | .within .. => (Quiet.pure _).adding

theorem Adding.key (v : View) : v.key.Adding := by
  cases v with
  | select i s =>
      intro c k c' h
      obtain ⟨⟨w, c₁⟩, hw, h₁⟩ := SqlCompose.bind_eq_ok.mp h
      obtain ⟨-, rfl⟩ := Prod.mk.inj (Except.ok.inj h₁)
      exact (Quiet.selectView s).adding hw
  | _ =>
      intro c k c' h
      obtain ⟨-, rfl⟩ := Prod.mk.inj (Except.ok.inj h)
      exact List.prefix_rfl

theorem Quiet.emptySelect : Build.emptySelect.Quiet := by
  intro c s c' h
  obtain ⟨mark, c₁, hmark, h₁⟩ := bind_eq_ok.mp h
  obtain ⟨-, rfl⟩ := Prod.mk.inj (pure_eq_ok.mp h₁)
  obtain ⟨-, rfl⟩ := Prod.mk.inj (Except.ok.inj hmark)
  rfl

theorem Adding.require (s : Select) (e : Expr) : (s.require e).Adding := by
  intro c r c' h
  exact Select.requireViews_induction (P := fun _ d => c.registries.toList <+: d.registries.toList)
    (fun _ hadd hprefix => hprefix.trans (Select.addSource_adding _ _ hadd)) h List.prefix_rfl

end Build

namespace View

/-- Asking for a selector registers a column on the table behind the view, if there is one. -/
theorem effect_selector (v : View) (name : String) (c : Catalog) : ((v.selector name).toStep c).2 =
    match v.handle? with
    | some t => c.update t (·.register name)
    | none => c := by
  fun_induction handle? v with
  | case1 t => rfl
  | case2 m =>
      rw [View.selector, Build.toStep, Catalog.fixedColumn_eq]
      cases c.hasColumn m name <;> rfl
  | case3 i n s t p ih => exact ih
  | case4 i s =>
      rw [View.selector, Build.toStep]
      cases s.selectorOf (.select i s) name <;> rfl

end View

namespace ValueCall

variable {c : Catalog} {t : Table} {o : ValueCall}

/-- An operation makes its change to the tables that are there, and may put others behind them. -/
theorem effect_cases (o : ValueCall) (c : Catalog) : o.effect c = (o.change c).apply c
    ∨ o.change c = .none ∧ c.registries.toList <+: (o.effect c).registries.toList := by
  cases o with
  | onTables k => exact Or.inl (k.run_snd c)
  | selector v name =>
      refine Or.inl ((v.effect_selector name c).trans ?_)
      rw [change]
      cases v.handle? <;> rfl
  | copy e => exact Or.inr ⟨rfl, (Build.Adding.copyExpr e).toStep c⟩
  | key v => exact Or.inr ⟨rfl, (Build.Adding.key v).toStep c⟩
  | joinNode j => exact Or.inr ⟨rfl, (Build.Quiet.joinView j).adding.toStep c⟩
  | selectNode s => exact Or.inr ⟨rfl, (Build.Quiet.selectView s).adding.toStep c⟩
  | statement => exact Or.inr ⟨rfl, Build.Quiet.emptySelect.adding.toStep c⟩
  | selectors s =>
      have hquiet : s.selectors.Quiet := .bind (.selectView s) fun _ => .pure _
      exact Or.inr ⟨rfl, hquiet.adding.toStep c⟩
  | selectorOf s name =>
      have hquiet : (s.selector name).Quiet := .bind (.selectView s) fun _ => .lift _
      exact Or.inr ⟨rfl, hquiet.adding.toStep c⟩
  | call s k => exact Or.inr ⟨rfl, (k.run_adding s).toStep c⟩
  | require s e => exact Or.inr ⟨rfl, (Build.Adding.require s e).toStep c⟩

theorem handle_of_change (h : (o.change c).table? = some t) : o.handle? = some t := by
  cases o with
  | onTables k => exact k.handle_of_change h
  | selector v name =>
      rw [change] at h
      rw [handle?]
      cases hv : v.handle? with
      | none =>
          rw [hv] at h
          cases h
      | some u =>
          rw [hv] at h
          exact h
  | _ => cases h

instance : Operates ValueCall where
  effect c o := o.effect c
  change c o := o.change c
  holds {c t} o h := by
    rcases o.effect_cases c with heq | ⟨-, hprefix⟩
    · exact heq ▸ Change.holds h
    · exact Nat.lt_of_lt_of_le h hprefix.length_le
  registry {c t} o h := by
    rcases o.effect_cases c with heq | ⟨hnone, hprefix⟩
    · exact heq ▸ Change.registry_apply h
    · rw [hnone]
      exact Catalog.agrees_of_prefix hprefix t h

end ValueCall

/-! Fixed tables. -/

namespace Catalog

variable {c c' : Catalog} {m : Table}

/-- A fixed table lists the same columns in both catalogues, and gives columns for the same names. -/
def ShowsSame (c c' : Catalog) (m : Table) : Prop :=
  c'.columns m = c.columns m ∧ ∀ name, (c'.fixedColumn m name).isOk = (c.fixedColumn m name).isOk

theorem isOk_fixedColumn (c : Catalog) (m : Table) (name : String) :
    (c.fixedColumn m name).isOk = c.hasColumn m name := by
  rw [fixedColumn]
  cases c.hasColumn m name <;> rfl

theorem showsSame_iff : c.ShowsSame c' m ↔ (c'.registry m).columns = (c.registry m).columns := by
  constructor
  · intro h
    exact List.map_injective_iff.mpr (mk_injective m) h.1
  · intro h
    refine ⟨?_, fun name => ?_⟩
    · rw [columns, columns, h]
    · rw [isOk_fixedColumn, isOk_fixedColumn, hasColumn, hasColumn, h]

/-- A fixed table lists what it did, and gives columns for the names it did, exactly if nothing but its columns
was looked up on its model in the meantime. Whatever is done without a handle of the model leaves it alone:
with the table it was made from, with the fixed table itself, with statements, joins and copies. -/
theorem fixed_table_kept_iff (h : c.Holds m) (os : List ValueCall) :
    (c.ShowsSame (c.after os) m ↔ lookedUp m os c ⊆ (c.registry m).columns)
      ∧ ((∀ o ∈ os, ∀ t, o.handle? = some t → t.slot ≠ m.slot) → c.ShowsSame (c.after os) m) := by
  have hiff : c.ShowsSame (c.after os) m ↔ lookedUp m os c ⊆ (c.registry m).columns := by
    rw [showsSame_iff, columns_after m os h, Registry.columns_registerAll_eq_iff]
  refine ⟨hiff, fun hhandles => hiff.mpr ?_⟩
  rw [lookedUp_eq_nil fun o ho d => Change.namesOn_of_ne fun t ht => hhandles o ho t (o.handle_of_change ht)]
  exact List.nil_subset _

end Catalog

open TableCall

/-- The tables of the staff, and a fixed table of the people. -/
def fixedStaff : Catalog := (TableCall.run (.fix persons) staffTables).2

/-- The model of the fixed table. -/
def fixedPersons : Table := ⟨2, "People", {}⟩

/-- A column of the table it was made from, one it does not have, and a statement over it. -/
def besideModel : List ValueCall :=
  [.onTables (.column persons "name"), .selector (.concrete fixedPersons) "name",
    .call (Select.empty 0) (.addSource (.concrete fixedPersons))]

theorem fixedStaff_kept : fixedStaff.Holds fixedPersons
    ∧ (∀ o ∈ besideModel, ∀ t, o.handle? = some t → t.slot ≠ fixedPersons.slot)
    ∧ fixedStaff.ShowsSame (fixedStaff.after besideModel) fixedPersons
    ∧ ((fixedStaff.after besideModel).columns persons).map (·.name) = ["ID", "name"]
    ∧ ((fixedStaff.after besideModel).columns fixedPersons).map (·.name) = ["ID"] := by
  have hheld : fixedStaff.Holds fixedPersons := by decide +kernel
  have hhandles : ∀ o ∈ besideModel, ∀ t, o.handle? = some t → t.slot ≠ fixedPersons.slot := by
    simp [besideModel, ValueCall.handle?, TableCall.handle?, View.handle?, persons, fixedPersons]
  exact ⟨hheld, hhandles, (Catalog.fixed_table_kept_iff hheld besideModel).2 hhandles, by decide +kernel,
    by decide +kernel⟩

/-- A column that is looked up on the model is a column of the fixed table from then on. -/
theorem fixedStaff_thawed : (fixedStaff.columns fixedPersons).map (·.name) = ["ID"]
    ∧ (fixedStaff.fixedColumn fixedPersons "added").isOk = false
    ∧ ((fixedStaff.after [ValueCall.onTables (.column fixedPersons "added")]).columns fixedPersons).map (·.name)
      = ["ID", "added"]
    ∧ ((fixedStaff.after [ValueCall.onTables (.column fixedPersons "added")]).fixedColumn fixedPersons
      "added").isOk = true := by
  decide +kernel

end SqlCompose
