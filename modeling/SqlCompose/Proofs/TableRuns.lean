import SqlCompose.Proofs.NamedJoins
import SqlCompose.Proofs.TableSteps

/-!
Runs of calls on tables. A call may look up columns of the table it is called on, and may declare its key; a
new table, a copy and a fixed table get a registry of their own. Every call makes one change to the
registries, also when it fails. So they stay well formed whatever is called, and a call that fails leaves them
alone, except for a named join that fails after its columns were looked up.
-/

namespace SqlCompose

/-! Calls. -/

/-- A call on tables. -/
inductive TableCall
  | create (name : String) (dialect : Dialect)
  | copy (t : Table)
  /-- A fixed table with the present columns of its model. -/
  | fix (model : Table)
  | column (t : Table) (name : String)
  /-- A column of a fixed table. -/
  | fixedColumn (model : Table) (name : String)
  | declare (t : Table) (names : List String)
  | declareColumns (t : Table) (cols : List Column)
  | foreignKey (t : Table) (names : List String)
  | join (t : Table) (foreign : Key)
  | joinAs (t : Table) (name : String) (target : Table) (names : List String)
  | primaryKey (t : Table)
  | columns (t : Table)

/-- What a call on tables answers. -/
inductive TableAnswer
  | view (v : View)
  | column (col : Column)
  | columns (cols : List Column)
  | key (k : Key)
  | join (j : Join)

/-- What a call does to the registries. -/
inductive Change
  | none
  | allocate (r : Registry)
  | register (t : Table) (names : List String)
  | declare (t : Table) (names : List String)

namespace Change

/-- The catalogue after a change. -/
def apply (c : Catalog) : Change → Catalog
  | none => c
  | allocate r => { c with registries := c.registries.push r }
  | register t names => c.update t (·.registerAll names)
  | declare t names => c.update t (·.declare names)

/-- What becomes of the registry of a table that is there before the change. -/
def on (t : Table) (r : Registry) : Change → Registry
  | none => r
  | allocate _ => r
  | register u names => if u.slot = t.slot then r.registerAll names else r
  | declare u names => if u.slot = t.slot then r.declare names else r

/-- The names that are looked up on a table. -/
def namesOn (t : Table) : Change → List String
  | none => []
  | allocate _ => []
  | register u names => if u.slot = t.slot then names else []
  | declare u names => if u.slot = t.slot then names else []

/-- The table that a change is made on. -/
def table? : Change → Option Table
  | none => .none
  | allocate _ => .none
  | register t _ => some t
  | declare t _ => some t

end Change

namespace TableCall

/-- What a call does, step by step. -/
def run : TableCall → TableStep TableAnswer
  | create name dialect => (.view <| .table ·) <$> modifyGet (·.newTable name dialect)
  | copy t => (.view <| .table ·) <$> modifyGet (·.copyTable t)
  | fix model => .view <$> (Build.concrete model).toStep
  | column t name => .column <$> t.lookUp name
  | fixedColumn model name => .column <$> Build.toStep (·.fixedColumn model name)
  | declare t names => do
    t.declare names
    return .view (.table t)
  | declareColumns t cols => do
    t.declareColumns cols
    return .view (.table t)
  | foreignKey t names => do
    let cols ← t.lookUpAll names
    return .key ⟨.table t, cols.map .column⟩
  | join t foreign => do
    let j ← (liftM ((← get).joinByKey t foreign) : TableStep Join)
    return .join j
  | joinAs t name target names => .join <$> (·.joinAs t name target names)
  | primaryKey t => return .key ⟨.table t, ((← get).keyColumns t).map .column⟩
  | columns t => return .columns ((← get).columns t)

/-- The table that a call is made on, if it can look up columns there. -/
def handle? : TableCall → Option Table
  | column t _ => some t
  | declare t _ => some t
  | declareColumns t _ => some t
  | foreignKey t _ => some t
  | joinAs t _ _ _ => some t
  | _ => none

/-- The registry that a call makes a new table with. -/
def fresh? (c : Catalog) : TableCall → Option Registry
  | create .. => some {}
  | copy t => some (c.registry t)
  | fix model => some (c.registry model)
  | _ => none

/-- The change that a call makes. Keys are declared only if nothing is wrong with them, and a named join looks
its columns up as soon as the target has a key. -/
def change (c : Catalog) : TableCall → Change
  | create .. => .allocate {}
  | copy t => .allocate (c.registry t)
  | fix model => .allocate (c.registry model)
  | column t name => .register t [name]
  | fixedColumn _ _ => .none
  | declare t names => if (c.declareKey t names).isOk then .declare t names else .none
  | declareColumns t cols =>
    if (c.declareKeyColumns t cols).isOk then .declare t (cols.map (·.name)) else .none
  | foreignKey t names => .register t names
  | join .. => .none
  | joinAs t _ target names => if (c.keyColumns target).isEmpty then .none else .register t names
  | primaryKey _ => .none
  | columns _ => .none

end TableCall

namespace Catalog

variable {c c' : Catalog} {t : Table} {names : List String}

theorem declareKey_eq_ok (h : c.declareKey t names = .ok c') : c' = c.update t (·.declare names)
    ∧ (c.registry t).primaryKey = none := by
  rw [declareKey] at h
  split at h
  · cases h
  case isFalse hkey =>
    split at h
    · cases h
    · exact ⟨(Except.ok.inj h).symm, Option.not_isSome_iff_eq_none.mp hkey⟩

theorem declareKeyColumns_eq_ok {cols : List Column} (h : c.declareKeyColumns t cols = .ok c') :
    c.declareKey t (cols.map (·.name)) = .ok c' := by
  rw [declareKeyColumns] at h
  split at h
  · cases h
  · split at h
    · cases h
    · exact h

end Catalog

namespace TableCall

variable {c : Catalog} {k : TableCall} {e : Error}

theorem run_fixedColumn (c : Catalog) (model : Table) (name : String) :
    (run (.fixedColumn model name) c).2 = c := by
  rw [run, TableStep.map_apply, Build.toStep, Catalog.fixedColumn_eq]
  cases c.hasColumn model name <;> rfl

theorem run_declare (c : Catalog) (t : Table) (names : List String) : run (.declare t names) c =
    match c.declareKey t names with
    | .ok c' => (.ok (.view (.table t)), c')
    | .error cause => (.error cause, c) := by
  rw [run, Table.declare_eq]
  exact TableStep.checked_apply

theorem run_declareColumns (c : Catalog) (t : Table) (cols : List Column) : run (.declareColumns t cols) c =
    match c.declareKeyColumns t cols with
    | .ok c' => (.ok (.view (.table t)), c')
    | .error cause => (.error cause, c) := by
  rw [run, Table.declareColumns_eq]
  exact TableStep.checked_apply

theorem run_join (c : Catalog) (t : Table) (foreign : Key) :
    run (.join t foreign) c = ((c.joinByKey t foreign).map .join, c) := by
  rw [run, TableStep.bind_apply]
  show ((liftM (c.joinByKey t foreign) : TableStep Join) >>= _ : TableStep _) c = _
  rw [TableStep.bind_apply]
  cases c.joinByKey t foreign <;> rfl

theorem run_joinAs (c : Catalog) (t : Table) (name : String) (target : Table) (names : List String) :
    run (.joinAs t name target names) c
      = ((c.joinAs t name target names).1.map .join, (c.joinAs t name target names).2) :=
  TableStep.map_apply

/-- A call makes its change and nothing else, also when it fails. -/
theorem run_snd (k : TableCall) (c : Catalog) : (k.run c).2 = (k.change c).apply c := by
  cases k with
  | create name dialect => rfl
  | copy t => rfl
  | fix model => rfl
  | column t name => rfl
  | fixedColumn model name => exact run_fixedColumn c model name
  | declare t names =>
      rw [run_declare, change]
      cases h : c.declareKey t names with
      | error cause => rfl
      | ok c' => exact (Catalog.declareKey_eq_ok h).1
  | declareColumns t cols =>
      rw [run_declareColumns, change]
      cases h : c.declareKeyColumns t cols with
      | error cause => rfl
      | ok c' => exact (Catalog.declareKey_eq_ok (Catalog.declareKeyColumns_eq_ok h)).1
  | foreignKey t names =>
      rw [run, TableStep.bind_apply, Table.lookUpAll_apply]
      rfl
  | join t foreign => rw [run_join]; rfl
  | joinAs t name target names =>
      rw [run_joinAs, change]
      by_cases hkey : c.keyColumns target = []
      · rw [Catalog.joinAs_of_no_key hkey, hkey]
        rfl
      · rw [Catalog.joinAs_of_key hkey, if_neg (mt List.isEmpty_iff.mp hkey)]
        rfl
  | primaryKey t => rfl
  | columns t => rfl

/-- What a call changes belongs to the table that it is made on. -/
theorem handle_of_change {t : Table} (h : (k.change c).table? = some t) : k.handle? = some t := by
  cases k with
  | create name dialect => cases h
  | copy t => cases h
  | fix model => cases h
  | column t name => exact h
  | fixedColumn model name => cases h
  | declare t names =>
      rw [change] at h
      split at h
      · exact h
      · cases h
  | declareColumns t cols =>
      rw [change] at h
      split at h
      · exact h
      · cases h
  | foreignKey t names => exact h
  | join t foreign => cases h
  | joinAs t name target names =>
      rw [change] at h
      split at h
      · cases h
      · exact h
  | primaryKey t => cases h
  | columns t => cases h

end TableCall

/-! What a change does to one table. -/

namespace Catalog

variable {c : Catalog} {t u : Table}

/-- The registries of all tables are well formed. -/
def WellFormed (c : Catalog) : Prop := ∀ t, c.Holds t → (c.registry t).WellFormed

theorem registry_congr (h : t.slot = u.slot) : c.registry t = c.registry u := by
  rw [registry, registry, h]

theorem registry_push_of_holds {r : Registry} (h : c.Holds t) :
    registry { c with registries := c.registries.push r } t = c.registry t := by
  rw [registry, registry, Array.getElem?_push, if_neg (Nat.ne_of_lt h)]

theorem registry_push {r : Registry} (h : t.slot = c.registries.size) :
    registry { c with registries := c.registries.push r } t = r := by
  rw [registry, Array.getElem?_push, if_pos h]
  rfl

theorem holds_push {r : Registry} :
    Holds { c with registries := c.registries.push r } t ↔ c.Holds t ∨ t.slot = c.registries.size := by
  rw [Holds, Array.size_push, Nat.lt_succ_iff_lt_or_eq]
  rfl

end Catalog

namespace Change

variable {c : Catalog} {ch : Change} {t : Table} {r : Registry}

theorem holds (h : c.Holds t) : (ch.apply c).Holds t := by
  cases ch with
  | none => exact h
  | allocate r => exact Catalog.holds_push.mpr (Or.inl h)
  | register u names => exact Catalog.holds_update.mpr h
  | declare u names => exact Catalog.holds_update.mpr h

theorem registry_apply (h : c.Holds t) : (ch.apply c).registry t = ch.on t (c.registry t) := by
  cases ch with
  | none => rfl
  | allocate r => exact Catalog.registry_push_of_holds h
  | register u names =>
      rw [apply, on]
      split
      case isTrue hslot => exact Catalog.registry_update h hslot
      case isFalse hslot => exact Catalog.registry_update_of_ne hslot
  | declare u names =>
      rw [apply, on]
      split
      case isTrue hslot => exact Catalog.registry_update h hslot
      case isFalse hslot => exact Catalog.registry_update_of_ne hslot

/-- Other tables keep their registries. -/
theorem on_of_ne (h : ∀ u, ch.table? = some u → u.slot ≠ t.slot) : ch.on t r = r := by
  cases ch with
  | none => rfl
  | allocate r => rfl
  | register u names => exact if_neg (h u rfl)
  | declare u names => exact if_neg (h u rfl)

theorem namesOn_of_ne (h : ∀ u, ch.table? = some u → u.slot ≠ t.slot) : ch.namesOn t = [] := by
  cases ch with
  | none => rfl
  | allocate r => rfl
  | register u names => exact if_neg (h u rfl)
  | declare u names => exact if_neg (h u rfl)

/-- The names that are looked up on a table are registered, and no others. -/
theorem columns_on (ch : Change) (t : Table) (r : Registry) :
    (ch.on t r).columns = (r.registerAll (ch.namesOn t)).columns := by
  cases ch with
  | none => rfl
  | allocate r => rfl
  | register u names =>
      rw [on, namesOn]
      split <;> rfl
  | declare u names =>
      rw [on, namesOn]
      split <;> rfl

/-- Keys are declared on tables without one, and new registries are well formed. -/
def Fits (c : Catalog) : Change → Prop
  | none => True
  | allocate r => r.WellFormed
  | register .. => True
  | declare t _ => (c.registry t).primaryKey = .none

/-- A declared key stays. -/
theorem Fits.primaryKey_on (h : ch.Fits c) {key : List String} (hkey : (c.registry t).primaryKey = some key) :
    (ch.on t (c.registry t)).primaryKey = some key := by
  cases ch with
  | none => exact hkey
  | allocate r => exact hkey
  | register u names =>
      rw [on]
      split
      · rw [Registry.primaryKey_registerAll, hkey]
      · exact hkey
  | declare u names =>
      rw [on]
      split
      case isTrue hslot =>
        rw [Fits, Catalog.registry_congr hslot, hkey] at h
        cases h
      case isFalse => exact hkey

theorem on_wellFormed (h : r.WellFormed) : (ch.on t r).WellFormed := by
  cases ch with
  | none => exact h
  | allocate r => exact h
  | register u names =>
      rw [on]
      split
      · exact h.registerAll
      · exact h
  | declare u names =>
      rw [on]
      split
      · exact h.declare
      · exact h

theorem Fits.wellFormed (h : ch.Fits c) (hc : c.WellFormed) : (ch.apply c).WellFormed := by
  intro t ht
  by_cases hheld : c.Holds t
  · rw [registry_apply hheld]
    exact on_wellFormed (hc t hheld)
  · -- only a new table is there now and was not there before
    cases ch with
    | none => exact absurd ht hheld
    | allocate r =>
        rw [apply, Catalog.registry_push ((Catalog.holds_push.mp ht).resolve_left hheld)]
        exact h
    | register u names => exact absurd (Catalog.holds_update.mp ht) hheld
    | declare u names => exact absurd (Catalog.holds_update.mp ht) hheld

end Change

namespace TableCall

variable {c : Catalog} {k : TableCall} {t : Table}

theorem change_fits (hc : c.WellFormed) : (k.change c).Fits c := by
  have hcopy : ∀ t, (c.registry t).WellFormed := by
    intro t
    by_cases ht : c.Holds t
    · exact hc t ht
    · rw [Catalog.registry_of_not_holds ht]
      exact .empty
  cases k with
  | create name dialect => exact Registry.WellFormed.empty
  | copy t => exact hcopy t
  | fix model => exact hcopy model
  | column t name => trivial
  | fixedColumn model name => trivial
  | declare t names =>
      rw [change]
      cases h : c.declareKey t names with
      | error cause => trivial
      | ok c' => exact (Catalog.declareKey_eq_ok h).2
  | declareColumns t cols =>
      rw [change]
      cases h : c.declareKeyColumns t cols with
      | error cause => trivial
      | ok c' => exact (Catalog.declareKey_eq_ok (Catalog.declareKeyColumns_eq_ok h)).2
  | foreignKey t names => trivial
  | join t foreign => trivial
  | joinAs t name target names =>
      rw [change]
      split <;> trivial
  | primaryKey t => trivial
  | columns t => trivial

end TableCall

/-! Runs. -/

/-- Operations with the change that each of them makes to the tables that are there. -/
class Operates (α : Type) where
  /-- The catalogue after an operation, whether it fails or not. -/
  effect : Catalog → α → Catalog
  change : Catalog → α → Change
  holds {c : Catalog} {t : Table} (o : α) (h : c.Holds t) : (effect c o).Holds t
  registry {c : Catalog} {t : Table} (o : α) (h : c.Holds t) :
    (effect c o).registry t = (change c o).on t (c.registry t)

instance : Operates TableCall where
  effect c k := (k.run c).2
  change c k := k.change c
  holds k h := k.run_snd _ ▸ Change.holds h
  registry k h := k.run_snd _ ▸ Change.registry_apply h

namespace Catalog

variable {α : Type} [Operates α] {c : Catalog} {t : Table}

/-- The catalogue after some operations. -/
def after (c : Catalog) (os : List α) : Catalog := os.foldl Operates.effect c

/-- The names that some operations look up on a table, in their order. -/
def lookedUp (t : Table) : List α → Catalog → List String
  | [], _ => []
  | o :: os, c => (Operates.change c o).namesOn t ++ lookedUp t os (Operates.effect c o)

theorem lookedUp_eq_nil : ∀ {os : List α} {c : Catalog},
    (∀ o ∈ os, ∀ d, (Operates.change d o).namesOn t = []) → lookedUp t os c = []
  | [], _, _ => rfl
  | o :: os, c, h => by
      rw [List.forall_mem_cons] at h
      rw [lookedUp, h.1, lookedUp_eq_nil h.2, List.nil_append]

theorem after_induction {P : Catalog → Prop} (hstep : ∀ (o : α) (c : Catalog), P c → P (Operates.effect c o)) :
    ∀ (os : List α) {c : Catalog}, P c → P (c.after os)
  | [], _, h => h
  | o :: os, _, h => after_induction hstep os (hstep o _ h)

/-- The columns of a table are those it had and behind them those that are looked up. -/
theorem columns_after (t : Table) : ∀ (os : List α) {c : Catalog}, c.Holds t →
    ((c.after os).registry t).columns = ((c.registry t).registerAll (lookedUp t os c)).columns
  | [], _, _ => rfl
  | o :: os, c, h => by
      have hstep : ((Operates.effect c o).registry t).columns
          = ((c.registry t).registerAll ((Operates.change c o).namesOn t)).columns := by
        rw [Operates.registry o h, Change.columns_on]
      rw [lookedUp, Registry.registerAll_append, ← Registry.columns_registerAll_congr _ hstep]
      exact columns_after t os (Operates.holds o h)

theorem wellFormed_run (k : TableCall) (c : Catalog) (hc : c.WellFormed) : (k.run c).2.WellFormed := by
  rw [k.run_snd c]
  exact (TableCall.change_fits hc).wellFormed hc

theorem wellFormed_empty : WellFormed {} := fun _ ht => absurd ht (Nat.not_lt_zero _)

/-- A declared key stays as it was declared. -/
theorem primaryKey_after {key : List String} (ks : List TableCall) (hc : c.WellFormed) (ht : c.Holds t)
    (hkey : (c.registry t).primaryKey = some key) : ((c.after ks).registry t).primaryKey = some key := by
  have hkept : (c.after ks).WellFormed ∧ (c.after ks).Holds t
      ∧ ((c.after ks).registry t).primaryKey = some key := by
    refine after_induction (P := fun c => c.WellFormed ∧ c.Holds t ∧ (c.registry t).primaryKey = some key)
      (fun k c h => ⟨wellFormed_run k c h.1, Operates.holds k h.2.1, ?_⟩) ks ⟨hc, ht, hkey⟩
    rw [Operates.registry k h.2.1]
    exact (TableCall.change_fits h.1).primaryKey_on h.2.2
  exact hkept.2.2

/-- Catalogues that calls on tables make of an empty one. -/
def FromCalls (c : Catalog) : Prop := ∃ ks : List TableCall, c = after {} ks

theorem FromCalls.wellFormed (h : c.FromCalls) : c.WellFormed := by
  obtain ⟨ks, rfl⟩ := h
  exact after_induction wellFormed_run ks wellFormed_empty

theorem mk_injective (t : Table) : Function.Injective (Column.mk t) := fun _ _ h => (Column.mk.inj h).2

/-- A call that makes a table gives it a registry of its own. -/
theorem exists_fresh {k : TableCall} {r : Registry} (h : k.fresh? c = some r) :
    ∃ m, ((k.run c).1 = .ok (.view (.table m)) ∨ (k.run c).1 = .ok (.view (.concrete m)))
      ∧ m.slot = c.registries.size ∧ (k.run c).2.Holds m ∧ (k.run c).2.registry m = r := by
  have hheld : ∀ m : Table, m.slot = c.registries.size →
      Holds { c with registries := c.registries.push r } m := fun m hm => holds_push.mpr (Or.inr hm)
  cases k with
  | create name dialect =>
      obtain rfl := Option.some.inj h
      exact ⟨⟨_, name, dialect⟩, Or.inl rfl, rfl, hheld _ rfl, registry_push rfl⟩
  | copy t =>
      obtain rfl := Option.some.inj h
      exact ⟨⟨_, t.name, t.dialect⟩, Or.inl rfl, rfl, hheld _ rfl, registry_push rfl⟩
  | fix model =>
      obtain rfl := Option.some.inj h
      exact ⟨⟨_, model.name, model.dialect⟩, Or.inr rfl, rfl, hheld _ rfl, registry_push rfl⟩
  | _ => cases h

/-- Whatever is called on tables, and whether it fails or not, a table lists each column once, those of its key
among them. Later calls put the columns they look up behind these in the order of their first look-up, and
leave a declared key as it is. A call changes no registry but that of the table it is made on, and a table that
it makes shares its registry with no other. -/
theorem FromCalls.tables_kept (h : c.FromCalls) (ht : c.Holds t) (k : TableCall) (ks : List TableCall) :
    (c.columns t).Nodup ∧ c.keyColumns t ⊆ c.columns t
      ∧ c.columns t <+: (c.after ks).columns t
      ∧ (c.after ks).columns t
        = (((c.registry t).columns ++ lookedUp t ks c).eraseDups).map (Column.mk t)
      ∧ (∀ key, (c.registry t).primaryKey = some key → ((c.after ks).registry t).primaryKey = some key)
      ∧ ((∀ u, k.handle? = some u → u.slot ≠ t.slot) → (k.run c).2.registry t = c.registry t)
      ∧ ∀ r, k.fresh? c = some r → ∃ m,
        ((k.run c).1 = .ok (.view (.table m)) ∨ (k.run c).1 = .ok (.view (.concrete m)))
          ∧ m.slot ≠ t.slot ∧ (k.run c).2.Holds m ∧ (k.run c).2.registry m = r := by
  have hwell := h.wellFormed t ht
  have hcolumns := columns_after t ks ht
  refine ⟨hwell.nodup.map (mk_injective t), ?_, ?_, ?_, ?_, ?_, ?_⟩
  · intro col hcol
    obtain ⟨n, hn, rfl⟩ := List.mem_map.mp hcol
    cases hkey : (c.registry t).primaryKey with
    | none =>
        rw [hkey] at hn
        cases hn
    | some key =>
        rw [hkey] at hn
        exact List.mem_map_of_mem (hwell.declared key hkey hn)
  · rw [columns, columns, hcolumns]
    exact (Registry.columns_prefix_registerAll _ _).map _
  · rw [columns, hcolumns, Registry.columns_registerAll hwell.nodup]
  · exact fun key hkey => primaryKey_after ks h.wellFormed ht hkey
  · intro hne
    rw [k.run_snd c, Change.registry_apply ht]
    exact Change.on_of_ne fun u hu => hne u (k.handle_of_change hu)
  · intro r hr
    obtain ⟨m, hanswer, hslot, hheld, hregistry⟩ := exists_fresh hr
    refine ⟨m, hanswer, ?_, hheld, hregistry⟩
    rw [hslot]
    exact (Nat.ne_of_lt ht).symm

end Catalog

namespace TableCall

def persons : Table := ⟨0, "People", {}⟩

def departments : Table := ⟨1, "Department", {}⟩

/-- Two tables, one of which has a key. -/
def staffTables : Catalog := Catalog.after {}
  [create "People" {}, create "Department" {}, column persons "ID", declare departments ["ID"]]

theorem staffTables_fromCalls : staffTables.FromCalls := ⟨_, rfl⟩

/-- A key with a column that is not new, and a second one that is rejected. -/
def keyedTwice : List TableCall := [declare persons ["name", "ID"], declare persons ["city"]]

theorem staffTables_kept : staffTables.FromCalls ∧ staffTables.Holds persons
    ∧ staffTables.columns persons <+: (staffTables.after keyedTwice).columns persons
    ∧ ((staffTables.after keyedTwice).columns persons).map (·.name) = ["ID", "name"] := by
  have hheld : staffTables.Holds persons := by decide +kernel
  obtain ⟨-, -, hprefix, -⟩ := staffTables_fromCalls.tables_kept hheld (.copy persons) keyedTwice
  exact ⟨staffTables_fromCalls, hheld, hprefix, by decide +kernel⟩

/-! Calls that fail. -/

variable {c : Catalog} {k : TableCall} {e : Error}

/-- A named join by columns that are not all registered, to a target that has a key. -/
def Spills (c : Catalog) : TableCall → Prop
  | joinAs t _ target names => c.keyColumns target ≠ [] ∧ ¬ names ⊆ (c.registry t).columns
  | _ => False

/-- A call that fails changes nothing, or it is a named join with lists of different lengths. -/
theorem change_of_error (h : (k.run c).1 = .error e) : (k.change c = .none ∧ ¬ k.Spills c)
    ∨ ∃ t name target names, k = .joinAs t name target names ∧ c.keyColumns target ≠ []
      ∧ k.change c = .register t names ∧ e = .sizeMismatch names.length (c.keyColumns target).length := by
  cases k with
  | create name dialect => cases h
  | copy t => cases h
  | fix model => cases h
  | column t name => cases h
  | fixedColumn model name => exact Or.inl ⟨rfl, id⟩
  | declare t names =>
      rw [run_declare] at h
      rw [change]
      cases hkey : c.declareKey t names with
      | error cause => exact Or.inl ⟨rfl, id⟩
      | ok c' =>
          rw [hkey] at h
          cases h
  | declareColumns t cols =>
      rw [run_declareColumns] at h
      rw [change]
      cases hkey : c.declareKeyColumns t cols with
      | error cause => exact Or.inl ⟨rfl, id⟩
      | ok c' =>
          rw [hkey] at h
          cases h
  | foreignKey t names =>
      rw [run, TableStep.bind_apply, Table.lookUpAll_apply] at h
      cases h
  | join t foreign => exact Or.inl ⟨rfl, id⟩
  | joinAs t name target names =>
      rw [run_joinAs] at h
      rw [change]
      by_cases hkey : c.keyColumns target = []
      · rw [hkey]
        exact Or.inl ⟨rfl, fun hspills => hspills.1 hkey⟩
      · rw [if_neg (mt List.isEmpty_iff.mp hkey)]
        refine Or.inr ⟨t, name, target, names, rfl, hkey, rfl, ?_⟩
        by_cases hlength : names.length = (c.keyColumns target).length
        · obtain ⟨p, -, hjoin⟩ := Catalog.joinAs_of_length_eq t name hkey hlength
          rw [hjoin] at h
          cases h
        · rw [Catalog.joinAs_of_length_ne hkey hlength] at h
          exact (Except.error.inj h).symm
  | primaryKey t => cases h
  | columns t => cases h

/-- A call on tables that fails leaves every registry as it was, with its columns and its key, unless it is a
named join by columns that are not all registered. That call fails because the lists of columns have
different lengths, and what it looked up stays. -/
theorem failed_call_kept_iff (hheld : ∀ t, k.handle? = some t → c.Holds t) (h : (k.run c).1 = .error e) :
    ((∀ t, (k.run c).2.registry t = c.registry t) ↔ ¬ k.Spills c)
      ∧ (k.Spills c → ∃ m n, e = .sizeMismatch m n) := by
  rcases change_of_error h with ⟨hnone, hspills⟩ | ⟨t, name, target, names, rfl, hkey, hregister, rfl⟩
  · rw [k.run_snd c, hnone]
    exact ⟨⟨fun _ => hspills, fun _ _ => rfl⟩, fun hs => absurd hs hspills⟩
  · refine ⟨?_, fun _ => ⟨_, _, rfl⟩⟩
    have hspills : ¬ (joinAs t name target names).Spills c ↔ names ⊆ (c.registry t).columns := by
      rw [Spills, not_and_not_right]
      exact ⟨fun himp => himp hkey, fun hsubset _ => hsubset⟩
    rw [run_snd, hregister, Change.apply, hspills, ← Registry.registerAll_eq_self_iff]
    constructor
    · intro hkept
      rw [← hkept t, Catalog.registry_update (hheld t rfl) rfl, Registry.registerAll_twice]
    · intro hself u
      rw [Catalog.update_self fun _ => hself]

/-- A failing join by a column that is registered. -/
theorem staffTables_failing_kept : (run (.joinAs persons "boss" departments ["ID", "ID"]) staffTables).1
      = .error (.sizeMismatch 2 1)
    ∧ ∀ t, (run (.joinAs persons "boss" departments ["ID", "ID"]) staffTables).2.registry t
      = staffTables.registry t := by
  have hheld : ∀ t, handle? (.joinAs persons "boss" departments ["ID", "ID"]) = some t →
      staffTables.Holds t := by
    rintro t ⟨⟩
    decide +kernel
  have hfailed : (run (.joinAs persons "boss" departments ["ID", "ID"]) staffTables).1
      = .error (.sizeMismatch 2 1) := rfl
  refine ⟨hfailed, (failed_call_kept_iff hheld hfailed).1.mpr fun hspills => hspills.2 ?_⟩
  decide +kernel

/-- A failing join by columns that are not registered leaves them registered. -/
theorem staffTables_failing_spills : (run (.joinAs persons "boss" departments ["BOSS_ID", "CITY_ID"]) staffTables).1
      = .error (.sizeMismatch 2 1)
    ∧ (staffTables.registry persons).columns = ["ID"]
    ∧ ((run (.joinAs persons "boss" departments ["BOSS_ID", "CITY_ID"]) staffTables).2.registry persons).columns
      = ["ID", "BOSS_ID", "CITY_ID"] :=
  ⟨rfl, by decide +kernel, by decide +kernel⟩

end TableCall

end SqlCompose
