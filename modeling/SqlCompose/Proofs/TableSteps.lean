import Mathlib.Data.List.Nodup
import SqlCompose.Query.Selector

/-!
Steps on the handles of tables. Looking a column up registers it behind the others, and what a step has
registered stays registered when it fails. Declaring a key looks the columns up one after the other, but all
checks come first, so it is all or nothing.
-/

namespace SqlCompose

/-! Registries. -/

theorem List.eraseDups_of_nodup {l : List String} (h : l.Nodup) : l.eraseDups = l := by
  induction l with
  | nil => rfl
  | cons a l ih =>
      rw [List.nodup_cons] at h
      have hfilter : l.filter (fun b => !b == a) = l := by
        rw [List.filter_eq_self]
        intro b hb
        simpa using fun heq : b = a => h.1 (heq ▸ hb)
      rw [List.eraseDups_cons, hfilter, ih h.2]

namespace Registry

variable {r : Registry} {names : List String}

/-- The columns are there once each, and those of the key are among them. -/
structure WellFormed (r : Registry) : Prop where
  nodup : r.columns.Nodup
  declared : ∀ key, r.primaryKey = some key → key ⊆ r.columns

theorem register_of_mem {name : String} (h : name ∈ r.columns) : r.register name = r := by
  rw [register, if_pos (List.contains_iff_mem.mpr h)]

theorem register_of_not_mem {name : String} (h : name ∉ r.columns) :
    r.register name = { r with columns := r.columns ++ [name] } := by
  rw [register, if_neg (mt List.contains_iff_mem.mp h)]

theorem nodup_register (h : r.columns.Nodup) (name : String) : (r.register name).columns.Nodup := by
  by_cases hn : name ∈ r.columns
  · rwa [register_of_mem hn]
  · rw [register_of_not_mem hn, ← List.concat_eq_append]
    exact h.concat hn

theorem registerAll_cons (r : Registry) (n : String) (ns : List String) :
    r.registerAll (n :: ns) = (r.register n).registerAll ns := rfl

theorem registerAll_append (r : Registry) (ms ns : List String) :
    r.registerAll (ms ++ ns) = (r.registerAll ms).registerAll ns := List.foldl_append

theorem columns_register (r : Registry) (name : String) :
    (r.register name).columns = if r.columns.contains name then r.columns else r.columns ++ [name] := by
  rw [register]
  split <;> rfl

theorem columns_registerAll_congr : ∀ (names : List String) {r s : Registry}, r.columns = s.columns →
    (r.registerAll names).columns = (s.registerAll names).columns
  | [], _, _, h => h
  | n :: ns, r, s, h => by
      have hregister : (r.register n).columns = (s.register n).columns := by
        rw [columns_register, columns_register, h]
      exact columns_registerAll_congr ns hregister

theorem columns_prefix_registerAll : ∀ (names : List String) (r : Registry),
    r.columns <+: (r.registerAll names).columns
  | [], _ => List.prefix_rfl
  | n :: ns, r => by
      refine List.IsPrefix.trans ?_ (columns_prefix_registerAll ns (r.register n))
      rw [columns_register]
      split
      · exact List.prefix_rfl
      · exact List.prefix_append _ _

theorem primaryKey_registerAll : ∀ (names : List String) (r : Registry),
    (r.registerAll names).primaryKey = r.primaryKey
  | [], _ => rfl
  | n :: ns, r => by
      rw [registerAll_cons, primaryKey_registerAll ns, register]
      split <;> rfl

/-- Registered columns stand in the order in which they were first named. -/
theorem columns_registerAll : ∀ {names : List String} {r : Registry}, r.columns.Nodup →
    (r.registerAll names).columns = (r.columns ++ names).eraseDups
  | [], r, h => by
      rw [List.append_nil, List.eraseDups_of_nodup h]
      rfl
  | n :: ns, r, h => by
      rw [registerAll_cons, columns_registerAll (nodup_register h n)]
      by_cases hn : n ∈ r.columns
      · -- a name that is there already is dropped from the names behind the columns
        rw [register_of_mem hn, List.eraseDups_append, List.eraseDups_append]
        simp [List.removeAll, hn]
      · rw [register_of_not_mem hn, List.append_assoc, List.singleton_append]

theorem mem_registerAll {n : String} : ∀ {names : List String} {r : Registry},
    n ∈ (r.registerAll names).columns ↔ n ∈ r.columns ∨ n ∈ names
  | [], r => by simp [registerAll]
  | m :: ns, r => by
      have hregister : n ∈ (r.register m).columns ↔ n ∈ r.columns ∨ n = m := by
        by_cases hm : m ∈ r.columns
        · rw [register_of_mem hm]
          exact ⟨Or.inl, fun h => h.elim id fun heq => heq ▸ hm⟩
        · rw [register_of_not_mem hm, List.mem_append, List.mem_singleton]
      rw [registerAll_cons, mem_registerAll, hregister, List.mem_cons, or_assoc]

theorem registerAll_of_subset : ∀ {names : List String} {r : Registry}, names ⊆ r.columns →
    r.registerAll names = r
  | [], _, _ => rfl
  | n :: ns, r, h => by
      rw [List.cons_subset] at h
      rw [registerAll_cons, register_of_mem h.1, registerAll_of_subset h.2]

/-- Names that are registered once more change nothing. -/
theorem registerAll_twice (names : List String) (r : Registry) :
    (r.registerAll names).registerAll names = r.registerAll names :=
  registerAll_of_subset fun _ hn => mem_registerAll.mpr (Or.inr hn)

theorem columns_registerAll_eq_iff : (r.registerAll names).columns = r.columns ↔ names ⊆ r.columns := by
  refine ⟨fun h n hn => ?_, fun h => by rw [registerAll_of_subset h]⟩
  rw [← h, mem_registerAll]
  exact Or.inr hn

theorem registerAll_eq_self_iff : r.registerAll names = r ↔ names ⊆ r.columns :=
  ⟨fun h => columns_registerAll_eq_iff.mp (congrArg Registry.columns h), registerAll_of_subset⟩

/-- The registry after a key was declared. -/
def declare (r : Registry) (names : List String) : Registry :=
  { r.registerAll names with primaryKey := some names }

namespace WellFormed

theorem nodup_registerAll : ∀ (names : List String) {r : Registry}, r.columns.Nodup →
    (r.registerAll names).columns.Nodup
  | [], _, h => h
  | n :: ns, _, h => nodup_registerAll ns (nodup_register h n)

theorem registerAll (h : r.WellFormed) : (r.registerAll names).WellFormed where
  nodup := nodup_registerAll _ h.nodup
  declared := by
    intro key hkey n hn
    rw [primaryKey_registerAll] at hkey
    exact mem_registerAll.mpr (Or.inl (h.declared key hkey hn))

theorem declare (h : r.WellFormed) : (r.declare names).WellFormed where
  nodup := nodup_registerAll _ h.nodup
  declared := by
    rintro key ⟨⟩ n hn
    exact mem_registerAll.mpr (Or.inr hn)

theorem empty : WellFormed {} := ⟨List.nodup_nil, fun _ h => nomatch h⟩

end WellFormed

end Registry

/-! Registries in a catalogue. -/

namespace Catalog

variable {c : Catalog} {t u : Table} {f g : Registry → Registry}

/-- A catalogue has the registry of a table. -/
def Holds (c : Catalog) (t : Table) : Prop := t.slot < c.registries.size

instance : Decidable (c.Holds t) := inferInstanceAs (Decidable (_ < _))

theorem registry_of_not_holds (h : ¬ c.Holds t) : c.registry t = {} := by
  rw [registry, Array.getElem?_eq_none (Nat.le_of_not_lt h)]
  rfl

theorem registry_update_of_ne (h : t.slot ≠ u.slot) : (c.update t f).registry u = c.registry u := by
  rw [registry, update, Array.getElem?_modify, if_neg h]
  rfl

theorem registry_update (hu : c.Holds u) (h : t.slot = u.slot) :
    (c.update t f).registry u = f (c.registry u) := by
  rw [registry, update, Array.getElem?_modify, if_pos h, registry, Array.getElem?_eq_getElem hu]
  rfl

theorem holds_update : (c.update t f).Holds u ↔ c.Holds u := by
  rw [Holds, update, Array.size_modify]
  rfl

theorem update_congr (h : c.Holds t → f (c.registry t) = g (c.registry t)) :
    c.update t f = c.update t g := by
  have hmodify : c.registries.modify t.slot f = c.registries.modify t.slot g := by
    refine Array.ext_getElem? fun i => ?_
    rw [Array.getElem?_modify, Array.getElem?_modify]
    split
    case isTrue hi =>
      subst hi
      rw [registry] at h
      cases hr : c.registries[t.slot]? with
      | none => rfl
      | some r =>
          have hheld : c.Holds t := (Array.getElem?_eq_some_iff.mp hr).1
          rw [hr] at h
          exact congrArg some (h hheld)
    case isFalse hi => rfl
  rw [update, update, hmodify]

theorem update_update : (c.update t f).update t g = c.update t fun r => g (f r) := by
  have hmodify : (c.registries.modify t.slot f).modify t.slot g
      = c.registries.modify t.slot fun r => g (f r) := by
    refine Array.ext_getElem? fun i => ?_
    rw [Array.getElem?_modify, Array.getElem?_modify, Array.getElem?_modify]
    split
    case isTrue hi => rw [Option.map_map]; rfl
    case isFalse hi => rfl
  rw [update, update, update]
  exact congrArg (fun rs => { c with registries := rs }) hmodify

theorem update_self (h : c.Holds t → f (c.registry t) = c.registry t) : c.update t f = c := by
  have hmodify : c.registries.modify t.slot (fun r => r) = c.registries := by
    refine Array.ext_getElem? fun i => ?_
    rw [Array.getElem?_modify]
    split
    case isTrue hi => rw [Option.map_id']
    case isFalse hi => rfl
  rw [update_congr (g := fun r => r) h, update, hmodify]

theorem primaryKey_update_registerAll (names : List String) :
    ((c.update t (·.registerAll names)).registry t).primaryKey = (c.registry t).primaryKey := by
  by_cases h : c.Holds t
  · rw [registry_update h rfl, Registry.primaryKey_registerAll]
  · rw [update_self fun hheld => absurd hheld h]

/-- A fixed table gives columns that are registered, so nothing is registered then. -/
theorem fixedColumn_eq (c : Catalog) (m : Table) (name : String) : c.fixedColumn m name =
    if c.hasColumn m name then .ok (⟨m, name⟩, c) else .error (.undefinedColumn name m.name) := by
  rw [fixedColumn]
  split
  case isTrue h =>
    have hmem : name ∈ (c.registry m).columns := List.contains_iff_mem.mp h
    rw [column, update_self fun _ => Registry.register_of_mem hmem]
  case isFalse => rfl

end Catalog

/-! Steps on tables. -/

/-- Steps on the handles of tables. What a step has registered stays registered when it fails. -/
abbrev TableStep := ExceptT Error (StateM Catalog)

/-- A step that leaves nothing behind when it fails. -/
def Build.toStep {α : Type} (x : Build α) : TableStep α := fun c =>
  match x c with
  | .ok (a, c') => (.ok a, c')
  | .error cause => (.error cause, c)

namespace Table

/-- Look a column up, and so register it. -/
def lookUp (t : Table) (name : String) : TableStep Column := modifyGet (·.column t name)

/-- Look some columns up, one after the other. -/
def lookUpAll (t : Table) : List String → TableStep (List Column)
  | [] => return []
  | n :: ns => return (← t.lookUp n) :: (← t.lookUpAll ns)

/-- A table has at most one key. -/
def checkNoKey (t : Table) : TableStep Unit := do
  if ((← get).registry t).primaryKey.isSome then throw (.keyAlreadyDeclared t.name)

/-- Declare the key of a table by columns of its name, which are looked up. -/
def declareColumns (t : Table) (cols : List Column) : TableStep Unit := do
  t.checkNoKey
  if cols.isEmpty then throw .emptyList
  else match cols.find? fun col => !(col.table == t) with
    | some foreign => throw (.foreignColumn foreign.name t.name)
    | none =>
      let own ← t.lookUpAll (cols.map (·.name))
      modify (·.update t fun r => { r with primaryKey := some (own.map (·.name)) })

/-- Declare the key of a table by names. The columns are looked up first, and declared then. -/
def declare (t : Table) (names : List String) : TableStep Unit := do
  t.checkNoKey
  let cols ← t.lookUpAll names
  t.declareColumns cols

end Table

namespace TableStep

variable {α β : Type} {x : TableStep α} {f : α → TableStep β} {c : Catalog}

theorem bind_apply : (x >>= f) c = match x c with
    | (.ok a, c') => f a c'
    | (.error cause, c') => (.error cause, c') := by
  show (match x c with | (r, c') => (ExceptT.bindCont f r : StateM Catalog _) c') = _
  rcases x c with ⟨cause | a, c'⟩ <;> rfl

theorem map_apply {g : α → β} : (g <$> x) c = ((x c).1.map g, (x c).2) := by
  show (match x c with | (r, c') => (_ : StateM Catalog _) c') = _
  rcases x c with ⟨cause | a, c'⟩ <;> rfl

/-- A change that may be rejected is all that happens before the answer. -/
theorem checked_apply {change : Catalog → Except Error Catalog} {a : α} :
    ((Build.toStep fun c => (change c).map (Prod.mk ())) >>= fun _ => pure a : TableStep α) c =
      match change c with
      | .ok c' => (.ok a, c')
      | .error cause => (.error cause, c) := by
  rw [bind_apply, Build.toStep]
  cases change c <;> rfl

end TableStep

namespace Table

open TableStep

variable {c : Catalog} {t : Table}

theorem map_name (t : Table) (names : List String) : (names.map (Column.mk t)).map (·.name) = names := by
  rw [List.map_map]
  exact List.map_id' names

theorem lookUpAll_apply : ∀ (names : List String) (c : Catalog),
    t.lookUpAll names c = (.ok (names.map (⟨t, ·⟩)), c.update t (·.registerAll names))
  | [], c => by rw [Catalog.update_self fun _ => rfl]; rfl
  | n :: ns, c => by
      rw [lookUpAll, bind_apply]
      show ((t.lookUpAll ns >>= fun cols => pure (⟨t, n⟩ :: cols)) : TableStep _) (c.column t n).2 = _
      rw [bind_apply, lookUpAll_apply ns, Catalog.column, Catalog.update_update]
      rfl

theorem checkNoKey_apply : t.checkNoKey c =
    if (c.registry t).primaryKey.isSome then (.error (.keyAlreadyDeclared t.name), c) else (.ok (), c) := by
  rw [checkNoKey, bind_apply]
  show (if (c.registry t).primaryKey.isSome = true then _ else _ : TableStep Unit) c = _
  split <;> rfl

/-- Declaring a key by columns is all or nothing: all of them are checked before one is looked up. -/
theorem declareColumns_eq (t : Table) (cols : List Column) : t.declareColumns cols =
    Build.toStep fun c => (c.declareKeyColumns t cols).map (Prod.mk ()) := by
  funext c
  rw [declareColumns, bind_apply, checkNoKey_apply, Build.toStep, Catalog.declareKeyColumns, Catalog.declareKey]
  by_cases hkey : (c.registry t).primaryKey.isSome = true
  · rw [if_pos hkey, if_pos hkey]
    rfl
  rw [if_neg hkey, if_neg hkey, if_neg hkey]
  by_cases hempty : cols.isEmpty = true
  · rw [List.isEmpty_iff.mp hempty]
    rfl
  rw [List.isEmpty_map, if_neg hempty]
  dsimp only
  rw [if_neg hempty]
  cases cols.find? fun col => !(col.table == t) with
  | some foreign => rfl
  | none =>
      dsimp only
      rw [bind_apply, lookUpAll_apply]
      show (Except.ok (), (c.update t _).update t _) = _
      rw [Catalog.update_update, map_name]
      rfl

/-- The columns of a table are not foreign to it. -/
theorem find?_foreign (t : Table) (names : List String) :
    (names.map (Column.mk t)).find? (fun col => !(col.table == t)) = none := by
  rw [List.find?_eq_none]
  intro col hcol
  obtain ⟨n, -, rfl⟩ := List.mem_map.mp hcol
  have hself : (t == t) = true := beq_self_eq_true t.name
  simp [hself]

/-- Declaring a key by names is all or nothing: none of the checks behind the look-ups can fail. -/
theorem declare_eq (t : Table) (names : List String) : t.declare names =
    Build.toStep fun c => (c.declareKey t names).map (Prod.mk ()) := by
  funext c
  rw [declare, bind_apply, checkNoKey_apply, Build.toStep, Catalog.declareKey]
  by_cases hkey : (c.registry t).primaryKey.isSome = true
  · rw [if_pos hkey, if_pos hkey]
    rfl
  rw [if_neg hkey, if_neg hkey]
  dsimp only
  rw [bind_apply, lookUpAll_apply]
  dsimp only
  have hkept : ¬ ((c.update t (·.registerAll names)).registry t).primaryKey.isSome = true := by
    rwa [Catalog.primaryKey_update_registerAll]
  rw [declareColumns_eq, Build.toStep, Catalog.declareKeyColumns, if_neg hkept, find?_foreign]
  dsimp only
  rw [map_name, Catalog.declareKey, if_neg hkept]
  by_cases hempty : names.isEmpty = true
  · rw [if_pos hempty, if_pos hempty, List.isEmpty_iff.mp hempty]
    rw [Catalog.update_self fun _ => rfl]
  · rw [if_neg hempty, if_neg hempty, Catalog.update_update]
    simp only [Registry.registerAll_twice]
    rfl

end Table

end SqlCompose
