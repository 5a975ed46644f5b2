import SqlCompose.Proofs.Columns
import SqlCompose.Proofs.Handles
import SqlCompose.Proofs.Headings
import SqlCompose.Proofs.InStep
import SqlCompose.Proofs.TableSteps

/-!
Columns that are registered after a statement was built. A table that is given to a statement enters it as a
copy with a registry of its own, so what is registered on the handle later does not reach the statement. The
target of a join is not copied, so its columns are still those of the handle. A statement prints the same text
or the same error as before exactly if no statement in it that lists its sources has a join whose target got a
column, apart from the text of a star.
-/

namespace SqlCompose

/-! Registering columns. -/

namespace Catalog

/-- The catalogue after some columns have been registered on some handles. -/
def registering (c : Catalog) (rs : List (Table × String)) : Catalog :=
  rs.foldl (fun c r => (c.column r.1 r.2).2) c

variable {c : Catalog} {t u : Table} {name : String} {rs : List (Table × String)}

theorem registry_column_of_ne (h : u.slot ≠ t.slot) : (c.column u name).2.registry t = c.registry t :=
  registry_update_of_ne h

theorem columns_prefix_column (c : Catalog) (t u : Table) (name : String) :
    (c.registry t).columns <+: ((c.column u name).2.registry t).columns := by
  rw [column]
  by_cases ht : c.Holds t
  · by_cases h : u.slot = t.slot
    · rw [registry_update ht h]
      exact Registry.columns_prefix_registerAll [name] (c.registry t)
    · exact (registry_update_of_ne h).symm ▸ List.prefix_rfl
  · rw [registry_of_not_holds ht]
    exact List.nil_prefix

/-- Registering columns only adds some behind the others. -/
theorem columns_prefix_registering : ∀ (rs : List (Table × String)) (c : Catalog) (t : Table),
    (c.registry t).columns <+: ((c.registering rs).registry t).columns
  | [], _, _ => List.prefix_rfl
  | r :: rs, c, t =>
      (columns_prefix_column c t r.1 r.2).trans (columns_prefix_registering rs (c.column r.1 r.2).2 t)

/-- The registry of a table stays as it is when columns are registered on other handles. -/
theorem registry_registering_of_ne : ∀ {rs : List (Table × String)} {c : Catalog} {t : Table},
    (∀ r ∈ rs, r.1.slot ≠ t.slot) → (c.registering rs).registry t = c.registry t
  | [], _, _, _ => rfl
  | r :: rs, c, t, h => by
      rw [List.forall_mem_cons] at h
      show ((c.column r.1 r.2).2.registering rs).registry t = c.registry t
      rw [registry_registering_of_ne h.2, registry_column_of_ne h.1]

end Catalog

/-! Statements that calls make while a caller holds handles of tables. -/

/-- The slots that are new in a catalogue are not among those that are held. -/
def Catalog.AddsBeside (held : Nat → Prop) (c c' : Catalog) : Prop :=
  ∀ n, c.registries.size ≤ n → n < c'.registries.size → ¬ held n

namespace Select

/-- What successful calls make of an empty statement, and what is inside it, while a caller has handles of the
tables in some slots. The slots that the calls add to the catalogue are not among these. -/
inductive FormedBeside (held : Nat → Prop) : Select → Prop
  | empty (i : Nat) : FormedBeside held (Select.empty i)
  | call {s u : Select} {k : Call} {c c' : Catalog} (h : s.FormedBeside held)
      (hk : ∀ i q, .select i q ∈ k.inside → q.FormedBeside held) (hrun : k.run s c = .ok (u, c'))
      (hnew : c.AddsBeside held c') : FormedBeside held u
  | require {s u : Select} {e : Expr} {c c' : Catalog} {added : List View} (h : s.FormedBeside held)
      (he : ∀ i q, .select i q ∈ e.inside → q.FormedBeside held)
      (hrun : s.require e c = .ok ((u, added), c')) (hnew : c.AddsBeside held c') : FormedBeside held u
  | inside {s q : Select} {i : Nat} (h : s.FormedBeside held) (hq : .select i q ∈ s.inside) :
      FormedBeside held q

/-- No table in the FROM list is held. -/
def Detached (held : Nat → Prop) (s : Select) : Prop :=
  ∀ src ∈ s.sources, ∀ t, src.view = .table t → ¬ held t.slot

variable {held : Nat → Prop} {s u q r : Select} {c c' : Catalog}

theorem FormedBeside.formed (h : s.FormedBeside held) : s.Formed := by
  induction h with
  | empty i => exact .empty i
  | call h hk hrun hnew ih ihk => exact Call.attempt_eq hrun ▸ ih.call ihk _
  | require h he hrun hnew ih ihe => exact ih.require ihe hrun
  | inside h hq ih => exact ih.inside hq

/-- A call that is given no statement, in a catalogue with all slots that are held. -/
theorem FormedBeside.plainCall {k : Call} (h : s.FormedBeside held)
    (hk : k.inside.all (fun v => !v.isStatement) = true) (c : Catalog)
    (hc : ∀ n, held n → n < c.registries.size) : (k.attempt c s).FormedBeside held := by
  cases hrun : k.run s c with
  | error r => rw [Call.attempt, hrun]; exact h
  | ok r =>
    rw [Call.attempt, hrun]
    have hplain : ∀ q i, View.select q i ∉ k.inside := fun q i hq =>
      Bool.false_ne_true (List.all_eq_true.mp hk _ hq)
    exact h.call (fun q i hq => absurd hq (hplain q i)) hrun
      fun n hn _ hheld => Nat.not_lt_of_le hn (hc n hheld)

namespace Detached

theorem empty (i : Nat) : (Select.empty i).Detached held := fun _ h => nomatch h

theorem grow (h : s.Detached held) (hf : Source.GrowAll s.sources u.sources) : u.Detached held := by
  intro y hy t ht
  obtain ⟨x, hx, -, -, -, hgrows⟩ := hf.of_mem hy
  rw [ht] at hgrows
  exact h x hx t (hgrows.eq_of_plain rfl rfl)

theorem listing {src : Source} (h : s.Detached held) (hsrc : ∀ t, src.view = .table t → ¬ held t.slot) :
    (s.listing src).Detached held :=
  List.forall_mem_append.mpr ⟨h, List.forall_mem_singleton.mpr hsrc⟩

/-- A step that places no table keeps the FROM list detached. -/
theorem step {Ok : Expr → Prop} {OkView : View → Prop} (hview : ∀ v, OkView v → v.isJoin = true)
    (h : Step Ok OkView s u) (hs : s.Detached held) : u.Detached held := by
  cases h with
  | source mark hv hw hj ha => exact absurd (hview _ hv) (by simp [hj])
  | join mark hv hl ha h => exact (hs.grow h.frame.2).listing fun _ ht => nomatch ht
  | clause he h hu =>
      have hgrown := hs.grow h.frame.2
      intro src hsrc
      exact hgrown src (hu.sources ▸ hsrc)

end Detached

/-- The FROM lists of a statement and of all statements inside are detached. -/
def AllDetached (held : Nat → Prop) (s : Select) : Prop :=
  s.Detached held ∧ s.Throughout (View.OfSelect (Detached held))

theorem lasting_detached : Lasting (View.OfSelect (Detached held)) where
  join := fun _ _ => trivial
  select := by
    intro i k q r e d name hq hp
    have hstep : Step (fun _ => True) (fun v => v.isJoin = true) q r := hp.step
    exact Detached.step (fun _ hv => hv) hstep hq

/-- A table is placed as a copy, and the slot of the copy is new. -/
theorem addSource_detached {v : View} (hs : s.AllDetached held)
    (hv : v.Throughout (View.OfSelect (Detached held))) (hj : v.isJoin = false)
    (h : s.addSource v c = .ok (u, c')) (hnew : c.AddsBeside held c') : u.AllDetached held := by
  have hplace := Build.rejecting_eq_ok.mp h
  rw [place_eq_ok hj] at hplace
  obtain ⟨w, c₁, hw, h₁⟩ := Build.bind_eq_ok.mp hplace
  have hregistries : c'.registries = c₁.registries := registerNamed_quiet s w none h₁
  obtain ⟨mark, a, pool, -, rfl⟩ := registerNamed_eq_ok h₁
  have hcopy : ∀ t, w = .table t → ¬ held t.slot := by
    rintro t rfl
    cases v with
    | table t' =>
        obtain ⟨ht, rfl⟩ := Prod.mk.inj (Except.ok.inj hw)
        obtain rfl := View.table.inj ht
        refine hnew _ (Nat.le_refl _) ?_
        rw [hregistries]
        show c.registries.size < (c.registries.push (c.registry t')).size
        rw [Array.size_push]
        exact Nat.lt_succ_self _
    | concrete m => cases (Prod.mk.inj (Build.pure_eq_ok.mp hw)).1
    | select i q => cases (Prod.mk.inj (Build.pure_eq_ok.mp hw)).1
    | join i j => cases hj
  have hview := hv.copy hw
  exact ⟨Detached.listing (s := s.entered _ pool) hs.1 hcopy,
    (hs.2.entered hview _).listing hview fun _ he => nomatch he⟩

end Select

theorem Call.run_detached {held : Nat → Prop} {s u : Select} {c c' : Catalog} {k : Call}
    (hs : s.AllDetached held) (hk : k.Throughout (View.OfSelect (Select.Detached held)))
    (h : k.run s c = .ok (u, c')) (hnew : c.AddsBeside held c') : u.AllDetached held := by
  have hlasting : Lasting (View.OfSelect (Select.Detached held)) := Select.lasting_detached
  by_cases hplain : ∀ v, k = addSource v → v.isJoin = true
  · -- No table is placed.
    have hfits : k.Fits (Expr.Throughout (View.OfSelect (Select.Detached held)))
        fun v => v.isJoin = true ∧ v.Throughout (View.OfSelect (Select.Detached held)) :=
      hk.fits hlasting (fun v hv => ⟨hplain v hv, by subst hv; exact hk⟩) fun hjoin => ⟨rfl, hjoin⟩
    have hsteps := steps (fun _ he _ => he.unwrap) hfits h
    clear h
    induction hsteps with
    | refl => exact hs
    | tail _ hstep ih =>
        refine ⟨Select.Detached.step (fun _ hv => hv.1) hstep ih.1, ?_⟩
        refine hstep.throughout hlasting (fun hv hj _ => ?_) (fun hv => hv.2) ih.2
        exact absurd hv.1 (by simp [hj])
  · simp only [not_forall] at hplain
    obtain ⟨v, rfl, hj⟩ := hplain
    exact Select.addSource_detached hs hk (by simpa using hj) h hnew

namespace Select

variable {held : Nat → Prop} {s u q r : Select} {c c' : Catalog}

theorem FormedBeside.allDetached (h : s.FormedBeside held) : s.AllDetached held := by
  induction h with
  | empty i => exact ⟨Detached.empty i, .empty i⟩
  | call h hk hrun hnew ih ihk => exact Call.run_detached ih (throughout_ofSelect ihk) hrun hnew
  | @require s u e c c' added h he hrun hnew ih ihe =>
      have hviews := Expr.Throughout.views (throughout_ofSelect ihe)
      -- so far the slots are new to the catalogue that the views were required in
      have hrequired := requireViews_induction
        (P := fun t d => c.registries.size ≤ d.registries.size ∧
          (c.AddsBeside held d → t.AllDetached held))
        (fun {s t d d' v} hv hadd hs => ?_) hrun ⟨Nat.le_refl _, fun _ => ih⟩
      · exact hrequired.2 hnew
      · have hsize : d.registries.size ≤ d'.registries.size := (addSource_adding s v hadd).length_le
        refine ⟨Nat.le_trans hs.1 hsize, fun hbeside => ?_⟩
        refine Call.run_detached (k := .addSource v) (hs.2 fun n hn hlt => ?_) (hviews v hv) hadd
          fun n hn hlt => ?_
        · exact hbeside n hn (Nat.lt_of_lt_of_le hlt hsize)
        · exact hbeside n (Nat.le_trans hs.1 hn) hlt
  | inside h hq ih =>
      exact ⟨ih.2 _ hq, fun v hv => ih.2 v (inside_trans (List.mem_cons_of_mem _ hv) hq)⟩

end Select

/-! What is registered later and read by a statement. -/

/-- The table whose columns are read through an entry of a FROM list and not through a copy of its own: the
model of a fixed table, and the table behind the target of a join. -/
def View.sharedTable? : View → Option Table
  | table _ => none
  | concrete m => some m
  | join _ ⟨_, _, t, _⟩ => t.columnTable?
  | select .. => none

theorem View.columnTable?_of_shared {t : Table} : ∀ {v : View}, v.sharedTable? = some t →
    v.columnTable? = some t
  | .concrete _, h => h
  | .join _ ⟨_, _, _, _⟩, h => h

theorem View.eq_or_shared {t : Table} : ∀ {v : View}, v.columnTable? = some t →
    v = .table t ∨ v.sharedTable? = some t
  | .table _, h => Or.inl (congrArg View.table (Option.some.inj h))
  | .concrete _, h => Or.inr h
  | .join _ ⟨_, _, _, _⟩, h => Or.inr h

/-- A source whose columns have only become more shows more names. -/
theorem Source.Headed.broadens {src : Source} {c c' : Catalog} (h : src.Headed)
    (hcolumns : ∀ t, (c.registry t).columns <+: (c'.registry t).columns) : Source.Broadens c c' src src := by
  cases ht : src.view.columnTable? with
  | none =>
      obtain ⟨x, hx⟩ := h.exists_shows c
      have hselectors := View.selectors_of_no_columnTable c c' ht
      refine ⟨x, x, hx, ⟨hx.dialect, ?_, fun pool => ?_⟩, Or.inl rfl⟩
      · rw [hx.names, exposed, exposed, hselectors]
      · rw [← hx.entries pool, defaultEntries, defaultEntries, defaultProjections_eq, defaultProjections_eq,
          hselectors]
  | some t =>
      obtain ⟨more, hmore⟩ := hcolumns t
      refine ⟨_, _, h.shows_columns ht, h.shows_columns ht, Or.inr ⟨rfl, more, ?_⟩⟩
      rw [exhibit, exhibit, h.exposed_columns ht, h.exposed_columns ht, hmore]

namespace Select

variable {held : Nat → Prop} {s u q r : Select} {c c' : Catalog} {rs : List (Table × String)}

/-- The tables that a statement shares with the handles it was made from have the same columns in another
catalogue. -/
def ColumnsKept (c c' : Catalog) (r : Select) : Prop :=
  ∀ src ∈ r.sources, ∀ t, src.view.sharedTable? = some t → (c'.registry t).columns = (c.registry t).columns

/-- The columns of a copy stay as they are. -/
theorem Detached.registry_eq (h : r.Detached held) (hrs : ∀ x ∈ rs, held x.1.slot) {src : Source}
    (hsrc : src ∈ r.sources) {t : Table} (ht : src.view = .table t) :
    (c.registering rs).registry t = c.registry t :=
  Catalog.registry_registering_of_ne fun x hx heq => h src hsrc t ht (heq ▸ hrs x hx)

theorem Detached.columns_eq (h : r.Detached held) (hrs : ∀ x ∈ rs, held x.1.slot)
    (hkept : r.ColumnsKept c (c.registering rs)) {src : Source} (hsrc : src ∈ r.sources) {t : Table}
    (ht : src.view.columnTable? = some t) :
    ((c.registering rs).registry t).columns = (c.registry t).columns := by
  rcases View.eq_or_shared ht with htable | hshared
  · rw [h.registry_eq hrs hsrc htable]
  · exact hkept src hsrc t hshared

theorem Detached.selectors_eq (h : r.Detached held) (hrs : ∀ x ∈ rs, held x.1.slot)
    (hkept : r.ColumnsKept c (c.registering rs)) :
    ∀ src ∈ r.sources, src.view.selectors (c.registering rs) = src.view.selectors c := by
  intro src hsrc
  cases ht : src.view.columnTable? with
  | none => exact View.selectors_of_no_columnTable c _ ht
  | some t =>
      rw [View.selectors_of_columnTable ht, View.selectors_of_columnTable ht, Catalog.columns,
        Catalog.columns, h.columns_eq hrs hkept hsrc ht]

/-- The names that a statement lists stay the same exactly if the columns that it shares do. -/
theorem Detached.exposures_eq_iff (h : r.Detached held) (hrs : ∀ x ∈ rs, held x.1.slot)
    (hheaded : ∀ src ∈ r.sources, src.Headed) :
    r.exposures (c.registering rs) = r.exposures c ↔ r.ColumnsKept c (c.registering rs) := by
  rw [exposures, exposures, List.map_inj_left]
  constructor
  · intro heq src hsrc t ht
    have hcolumns := View.columnTable?_of_shared ht
    have hnames := heq src hsrc
    rwa [(hheaded src hsrc).exposed_columns hcolumns, (hheaded src hsrc).exposed_columns hcolumns] at hnames
  · intro hkept src hsrc
    rw [Source.exposed, Source.exposed, h.selectors_eq hrs hkept src hsrc]

/-- What holds of a statement and of all statements inside holds of those that list their sources. -/
theorem of_mem_listings {P : Select → Prop} (h : P q ∧ q.Throughout (View.OfSelect P))
    (hr : r ∈ q.listings) : P r := by
  obtain ⟨-, rfl | ⟨i, hi⟩⟩ := mem_listings hr
  · exact h.1
  · exact h.2 _ hi

/-- Columns registered later on the handles of a caller leave the printout of a statement as it is if the
tables behind its joins get none. Without a NaN they do so exactly if in each statement that lists its
sources these tables get none, or one of them gets the name of a star in place of a star. -/
theorem FormedBeside.print_registering_iff (h : q.FormedBeside held) (c : Catalog)
    (hrs : ∀ x ∈ rs, held x.1.slot) :
    ((∀ r ∈ q.listings, r.ColumnsKept c (c.registering rs)) → q.print (c.registering rs) = q.print c)
      ∧ ((∀ r ∈ q.listings, ∀ src ∈ r.sources, src.view.nanFree = true) →
        (q.print (c.registering rs) = q.print c ↔ ∀ r ∈ q.listings,
          r.ColumnsKept c (c.registering rs) ∨ r.StarListed c (c.registering rs))) := by
  have hdetached : ∀ r ∈ q.listings, r.Detached held := fun r hr => of_mem_listings h.allDetached hr
  have hlinked : ∀ r ∈ q.listings, r.Linked :=
    fun r hr => of_mem_listings (h.formed.induction Linked.empty Step.linked) hr
  refine ⟨fun hkept => ?_, fun hnan => ?_⟩
  · rw [print, print, printout, printout,
      pieces_of_selectors fun r hr => (hdetached r hr).selectors_eq hrs (hkept r hr)]
  · have hheaded : ∀ r ∈ q.listings, ∀ src ∈ r.sources, src.Headed :=
      fun r hr => (hlinked r hr).headed (hnan r hr)
    rw [print_eq_iff fun r hr src hsrc =>
      (hheaded r hr src hsrc).broadens (Catalog.columns_prefix_registering rs c)]
    refine forall₂_congr fun r hr => ?_
    rw [ListsAlike, (hdetached r hr).exposures_eq_iff hrs (hheaded r hr)]

/-- The people and the departments, with the columns of the key between them. -/
def keyed : Catalog := ⟨#[⟨["DEPARTMENT_ID"], none⟩, ⟨["ID"], some ["ID"]⟩], 6⟩

/-- The catalogue with a copy of the people. -/
def keyedCopy : Catalog := (keyed.copyTable people).2

/-- The people beside their departments. -/
def keyedStaff : Select :=
  (Call.addSource (.join 5 ofDepartment)).attempt keyedCopy
    ((Call.addSource (.table people)).attempt keyed (Select.empty 0))

theorem keyedStaff_formedBeside : keyedStaff.FormedBeside (· < 2) := by
  have hsize : keyed.registries.size = 2 := rfl
  have hcopied : keyedCopy.registries.size = 3 := rfl
  have hempty : (Select.empty 0).FormedBeside (· < 2) := .empty 0
  have hpeople := hempty.plainCall (k := .addSource (.table people)) rfl keyed fun n hn => by omega
  exact hpeople.plainCall (k := .addSource (.join 5 ofDepartment)) rfl keyedCopy fun n hn => by omega

/-- A column that is registered for the people is not listed for their copy. -/
theorem keyedStaff_isolated : keyedStaff.FormedBeside (· < 2) ∧ (∀ x ∈ [(people, "name")], x.1.slot < 2)
    ∧ (∀ r ∈ keyedStaff.listings, ∀ src ∈ r.sources, src.view.nanFree = true)
    ∧ keyedStaff.print (keyedCopy.registering [(people, "name")]) = keyedStaff.print keyedCopy
    ∧ ∀ r ∈ keyedStaff.listings, r.ColumnsKept keyedCopy (keyedCopy.registering [(people, "name")])
      ∨ r.StarListed keyedCopy (keyedCopy.registering [(people, "name")]) := by
  have hheld : ∀ x ∈ [(people, "name")], x.1.slot < 2 := by decide
  have hnan : ∀ r ∈ keyedStaff.listings, ∀ src ∈ r.sources, src.view.nanFree = true := by decide +kernel
  have hsame : keyedStaff.print (keyedCopy.registering [(people, "name")]) = keyedStaff.print keyedCopy := by
    decide +kernel
  exact ⟨keyedStaff_formedBeside, hheld, hnan, hsame,
    ((keyedStaff_formedBeside.print_registering_iff keyedCopy hheld).2 hnan).mp hsame⟩

/-- A column that is registered for the departments is listed for the target of the join. -/
theorem keyedStaff_disturbed : keyedStaff.FormedBeside (· < 2) ∧ department.slot < 2
    ∧ (keyedStaff.print keyedCopy).toOption = some
      "SELECT p.DEPARTMENT_ID, d.ID FROM People p INNER JOIN Department d ON d.ID=p.DEPARTMENT_ID"
    ∧ (keyedStaff.print (keyedCopy.registering [(department, "name")])).toOption = some ("SELECT "
      ++ "p.DEPARTMENT_ID, d.ID, d.name FROM People p INNER JOIN Department d ON d.ID=p.DEPARTMENT_ID") := by
  refine ⟨keyedStaff_formedBeside, ?_⟩
  decide +kernel

end Select

end SqlCompose
