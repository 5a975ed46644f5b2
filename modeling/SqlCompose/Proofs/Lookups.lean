import Mathlib.Data.List.Induction
import SqlCompose.Proofs.ResultNames

/-!
Selectors by name. A look-up takes the first clause that answers to the name, and a clause with an alias still
answers to the name that its expression has. Such a clause masks the clauses behind it that are known by that
name. If the names are distinct, this is all that can go wrong.
-/

namespace SqlCompose

/-- Two references are the same entry: they have one name and one definition. -/
inductive Expr.SameEntry : Expr → Expr → Prop
  | intro (v w : View) (n : Option String) (d : Expr) : SameEntry (.projected v n d) (.projected w n d)

namespace Projection

/-- A clause masks a name if its expression has the name, but it is known by another one. -/
def Masks (p : Projection) (n : String) : Prop := p.definition.systemName? = some n ∧ p.name? ≠ some n

instance (p : Projection) (n : String) : Decidable (p.Masks n) := inferInstanceAs (Decidable (_ ∧ _))

variable {p q : Projection} {n : String} {v w : View}

/-- A clause answers to the name it is known by, and to a name that it masks. -/
theorem answers_iff : p.answers n = true ↔ p.name? = some n ∨ p.Masks n := by
  rw [answers, Masks, name?, Bool.or_eq_true, beq_iff_eq, beq_iff_eq]
  cases p.label with
  | none => simp only [Option.none_or]; tauto
  | some l => simp only [Option.some_or]; tauto

theorem sameEntry_reference (hn : p.name? = q.name?) (hd : p.definition = q.definition) :
    (p.reference v).SameEntry (q.reference w) := by
  rw [reference, reference, hn, hd]
  exact .intro v w _ _

theorem name_eq_of_sameEntry (h : (p.reference v).SameEntry (q.reference w)) : p.name? = q.name? := by
  rw [reference, reference] at h
  generalize p.name? = m, q.name? = m', p.definition = d, q.definition = d' at h ⊢
  cases h
  rfl

end Projection

namespace Select

variable {s t u : Select} {e : Expr} {p : Projection} {n : String} {before after : List Projection}
  {c c' : Catalog}

/-- The names that the clauses of a statement are known by. -/
def names (s : Select) : List String := s.projections.filterMap (·.name?)

/-- No clause masks the name of a clause behind it. -/
def Unmasked (s : Select) : Prop := s.projections.Pairwise fun q p => ∀ n ∈ p.name?, ¬ q.Masks n

instance (s : Select) : Decidable s.Unmasked := inferInstanceAs (Decidable (List.Pairwise _ _))

/-- Looking up the name of an entry gives that entry. -/
def FindsEntries (s : Select) : Prop :=
  ∀ c rs c₁, s.selectors c = .ok (rs, c₁) → ∀ r ∈ rs, ∀ n, r.name? = some n →
    ∀ c₂, ∃ r' c₃, s.selector n c₂ = .ok (r', c₃) ∧ r'.SameEntry r

theorem mem_selectors {rs : List Expr} (h : s.selectors c = .ok (rs, c')) :
    ∃ v, rs = s.projections.map (·.reference v) := by
  obtain ⟨v, c₁, -, h₁⟩ := Build.bind_eq_ok.mp h
  obtain ⟨rfl, -⟩ := Prod.mk.inj (Build.pure_eq_ok.mp h₁)
  exact ⟨v, rfl⟩

/-- A look-up that finds a clause gives the reference to it. -/
theorem selector_of_find (h : s.projections.find? (·.answers n) = some p) (c : Catalog) :
    s.selector n c = .ok (p.reference (.select c.nextMark s), c.freshMark.2) := by
  refine Build.bind_eq_ok.mpr ⟨_, _, Build.selectView_eq_ok.mpr rfl, Build.lift_eq_ok.mpr ⟨?_, rfl⟩⟩
  rw [selectorOf, h]

/-- With distinct names, a clause has its name for itself. -/
theorem name_ne_of_before (h : s.names.Nodup) (hs : s.projections = before ++ p :: after)
    (hn : p.name? = some n) : ∀ q ∈ before, q.name? ≠ some n := by
  intro q hq hname
  rw [names, hs, List.filterMap_append, List.filterMap_cons_some hn, List.nodup_append] at h
  exact h.2.2 n (List.mem_filterMap.mpr ⟨q, hq, hname⟩) n List.mem_cons_self rfl

/-- The name of a clause finds the clause, if none before it masks the name, and otherwise the first one
that does. -/
theorem find_cases (h : s.names.Nodup) (hs : s.projections = before ++ p :: after)
    (hn : p.name? = some n) :
    ((∀ q ∈ before, ¬ q.Masks n) ∧ s.projections.find? (·.answers n) = some p) ∨
      ∃ q ∈ before, q.Masks n ∧ s.projections.find? (·.answers n) = some q := by
  have hother := name_ne_of_before h hs hn
  rw [hs, List.find?_append]
  cases hfind : before.find? (·.answers n) with
  | none =>
      refine .inl ⟨fun q hq hmasks => ?_, ?_⟩
      · exact List.find?_eq_none.mp hfind q hq (Projection.answers_iff.mpr (.inr hmasks))
      · rw [Option.none_or]
        exact List.find?_cons_of_pos (p := fun q : Projection => q.answers n) (Projection.answers_iff.mpr (.inl hn))
  | some q =>
      have hq := List.mem_of_find?_eq_some hfind
      have hanswers := List.find?_some (p := fun q : Projection => q.answers n) hfind
      exact .inr ⟨q, hq, (Projection.answers_iff.mp hanswers).resolve_left (hother q hq), rfl⟩

/-- The look-up of a name finds the entry of that name exactly if no clause before it masks the name. -/
theorem entry_found_iff (h : s.names.Nodup) (hs : s.projections = before ++ p :: after)
    (hn : p.name? = some n) (v : View) (c : Catalog) :
    (∃ r c₁, s.selector n c = .ok (r, c₁) ∧ r.SameEntry (p.reference v)) ↔ ∀ q ∈ before, ¬ q.Masks n := by
  rcases find_cases h hs hn with ⟨hnone, hfind⟩ | ⟨q, hq, hmasks, hfind⟩
  · exact iff_of_true ⟨_, _, selector_of_find hfind c, Projection.sameEntry_reference rfl rfl⟩ hnone
  · refine iff_of_false (fun hfound => ?_) fun hnone => hnone q hq hmasks
    obtain ⟨r, c₁, hr, hsame⟩ := hfound
    obtain ⟨rfl, -⟩ := Prod.mk.inj (Except.ok.inj ((selector_of_find hfind c).symm.trans hr))
    exact name_ne_of_before h hs hn q hq ((Projection.name_eq_of_sameEntry hsame).trans hn)

theorem unmasked_iff : s.Unmasked ↔ ∀ before p after n, s.projections = before ++ p :: after →
    p.name? = some n → ∀ q ∈ before, ¬ q.Masks n := by
  rw [Unmasked]
  generalize s.projections = ps
  constructor
  · rintro h before p after n rfl hn q hq
    exact (List.pairwise_append.mp h).2.2 q hq p List.mem_cons_self n hn
  · intro h
    induction ps using List.reverseRec with
    | nil => exact .nil
    | append_singleton ps p ih =>
        refine List.pairwise_append.mpr ⟨ih fun before q after n hps => ?_, List.pairwise_singleton _ _, ?_⟩
        · exact h before q (after ++ [p]) n (by rw [hps, List.append_assoc]; rfl)
        · intro q hq p' hp' n hn
          obtain rfl := List.mem_singleton.mp hp'
          exact h ps p' [] n rfl hn q hq

theorem findsEntries_iff (h : s.names.Nodup) : s.FindsEntries ↔ s.Unmasked := by
  rw [unmasked_iff]
  constructor
  · intro hfinds before p after n hs hn
    have hrun : s.selectors {} = .ok (s.selectorsOf (.select 0 s), ({} : Catalog).freshMark.2) :=
      Build.bind_eq_ok.mpr ⟨_, _, Build.selectView_eq_ok.mpr rfl, rfl⟩
    have hmem : p.reference (.select 0 s) ∈ s.selectorsOf (.select 0 s) :=
      List.mem_map_of_mem (hs ▸ List.mem_append_right _ List.mem_cons_self)
    exact (entry_found_iff h hs hn _ {}).mp (hfinds {} _ _ hrun _ hmem n hn {})
  · intro hunmasked c rs c₁ hrs r hr n hn c₂
    obtain ⟨v, rfl⟩ := mem_selectors hrs
    obtain ⟨p, hp, rfl⟩ := List.mem_map.mp hr
    obtain ⟨before, after, hs⟩ := List.append_of_mem hp
    exact (entry_found_iff h hs hn v c₂).mpr (hunmasked before p after n hs hn)

/-! Later calls. -/

theorem appends_after : ∀ (ks : List (Call × Catalog)) (s : Select), s.Appends (s.after ks)
  | [], s => .refl s
  | (k, c) :: ks, s => by
      have hstep : s.Appends (k.attempt c s) := k.attempt_keeps (fun h ht => ht.trans h.appends) c (.refl s)
      exact hstep.trans (appends_after ks (k.attempt c s))

/-- New clauses leave the old ones in front, so only they can be masked in addition. -/
theorem Appends.unmasked_iff (h : s.Appends u) : u.Unmasked ↔ s.Unmasked ∧
    (u.projections.drop s.projections.length).Pairwise (fun q p => ∀ n ∈ p.name?, ¬ q.Masks n) ∧
    ∀ q ∈ s.projections, ∀ p ∈ u.projections.drop s.projections.length, ∀ n ∈ p.name?, ¬ q.Masks n := by
  obtain ⟨more, hmore⟩ := h.projections
  rw [Unmasked, Unmasked, ← hmore, List.drop_left]
  exact List.pairwise_append

/-- The name of every entry finds the entry exactly if no clause masks the name of a clause behind it. The look-up
of a single name finds its entry, or the first clause that masks the name. What calls append does not change
whether an entry is found that was there before. -/
theorem entries_found_iff_unmasked (h : s.names.Nodup) :
    (s.FindsEntries ↔ s.Unmasked) ∧
    (∀ before p after n, s.projections = before ++ p :: after → p.name? = some n →
      ((∀ q ∈ before, ¬ q.Masks n) ∧
          ∀ c, s.selector n c = .ok (p.reference (.select c.nextMark s), c.freshMark.2)) ∨
        ∃ q ∈ before, q.Masks n ∧
          ∀ c, s.selector n c = .ok (q.reference (.select c.nextMark s), c.freshMark.2)) ∧
    ∀ ks, (s.after ks).names.Nodup → ((s.after ks).FindsEntries ↔ s.FindsEntries ∧
      ((s.after ks).projections.drop s.projections.length).Pairwise (fun q p => ∀ n ∈ p.name?, ¬ q.Masks n) ∧
      ∀ q ∈ s.projections, ∀ p ∈ (s.after ks).projections.drop s.projections.length,
        ∀ n ∈ p.name?, ¬ q.Masks n) := by
  refine ⟨findsEntries_iff h, fun before p after n hs hn => ?_, fun ks hks => ?_⟩
  · rcases find_cases h hs hn with ⟨hnone, hfind⟩ | ⟨q, hq, hmasks, hfind⟩
    · exact .inl ⟨hnone, selector_of_find hfind⟩
    · exact .inr ⟨q, hq, hmasks, selector_of_find hfind⟩
  · rw [findsEntries_iff hks, findsEntries_iff h]
    exact (appends_after ks s).unmasked_iff

/-- Of two columns of one name, each is found under the name it got. -/
theorem bothNames_found : bothNames.names = ["name", "name1"] ∧ bothNames.FindsEntries := by
  have hnames : bothNames.names = ["name", "name1"] := by decide +kernel
  exact ⟨hnames, (entries_found_iff_unmasked (hnames ▸ by decide)).1.mpr (by decide +kernel)⟩

/-- The names of the people as a label, and their cities as the name. -/
def citiesAsNames : Select :=
  (Select.empty 0).after [(.addSource (.table people), {}), (.projectAs (.ofPeople "name") "label", {}),
    (.projectAs (.ofPeople "city") "name", {})]

/-- The look-up of the name finds the label. -/
theorem citiesAsNames_masked : citiesAsNames.Reached
    ∧ (citiesAsNames.print {}).toOption = some "SELECT p.name AS label, p.city AS name FROM People p"
    ∧ citiesAsNames.names = ["label", "name"] ∧ citiesAsNames.names.Nodup
    ∧ (∃ r c', citiesAsNames.selector "name" {} = .ok (r, c') ∧ r.name? = some "label")
    ∧ ¬ citiesAsNames.FindsEntries := by
  have hnames : citiesAsNames.names = ["label", "name"] := by decide +kernel
  have hfound : (citiesAsNames.selector "name" {}).toOption.map (·.1.name?) = some (some "label") := by
    decide +kernel
  obtain ⟨⟨r, c'⟩, hr, hname⟩ := Except.exists_of_toOption hfound
  have hnodup : citiesAsNames.names.Nodup := hnames ▸ by decide
  refine ⟨.call (.call (.call (.empty 0) _ {}) _ {}) _ {}, by decide +kernel, hnames, hnodup,
    ⟨r, c', hr, hname⟩, fun hfinds => ?_⟩
  have hmasked : ¬ citiesAsNames.Unmasked := by decide +kernel
  exact hmasked ((findsEntries_iff hnodup).mp hfinds)

end Select

end SqlCompose
