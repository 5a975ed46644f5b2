import SqlCompose.Proofs.Soundness

/-!
The alias in front of an accepted leaf. A leaf is resolved once when it is accepted and again when it is
printed, and in between a reference to the nested statement may have taken its place, which is resolved by
the view that statement has become. The two agree on the source exactly if the second look finds the
mapping that the first one found.
-/

namespace SqlCompose

namespace Expr

/-- An expression prints as one column or one star with an alias in front. -/
def QualifiedBy (s : Scope) (label : String) (e : Expr) : Prop :=
  ∃ x : Piece, (∀ c, e.pieces c s = [x]) ∧ x.qualifier? = some label

variable {s : Scope} {e : Expr} {label : String}

theorem systemName?_unpinned (e : Expr) : e.unpinned.systemName? = e.systemName? := by
  cases e <;> rfl

/-- A plain leaf is one piece, which has a qualifier if the leaf has a name. -/
theorem exists_leafPieces (h : e.isPlain = true) (q : Option String) :
    ∃ x, leafPieces q e = [x] ∧ x.qualifier? = if e.systemName?.isSome then q else none := by
  cases e with
  | column col => exact ⟨_, rfl, rfl⟩
  | star v => exact ⟨_, rfl, rfl⟩
  | projected v n d =>
      cases n with
      | some name => exact ⟨_, rfl, rfl⟩
      | none => exact ⟨_, rfl, rfl⟩
  | literal v => cases h
  | apply op args => cases h
  | view v => cases h
  | pinned b v => cases h
  | within sc b => cases h

/-- A leaf is qualified by the alias of the mapping it resolves to, if it has a name. -/
theorem qualifiedBy_iff (hleaf : e.isLeaf = true) (hplain : e.unpinned.isPlain = true) :
    e.QualifiedBy s label ↔
      e.systemName?.isSome = true ∧ ∃ m, s.resolveLeaf e = .ok m ∧ m.label = label := by
  have hsingle : e.QualifiedBy s label ↔
      ∃ x, e.unpinned.resolvedPieces (s.resolveLeaf e) = [x] ∧ x.qualifier? = some label := by
    refine exists_congr fun x => and_congr_left fun _ => ⟨fun h => ?_, fun h c => ?_⟩
    · exact (pieces_of_isLeaf hleaf {}).symm.trans (h {})
    · exact (pieces_of_isLeaf hleaf c).trans h
  rw [hsingle]
  cases hm : s.resolveLeaf e with
  | error cause =>
      obtain ⟨x, hx, -⟩ := exists_leafPieces hplain none
      simp [resolvedPieces, hx]
  | ok m =>
      obtain ⟨x, hx, hq⟩ := exists_leafPieces hplain (some m.label)
      rw [systemName?_unpinned] at hq
      simp only [resolvedPieces, hx, List.cons.injEq, and_true, exists_eq_left', hq, Except.ok.injEq]
      split
      case isTrue hname => simp [hname]
      case isFalse hname => simp [hname]

end Expr

namespace Select

variable {s t u : Select} {leaf a : Expr} {m : Mapping} {c c' : Catalog}

/-! Every source has one mapping in the scope. -/

theorem Accepts.labels {e : Expr} (h : s.Accepts e t a) :
    t.sources.map (·.label) = s.sources.map (·.label) := h.frame.2.labels

theorem Step.scope_labels {Ok : Expr → Prop} {OkView : View → Prop} (h : Step Ok OkView s u)
    (hs : s.scope.map (·.label) = (s.sources.map (·.label)).reverse) :
    u.scope.map (·.label) = (u.sources.map (·.label)).reverse := by
  cases h with
  | source mark hv hw hj ha => simp [listing, entered, hs]
  | join mark hv hl ha h =>
      have hlabels := h.labels
      have hscope := h.scope
      simp only [entered] at hlabels hscope
      simp [listing, hscope, hlabels, hs]
  | clause he h hu => rw [hu.scope, hu.sources, h.scope, h.labels, hs]

theorem Reached.scope_labels (h : s.Reached) :
    s.scope.map (·.label) = (s.sources.map (·.label)).reverse :=
  h.induction (P := fun s => s.scope.map (·.label) = (s.sources.map (·.label)).reverse)
    (fun _ => rfl) Step.scope_labels

theorem Reached.eq_of_label (h : s.Reached) {m m' : Mapping} (hm : m ∈ s.scope) (hm' : m' ∈ s.scope)
    (hl : m.label = m'.label) : m = m' := by
  have hnodup : (s.scope.map (·.label)).Nodup := by
    rw [h.scope_labels]
    exact List.nodup_reverse.mpr h.linked.nodup
  exact List.inj_on_of_nodup_map hnodup hm hm' hl

/-! The two looks at a leaf. -/

/-- Whether an expression is a reference to a projection of the statement itself. -/
def owns (s : Select) : Expr → Bool
  | .projected v _ _ => s.isSelf v
  | _ => false

/-- The nested statements accept for themselves what a leaf needs of them. -/
theorem accept_leaf_eq (hleaf : leaf.isLeaf = true) (hown : s.owns leaf = false) :
    s.accept leaf = acceptLeaf accept s leaf := by
  rw [← acceptLeaf_congr (f := acceptorAt s.level) (fun q e hq => acceptorAt_eq_accept hq e), accept, acceptAt_eq]
  cases leaf with
  | column c => rw [acceptWith]
  | star v => rw [acceptWith]
  | pinned e v => rw [acceptWith]
  | projected v n d => rw [acceptWith, if_neg (Bool.not_eq_true _ ▸ hown)]
  | literal v => cases hleaf
  | apply op args => cases hleaf
  | view v => cases hleaf
  | within sc e => cases hleaf

/-- A leaf stays as it is, or becomes a reference to what the source with its alias has become. -/
theorem Accepts.leaf_cases (h : s.Accepts leaf t a) (hleaf : leaf.isLeaf = true)
    (hown : s.owns leaf = false) (hm : Scope.resolveLeaf s.scope leaf = .ok m) :
    (m.view.isStatement = false ∧ a = leaf) ∨
      (m.view.isStatement = true ∧ ∃ src ∈ t.sources, src.label = m.label ∧
        ∃ name d, a = .projected src.view name d) := by
  cases h with
  | literal v => cases hleaf
  | apply op h => cases hleaf
  | view h => cases hleaf
  | own n hv h =>
      rw [owns, hv] at hown
      cases hown
  | kept _ hm' hs =>
      obtain rfl := Except.ok.inj (hm.symm.trans hm')
      exact Or.inl ⟨hs, rfl⟩
  | @routed _ q r _ d m' before after src name v _ _ _ hm' hs hf hb hl hq hp hv =>
      obtain rfl := Except.ok.inj (hm.symm.trans hm')
      refine Or.inr ⟨hs, { src with view := v }, ?_, hl, name, d, rfl⟩
      exact List.mem_append_right _ List.mem_cons_self

/-- The accepted leaf prints with the alias it was resolved to exactly if it has a name and, when it was
taken from a nested statement, the exact lookup of what the source has become finds the same mapping. -/
theorem Reached.qualified_iff (h : s.Reached) (hleaf : leaf.isLeaf = true)
    (hplain : leaf.unpinned.isPlain = true) (hown : s.owns leaf = false)
    (hm : Scope.resolveLeaf s.scope leaf = .ok m) (hacc : s.accept leaf c = .ok ((t, a), c')) :
    a.QualifiedBy s.scope m.label ↔ a.systemName?.isSome = true ∧
      (m.view.isStatement = true → ∀ src ∈ t.sources, src.label = m.label →
        Scope.resolveExact s.scope src.view = .ok m) := by
  have hmem := Scope.resolveLeaf_mem hm
  have haccepts := accept_sound hacc
  have ht : t.Linked := h.linked.grows haccepts.grows
  rcases haccepts.leaf_cases hleaf hown hm with ⟨hs, rfl⟩ | ⟨hs, src, hsrc, hl, name, d, rfl⟩
  · rw [Expr.qualifiedBy_iff hleaf hplain]
    exact and_congr_right fun _ => ⟨fun _ hs' => absurd hs' (by simp [hs]), fun _ => ⟨m, hm, rfl⟩⟩
  · rw [Expr.qualifiedBy_iff rfl rfl]
    refine and_congr_right fun _ => ⟨?_, fun hexact => ⟨m, hexact hs src hsrc hl, rfl⟩⟩
    rintro ⟨m', hm', hl'⟩ - x hx hlx
    obtain rfl := ht.eq_of_label hsrc hx (hl.trans hlx.symm)
    obtain rfl := h.eq_of_label (Scope.resolveExact_mem hm') hmem hl'
    exact hm'

theorem peopleNames_name_qualified : ∃ m t a c', peopleNames.over.Reached
    ∧ Scope.resolveLeaf peopleNames.over.scope (.ofPeople "name") = .ok m
    ∧ peopleNames.over.accept (.ofPeople "name") {} = .ok ((t, a), c')
    ∧ (a.QualifiedBy peopleNames.over.scope m.label ↔ a.systemName?.isSome = true ∧
      (m.view.isStatement = true → ∀ src ∈ t.sources, src.label = m.label →
        Scope.resolveExact peopleNames.over.scope src.view = .ok m)) := by
  obtain ⟨m, hm⟩ := Except.exists_of_isOk
    (show (Scope.resolveLeaf peopleNames.over.scope (.ofPeople "name")).isOk = true by decide +kernel)
  obtain ⟨⟨⟨t, a⟩, c'⟩, hacc⟩ := Except.exists_of_isOk
    (show (peopleNames.over.accept (.ofPeople "name") {}).isOk = true by decide +kernel)
  exact ⟨m, t, a, c', peopleNames_over_reached, hm, hacc,
    peopleNames_over_reached.qualified_iff rfl rfl rfl hm hacc⟩

/-- The join from the people onto a statement over them. -/
def ontoNames : Join :=
  ⟨none, .table people, .select 7 peopleNames, .apply .equals
    [.pinned (.ofPeople "ID") (.table people), .literal (.integer 1)]⟩

/-- The names of the people, the people, and the names again as the target of a join. -/
def namesTwice : Select :=
  (Call.addSource (.join 8 ontoNames)).attempt {}
    ((Call.addSource (.table people)).attempt {} peopleNames.over)

/-- A column pinned to the names is found under the alias they were registered with directly, and prints
with the alias of the join. -/
theorem namesTwice_misqualified : namesTwice.Reached ∧ ∃ m t a c',
    Scope.resolveLeaf namesTwice.scope (.pinned (.ofPeople "name") (.select 7 peopleNames)) = .ok m
    ∧ namesTwice.accept (.pinned (.ofPeople "name") (.select 7 peopleNames)) {} = .ok ((t, a), c')
    ∧ m.label = "a" ∧ (a.pieces {} namesTwice.scope).map Piece.qualifier? = [some "b"]
    ∧ ¬ a.QualifiedBy namesTwice.scope m.label := by
  refine ⟨.call (.call peopleNames_over_reached _ {}) _ {}, ?_⟩
  have hresolve : (Scope.resolveLeaf namesTwice.scope (.pinned (.ofPeople "name")
      (.select 7 peopleNames))).toOption.map (·.label) = some "a" := by decide +kernel
  have haccept : (namesTwice.accept (.pinned (.ofPeople "name") (.select 7 peopleNames)) {}).toOption.map
      (fun r => (r.1.2.pieces {} namesTwice.scope).map Piece.qualifier?) = some [some "b"] := by
    decide +kernel
  obtain ⟨m, hm, hlabel⟩ := Except.exists_of_toOption hresolve
  obtain ⟨⟨⟨t, a⟩, c'⟩, hacc, hpieces⟩ := Except.exists_of_toOption haccept
  refine ⟨m, t, a, c', hm, hacc, hlabel, hpieces, ?_⟩
  rintro ⟨x, hx, hq⟩
  rw [hx, List.map_singleton, hq, hlabel] at hpieces
  simp at hpieces

end Select

end SqlCompose
