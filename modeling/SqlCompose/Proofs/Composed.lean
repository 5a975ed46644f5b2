import SqlCompose.Proofs.Soundness

/-!
Statements composed of the plain parts of the language: constants other than NaN, operators, columns,
stars, named selectors, leaves pinned to a view, and statements as values, over tables, fixed tables,
statements and joins onto one of these. All that the calls make of such parts is sound, so it prints.
-/

namespace SqlCompose

/-- Whether a view may stand in a FROM list: a join is onto something else than a join, and the clauses of
a statement have names. -/
def View.Listable : View → Prop
  | .select _ q => q.Named
  | .join _ ⟨_, _, t, _⟩ => t.isJoin = false ∧ t.Listable
  | _ => True

mutual

/-- An expression composed of plain parts. -/
inductive Expr.Composed : Expr → Prop
  | literal {v : Literal} (h : v.isNaN = false) : Expr.Composed (.literal v)
  | apply (op : Operator) {args : List Expr} (h : ∀ e ∈ args, e.Composed) :
      Expr.Composed (.apply op args)
  | column (c : Column) : Expr.Composed (.column c)
  | star {v : View} (h : v.Composed) : Expr.Composed (.star v)
  | selector (i : Nat) {s : Select} {p : Projection} (h : s.Composed) (hf : s.sources ≠ [])
      (hp : p ∈ s.projections) (hn : p.name?.isSome = true) :
      Expr.Composed (p.reference (.select i s))
  | pinned {e : Expr} {v : View} (h : e.Composed) (hplain : e.isPlain = true) (hv : v.Composed) :
      Expr.Composed (.pinned e v)
  | select (i : Nat) {s : Select} (h : s.Composed) (hf : s.sources ≠ []) :
      Expr.Composed (.view (.select i s))

/-- A view composed of plain parts. -/
inductive View.Composed : View → Prop
  | table (t : Table) : View.Composed (.table t)
  | concrete (t : Table) : View.Composed (.concrete t)
  | select (i : Nat) {s : Select} (h : s.Composed) (hf : s.sources ≠ []) : View.Composed (.select i s)
  | join (i : Nat) {j : Join} (hs : j.source.Composed) (ht : j.target.Composed)
      (hp : j.predicate.Composed) : View.Composed (.join i j)

/-- A call on plain parts. -/
inductive Call.Composed : Call → Prop
  | addSource {v : View} (h : v.Composed) (hv : v.Listable) : Call.Composed (.addSource v)
  | join {v : View} {p : Expr} (h : v.Composed) (hv : v.Listable) (hj : v.isJoin = false)
      (hp : p.Composed) : Call.Composed (.join v p)
  | project {e : Expr} (h : e.Composed) : Call.Composed (.project e)
  | projectAs {e : Expr} (h : e.Composed) (l : String) : Call.Composed (.projectAs e l)
  | filter {e : Expr} (h : e.Composed) : Call.Composed (.filter e)
  | filterGroups {e : Expr} (h : e.Composed) : Call.Composed (.filterGroups e)
  | groupBy {e : Expr} (h : e.Composed) : Call.Composed (.groupBy e)
  | groupByAll {es : List Expr} (h : ∀ e ∈ es, e.Composed) : Call.Composed (.groupByAll es)

/-- A statement that calls on plain parts make of an empty one. -/
inductive Select.Composed : Select → Prop
  | empty (i : Nat) : Select.Composed (Select.empty i)
  | call {s : Select} {k : Call} (h : s.Composed) (hk : k.Composed) (c : Catalog) :
      Select.Composed (k.attempt c s)

end

/-! Leaves may be pinned one by one or all together. -/

namespace Expr.Composed

theorem mapLeaves {f : Expr → Expr}
    (hf : ∀ leaf : Expr, leaf.isLeaf = true → leaf.Composed → (f leaf).Composed) :
    ∀ {e : Expr}, e.Composed → (e.mapLeaves f).Composed
  | _, .literal h => .literal h
  | _, .apply op h => by
      refine .apply op fun e he => ?_
      obtain ⟨b, hb, rfl⟩ := mem_mapLeavesAll.mp he
      exact mapLeaves hf (h b hb)
  | _, .column c => hf _ rfl (.column c)
  | _, .star h => hf _ rfl (.star h)
  | _, .selector i h hne hp hn => hf _ rfl (.selector i h hne hp hn)
  | _, .pinned h hplain hv => hf _ rfl (.pinned h hplain hv)
  | _, .select i h hne => .select i h hne

theorem unpinned {leaf : Expr} (hleaf : leaf.isLeaf = true) (h : leaf.Composed) :
    leaf.unpinned.Composed ∧ leaf.unpinned.isPlain = true := by
  cases h with
  | column c => exact ⟨.column c, rfl⟩
  | star h => exact ⟨.star h, rfl⟩
  | selector i h hf hp hn => exact ⟨.selector i h hf hp hn, rfl⟩
  | pinned h hplain hv => exact ⟨h, hplain⟩
  | literal h => cases hleaf
  | apply op h => cases hleaf
  | select i h hf => cases hleaf

theorem pinLeaf {leaf : Expr} (hleaf : leaf.isLeaf = true) (h : leaf.Composed) {v : View}
    (hv : v.Composed) : (leaf.pinLeaf v).Composed :=
  .pinned (h.unpinned hleaf).1 (h.unpinned hleaf).2 hv

/-- Pinning every leaf to a composed view leaves an expression composed. -/
theorem pin {e : Expr} (h : e.Composed) {v : View} (hv : v.Composed) : (e.pin v).Composed :=
  h.mapLeaves fun _ hleaf hl => hl.pinLeaf hleaf hv

/-- So does moving it to a composed view. -/
theorem relink {e : Expr} (h : e.Composed) {v : View} (hv : v.Composed) : (e.relink v).Composed := by
  refine h.mapLeaves fun leaf hleaf hl => ?_
  obtain ⟨hplain, -⟩ := hl.unpinned hleaf
  rw [relinkLeaf]
  split
  · exact hl
  · split
    · exact hplain
    · split
      · exact hl.pinLeaf hleaf hv
      · exact hl

end Expr.Composed

/-! The views an expression depends on. -/

namespace ViewSet

variable {s t : ViewSet} {v w : View}

theorem mem_insert (h : v ∈ (s.insert w).views) : v ∈ s.views ∨ v = w := by
  rw [insert] at h
  split at h
  · exact Or.inl h
  · rcases List.mem_append.mp h with h | h
    · exact Or.inl h
    · exact Or.inr (List.mem_singleton.mp h)

theorem mem_foldl_insert : ∀ {vs : List View} {s : ViewSet},
    v ∈ (vs.foldl insert s).views → v ∈ s.views ∨ v ∈ vs
  | [], _, h => Or.inl h
  | w :: vs, s, h => by
      rw [List.foldl_cons] at h
      rcases mem_foldl_insert h with h | h
      · rcases mem_insert h with h | rfl
        · exact Or.inl h
        · exact Or.inr List.mem_cons_self
      · exact Or.inr (List.mem_cons_of_mem w h)

end ViewSet

theorem Select.mem_views {s : Select} {v : View} (h : v ∈ s.views.views) :
    ∃ src ∈ s.sources, src.view = v := by
  rcases ViewSet.mem_foldl_insert h with h | h
  · exact absurd h List.not_mem_nil
  · exact List.mem_map.mp h

theorem Expr.mem_viewsAll {v : View} : ∀ {es : List Expr} {s : ViewSet},
    v ∈ (viewsAll es s).views → v ∈ s.views ∨ ∃ e ∈ es, v ∈ e.views.views
  | [], _, h => Or.inl h
  | e :: es, s, h => by
      rw [viewsAll] at h
      rcases mem_viewsAll h with h | ⟨b, hb, h⟩
      · rcases ViewSet.mem_foldl_insert h with h | h
        · exact Or.inl h
        · exact Or.inr ⟨e, List.mem_cons_self, h⟩
      · exact Or.inr ⟨b, List.mem_cons_of_mem e hb, h⟩

theorem Join.make_eq_ok {name : Option String} {source target : View} {p : Expr} {j : Join}
    (h : Join.make name source target p = .ok j) :
    j = ⟨name, source, target, p.mapLeaves (attachLeaf source target)⟩ := by
  rw [make] at h
  split at h
  · cases h
  · split at h
    · cases h
    · split at h
      · cases h
      · exact (Except.ok.inj h).symm

theorem Join.infer_eq_ok {target : View} {p : Expr} {j : Join} (h : Join.infer target p = .ok j) :
    ∃ source ∈ p.views.views, j = ⟨none, source, target, p.mapLeaves (attachLeaf source target)⟩ := by
  rw [infer] at h
  split at h
  case h_1 source hsource =>
      have hmem : source ∈ p.views.views.filter fun v => !v.compatible target :=
        hsource ▸ List.mem_cons_self
      exact ⟨source, (List.mem_filter.mp hmem).1, make_eq_ok h⟩
  case h_2 => cases h

/-! Composed parts are sound. -/

mutual

theorem Expr.Composed.regular : ∀ {e : Expr}, e.Composed →
    e.Regular ∧ ∀ v ∈ e.views.views, v.nanFree = true
  | _, .literal h => ⟨.literal h, fun _ hv => absurd hv List.not_mem_nil⟩
  | _, .apply op h => by
      refine ⟨.apply op fun e he => (h e he).regular.1, fun v hv => ?_⟩
      rcases Expr.mem_viewsAll hv with hv | ⟨e, he, hv⟩
      · exact absurd hv List.not_mem_nil
      · exact (h e he).regular.2 v hv
  | _, .column c => ⟨.column c, List.forall_mem_singleton.mpr rfl⟩
  | _, .star h => ⟨.star h.sound.1, List.forall_mem_singleton.mpr h.sound.1⟩
  | _, .selector i (p := p) h _ hp hn => by
      obtain ⟨n, hn⟩ := Option.isSome_iff_exists.mp hn
      rw [Projection.reference, hn]
      exact ⟨.projected _ n (h.sound.definition_regular hp),
        List.forall_mem_singleton.mpr h.sound.nanFree⟩
  | _, .pinned h hplain hv => ⟨.pinned _ hplain h.regular.1, List.forall_mem_singleton.mpr hv.sound.1⟩
  | _, .select i h hf => by
      refine ⟨.select i h.sound hf, fun v hv => ?_⟩
      obtain ⟨src, hsrc, rfl⟩ := Select.mem_views hv
      exact (h.sound.settled.views src hsrc).nanFree

theorem View.Composed.sound : ∀ {v : View}, v.Composed → v.nanFree = true ∧ (v.Listable → v.Sound)
  | _, .table t => ⟨rfl, fun _ => .table t⟩
  | _, .concrete t => ⟨rfl, fun _ => .concrete t⟩
  | _, .select i h hf => ⟨h.sound.nanFree, fun hn => .select i h.sound hf hn⟩
  | .join _ ⟨_, _, _, _⟩, .join i hs ht hp => by
      refine ⟨?_, fun hl => .join i hl.1 (ht.sound.2 hl.2) hs.sound.1 hp.regular.1⟩
      rw [View.nanFree, hs.sound.1, ht.sound.1, hp.regular.1.nanFree]
      rfl

theorem Call.Composed.fits : ∀ {k : Call}, k.Composed → k.Fits Expr.Regular View.Sound
  | _, .addSource h hv => h.sound.2 hv
  | _, .join h hv hj hp => by
      intro i j hinfer
      obtain ⟨source, hsource, rfl⟩ := Join.infer_eq_ok hinfer
      exact .join i hj (h.sound.2 hv) (hp.regular.2 source hsource)
        (hp.regular.1.mapLeaves fun leaf hleaf hl => hl.attachLeaf hleaf source _)
  | _, .project h => h.regular.1
  | _, .projectAs h _ => h.regular.1
  | _, .filter h => h.regular.1
  | _, .filterGroups h => h.regular.1
  | _, .groupBy h => h.regular.1
  | _, .groupByAll h => fun e he => (h e he).regular.1

theorem Select.Composed.sound : ∀ {s : Select}, s.Composed → s.Sound
  | _, .empty i => .empty i
  | _, .call h hk c =>
    Call.attempt_induction (fun _ he _ => he.unwrap) Select.Step.sound hk.fits c h.sound

end

/-- A composed statement with a source prints the text of its pieces, and every qualifier among them is the alias
of one of its own sources. -/
theorem Select.Composed.prints {s : Select} (h : s.Composed) (hf : s.sources ≠ []) (c : Catalog) :
    s.print c = .ok (Piece.textAll (s.pieces c)) ∧
      ∀ x ∈ s.pieces c, ∀ a, x.qualifier? = some a → ∃ src ∈ s.sources, src.label = a := by
  have hclean := h.sound.clean (c := c) hf
  refine ⟨Select.print_ok fun x hx => (hclean x hx).1, fun x hx a ha => ?_⟩
  obtain ⟨m, hm, rfl⟩ := (hclean x hx).2 a ha
  obtain ⟨src, hsrc, hl, -⟩ := h.sound.linked.mapped m hm
  exact ⟨src, hsrc, hl⟩

theorem wealthyNames_composed : wealthyNames.Composed := by
  have hnames : peopleNames.Composed :=
    .call (.call (.empty 0) (.addSource (.table people) trivial) {}) (.project (.column _)) {}
  have hsources : peopleNames.sources ≠ [] :=
    fun h => absurd (congrArg List.length h) (by decide +kernel)
  have hnamed : peopleNames.Named := by
    show ∀ p ∈ peopleNames.projections, p.name?.isSome = true
    decide +kernel
  refine .call (.call (.empty 1) (.addSource (.select 7 hnames hsources) hnamed) {}) (.filter ?_) {}
  refine .apply .greater (List.forall_mem_cons.mpr ⟨.column _, List.forall_mem_singleton.mpr ?_⟩)
  exact .literal rfl

theorem wealthyNames_prints : wealthyNames.print {} = .ok (Piece.textAll (wealthyNames.pieces {})) ∧
    ∀ x ∈ wealthyNames.pieces {}, ∀ a, x.qualifier? = some a →
      ∃ src ∈ wealthyNames.sources, src.label = a :=
  wealthyNames_composed.prints (fun h => absurd (congrArg List.length h) (by decide +kernel)) {}

example : (wealthyNames.print {}).toOption = some
    "SELECT a.name, a.revenue FROM (SELECT p.name, p.revenue FROM People p) a WHERE a.revenue>1000" := by
  decide +kernel

end SqlCompose
