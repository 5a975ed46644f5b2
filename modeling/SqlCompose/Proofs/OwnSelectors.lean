import SqlCompose.Proofs.Qualifiers
import SqlCompose.Proofs.Selectors
import SqlCompose.Proofs.Texts

/-!
Selectors of a statement that the statement accepts itself. Such a reference counts as the definition of its
clause, which is accepted again in the present scope. The clause keeps the scope it was accepted in, so the
two print the same exactly if the leaves have the same aliases in both scopes, which a later source over the
same table changes. All leaves resolve, since without NaN every view in scope stays equal to itself.
-/

namespace SqlCompose

/-! What is accepted resolves. -/

theorem Scope.exists_resolvePinned {s : Scope} {m : Mapping} (hm : m ∈ s) (h : (m.view == m.view) = true) :
    ∃ m', s.resolvePinned m.view = .ok m' := by
  rw [resolvePinned]
  cases hfind : s.find? (·.view == m.view) with
  | some x => exact ⟨x, rfl⟩
  | none => exact absurd h (by simpa using List.find?_eq_none.mp hfind m hm)

namespace Select

variable {s t u : Select} {e a : Expr} {c c' : Catalog}

/-- Every source is in scope as it is or as it was, and no view in scope holds a NaN. -/
structure InScope (s : Select) : Prop where
  nanFree : ∀ m ∈ s.scope, m.view.nanFree = true
  mapped : ∀ src ∈ s.sources, ∃ m ∈ s.scope, m.view.Grows src.view

theorem InScope.accepts (hs : s.InScope) (h : s.Accepts e t a) : t.InScope where
  nanFree := by
    rw [h.scope]
    exact hs.nanFree
  mapped := by
    intro src hsrc
    obtain ⟨x, hx, -, -, -, hgrows⟩ := h.frame.2.of_mem hsrc
    obtain ⟨m, hm, hmx⟩ := hs.mapped x hx
    exact ⟨m, h.scope ▸ hm, hmx.trans hgrows⟩

theorem InScope.resolves_acceptView {v : View} (hs : s.InScope) (h : s.acceptView v = .ok a) :
    a.ResolvesIn s.scope := by
  have hself : ∀ {m : Mapping}, m ∈ s.scope → ∃ m', Scope.resolvePinned s.scope m.view = .ok m' :=
    fun hm => Scope.exists_resolvePinned hm (View.beq_of_grows (hs.nanFree _ hm) (.refl _))
  rcases acceptView_cases h with ⟨w, rfl, -⟩ | ⟨i, j, x, y, -, hx, hy, rfl⟩
  · exact fun leaf hleaf => absurd hleaf List.not_mem_nil
  · intro leaf hleaf
    rw [Join.between, Expr.leaves_mapLeaves, List.mem_flatMap] at hleaf
    obtain ⟨l, -, hl⟩ := hleaf
    obtain ⟨b, v, hb, hv⟩ := Join.settleLeaf_eq x.view y.view l
    rw [hb] at hl
    obtain rfl := List.mem_singleton.mp hl
    rcases hv with rfl | rfl
    · exact hself hx
    · exact hself hy

mutual

/-- The leaves of an accepted expression resolve. -/
theorem Accepts.resolves : ∀ {s t : Select} {e a : Expr}, s.Accepts e t a → s.InScope →
    a.ResolvesIn s.scope
  | _, _, _, _, .literal _ _, _ => fun _ hleaf => absurd hleaf List.not_mem_nil
  | _, _, _, _, .apply _ h, hs => h.resolves hs
  | _, _, _, _, .own _ _ h, hs => h.resolves hs
  | _, _, _, _, .view h, hs => hs.resolves_acceptView h
  | _, _, _, _, .kept hleaf hm _, _ => by
      intro leaf hmem
      rw [Expr.leaves_of_isLeaf hleaf, List.mem_singleton] at hmem
      exact ⟨_, hmem ▸ hm⟩
  | s, _, _, _, .routed _ _ _ hf _ _ hq hp hv, hs => by
      intro leaf hmem
      obtain rfl := List.mem_singleton.mp hmem
      obtain ⟨m, hm, hgrows⟩ := hs.mapped _ (hf ▸ List.mem_append_right _ List.mem_cons_self)
      have hview := (View.withStatement_spec hq hp.grows hv).1
      exact Scope.exists_resolveExact_of_grows hm (hs.nanFree m hm) (hgrows.trans hview)

theorem AcceptsAll.resolves : ∀ {s t : Select} {es as : List Expr}, s.AcceptsAll es t as →
    s.InScope → ∀ leaf ∈ Expr.leavesAll as, ∃ m, Scope.resolveLeaf s.scope leaf = .ok m
  | _, _, _, _, .nil _, _ => fun _ hleaf => absurd hleaf List.not_mem_nil
  | _, _, _, _, .cons h htail, hs => by
      have hrest := htail.resolves (hs.accepts h)
      rw [h.scope] at hrest
      exact List.forall_mem_append.mpr ⟨h.resolves hs, hrest⟩

end

theorem Linked.inScope (h : s.Linked) (hnan : ∀ src ∈ s.sources, src.view.nanFree = true) :
    s.InScope where
  nanFree := by
    intro m hm
    obtain ⟨src, hsrc, -, hgrows⟩ := h.mapped m hm
    rw [← hgrows.nanFree]
    exact hnan src hsrc
  mapped := by
    intro src hsrc
    obtain ⟨hsub, m, rest, heq, -, hgrows⟩ := h.captured src hsrc
    exact ⟨m, hsub (heq ▸ List.mem_cons_self), hgrows⟩

/-- The leaves of the clauses resolve in the scopes of the clauses, if the sources hold no NaN. -/
def Resolves (s : Select) : Prop :=
  (∀ src ∈ s.sources, src.view.nanFree = true) → ∀ k ∈ s.clauses, k.expr.ResolvesIn k.scope

theorem Step.resolves {Ok : Expr → Prop} {OkView : View → Prop} (h : Step Ok OkView s u)
    (hs : s.Linked ∧ s.Resolves) : u.Linked ∧ u.Resolves := by
  obtain ⟨hlinked, hres⟩ := hs
  refine ⟨h.linked hlinked, fun hnan k hk => ?_⟩
  have hbefore : ∀ src ∈ s.sources, src.view.nanFree = true := by
    intro src hsrc
    obtain ⟨y, hy, -, -, -, hgrows⟩ := h.sources_grow src hsrc
    rw [← hgrows.nanFree]
    exact hnan y hy
  have hold := hres hbefore
  have hscope := hlinked.inScope hbefore
  cases h with
  | source mark hv hw hj ha =>
      rcases mem_clauses_listing hk with hk | ⟨e, he, -⟩
      · exact hold k hk
      · cases he
  | @join t i j' j l a pool e mark hv hl ha h =>
      rcases mem_clauses_listing hk with hk | ⟨b, hb, rfl⟩
      · exact hold k (h.mem_clauses hk)
      · obtain rfl := Option.some.inj hb
        have hnew : (View.join j' l).nanFree = true :=
          hnan _ (List.mem_append_right _ List.mem_cons_self)
        have hentered : (s.entered ⟨mark, .join j' l, a⟩ pool).InScope := by
          refine ⟨List.forall_mem_cons.mpr ⟨hnew, hscope.nanFree⟩, fun src hsrc => ?_⟩
          obtain ⟨m, hm, hgrows⟩ := hscope.mapped src hsrc
          exact ⟨m, List.mem_cons_of_mem _ hm, hgrows⟩
        rw [h.scope]
        exact h.resolves hentered
  | clause he h hu =>
      rcases hu.mem_clauses hk with hk | rfl
      · exact hold k (h.mem_clauses hk)
      · rw [h.scope]
        exact h.resolves hscope

theorem Reached.resolves (h : s.Reached) : s.Resolves :=
  (h.induction (P := fun s => s.Linked ∧ s.Resolves)
    (fun i => ⟨.empty i, fun _ _ hk => absurd hk List.not_mem_nil⟩) Step.resolves).2

end Select

/-! What a statement takes as it is. -/

namespace Select

/-- Whether a statement takes a leaf as it is: the leaf has a name, belongs to a table in scope, and is not
a reference to a projection of the statement itself. -/
def takesLeaf (c : Catalog) (s : Select) (leaf : Expr) : Bool :=
  leaf.leafText?.isSome && !s.owns leaf &&
    match Scope.resolveLeaf s.scope leaf with
    | .ok m => !m.view.isStatement && (checkDeclared c m.view leaf.unpinned).isOk
    | .error _ => false

mutual

/-- Whether a statement takes an expression as it is: it takes all leaves, and every value is a
statement. -/
def takes (c : Catalog) (s : Select) : Expr → Bool
  | .literal _ => true
  | .apply _ args => takesAll c s args
  | .column col => s.takesLeaf c (.column col)
  | .star v => s.takesLeaf c (.star v)
  | .projected v n d => s.takesLeaf c (.projected v n d)
  | .pinned e v => s.takesLeaf c (.pinned e v)
  | .view (.select ..) => true
  | .view _ => false
  | .within .. => false

/-- Whether a statement takes all arguments as they are. -/
def takesAll (c : Catalog) (s : Select) : List Expr → Bool
  | [] => true
  | e :: es => s.takes c e && takesAll c s es

end

variable {s t u : Select} {e a leaf : Expr} {c c' k : Catalog} {sc sc' : Scope}

/-- What it is to take a leaf. -/
theorem takesLeaf_iff : s.takesLeaf c leaf = true ↔ (∃ x, leaf.leafText? = some x) ∧ s.owns leaf = false
    ∧ ∃ m, Scope.resolveLeaf s.scope leaf = .ok m ∧ m.view.isStatement = false
      ∧ checkDeclared c m.view leaf.unpinned = .ok () := by
  rw [takesLeaf]
  cases hm : Scope.resolveLeaf s.scope leaf with
  | error cause => simp
  | ok m =>
      have hunit : (checkDeclared c m.view leaf.unpinned).isOk = true ↔
          checkDeclared c m.view leaf.unpinned = .ok () := by
        constructor
        · intro h
          obtain ⟨⟨⟩, hok⟩ := Except.exists_of_isOk h
          exact hok
        · intro h
          rw [h]
          rfl
      simp [Option.isSome_iff_exists, hunit, and_assoc]

theorem acceptLeaf_of_takesLeaf (h : s.takesLeaf c leaf = true) (accept : Acceptor) :
    acceptLeaf accept s leaf c = .ok ((s, leaf), c) := by
  obtain ⟨-, -, m, hm, hs, hcheck⟩ := takesLeaf_iff.mp h
  exact acceptLeaf_kept hm hs hcheck accept

mutual

theorem acceptWith_of_takes (accept : Acceptor) : ∀ {e : Expr}, s.takes c e = true →
    acceptWith accept s e c = .ok ((s, e), c)
  | .literal _, _ => rfl
  | .apply op args, h => by
      rw [acceptWith]
      exact Build.bind_eq_ok.mpr ⟨(s, args), c, acceptAllWith_of_takes accept h, rfl⟩
  | .column col, h => acceptLeaf_of_takesLeaf h accept
  | .star v, h => acceptLeaf_of_takesLeaf h accept
  | .projected v n d, h => by
      have hown : s.isSelf v = false := (takesLeaf_iff.mp h).2.1
      rw [acceptWith, if_neg (by simp [hown])]
      exact acceptLeaf_of_takesLeaf h accept
  | .pinned e v, h => acceptLeaf_of_takesLeaf h accept
  | .view (.select _ _), _ => rfl
  | .view (.table _), h => nomatch h
  | .view (.concrete _), h => nomatch h
  | .view (.join _ _), h => nomatch h
  | .within _ _, h => nomatch h

theorem acceptAllWith_of_takes (accept : Acceptor) : ∀ {es : List Expr}, takesAll c s es = true →
    acceptAllWith accept s es c = .ok ((s, es), c)
  | [], _ => rfl
  | e :: es, h => by
      obtain ⟨he, hes⟩ := Bool.and_eq_true_iff.mp h
      rw [acceptAllWith]
      refine Build.bind_eq_ok.mpr ⟨(s, e), c, acceptWith_of_takes accept he, ?_⟩
      exact Build.bind_eq_ok.mpr ⟨(s, es), c, acceptAllWith_of_takes accept hes, rfl⟩

end

theorem accept_of_takes (h : s.takes c e = true) : s.accept e c = .ok ((s, e), c) := by
  rw [accept, acceptAt_eq]
  exact acceptWith_of_takes _ h

theorem alike_of_takesLeaf (h : s.takesLeaf c leaf = true) : leaf.Alike k sc sc' leaf := by
  obtain ⟨x, hx⟩ := (takesLeaf_iff.mp h).1
  exact .leaf hx hx

mutual

/-- What a statement takes has the same shape in every scope. -/
theorem alike_of_takes : ∀ {e : Expr}, s.takes c e = true → e.Alike k sc sc' e
  | .literal _, _ => .literal rfl
  | .apply op _, h => .apply op (allAlike_of_takes h)
  | .column _, h => alike_of_takesLeaf h
  | .star _, h => alike_of_takesLeaf h
  | .projected .., h => alike_of_takesLeaf h
  | .pinned .., h => alike_of_takesLeaf h
  | .view (.select _ _), _ => .value rfl rfl
  | .view (.table _), h => nomatch h
  | .view (.concrete _), h => nomatch h
  | .view (.join _ _), h => nomatch h
  | .within _ _, h => nomatch h

theorem allAlike_of_takes : ∀ {es : List Expr}, takesAll c s es = true → Expr.AllAlike k sc sc' es es
  | [], _ => .nil
  | _ :: _, h => .cons (alike_of_takes (Bool.and_eq_true_iff.mp h).1)
      (allAlike_of_takes (Bool.and_eq_true_iff.mp h).2)

end

/-! The selectors of a statement. -/

theorem nanFree_of_sources : ∀ {f : List Source}, Source.nanFreeAll f = true →
    ∀ src ∈ f, src.view.nanFree = true
  | [], _ => fun _ hsrc => absurd hsrc List.not_mem_nil
  | ⟨v, _, _, _⟩ :: _, h => by
      rw [Source.nanFreeAll, Bool.and_eq_true] at h
      exact List.forall_mem_cons.mpr ⟨h.1, nanFree_of_sources h.2⟩

theorem nanFree_sources (h : s.nanFree = true) : ∀ src ∈ s.sources, src.view.nanFree = true := by
  obtain ⟨i, f, p, w, g, k, as, sc⟩ := s
  simp only [Select.nanFree, Bool.and_eq_true] at h
  exact nanFree_of_sources h.1.1.1

theorem isSelf_self (h : s.nanFree = true) (i : Nat) : s.isSelf (.select i s) = true :=
  Select.beq_of_grows h (.refl s)

/-- What is accepted at once is not unwrapped. -/
theorem acceptHarder_of_accept {r : (Select × Expr) × Catalog} (h : s.accept e c = .ok r) :
    s.acceptHarder e c = .ok r := by
  rw [acceptHarder]
  cases e.wrapping with
  | zero => exact h
  | succ n => simp only [acceptUnwrapping, h]

theorem matches_of_resolves (he : e.ResolvesIn sc) (ha : a.ResolvesIn sc')
    (hlength : e.leaves.length = a.leaves.length) : sc.Matches sc' e.leaves a.leaves := by
  have hsome : ∀ {b : Expr} {x : Scope}, b.ResolvesIn x →
      b.leaves.map (fun l => (x.labelOf? l).isSome) = List.replicate b.leaves.length true := by
    intro b x hb
    refine List.eq_replicate_iff.mpr ⟨List.length_map .., fun o ho => ?_⟩
    obtain ⟨l, hl, rfl⟩ := List.mem_map.mp ho
    obtain ⟨m, hm⟩ := hb l hl
    rw [Scope.labelOf?, hm]
    rfl
  rw [Scope.Matches, hsome he, hsome ha, hlength]

/-- What a statement accepts prints like a projection of the same shape exactly if the leaves have the
same aliases now as they had in the scope of the projection. -/
theorem Reached.text_eq_projection_iff (h : s.Reached) (hnan : s.nanFree = true) {p : Projection}
    (hp : p ∈ s.projections) (ha : a.ResolvesIn s.scope) (halike : a.Alike k s.scope p.scope p.definition) :
    Piece.textAll (a.pieces k s.scope) = p.text k ↔
      leafAliases a s.scope = leafAliases p.definition p.scope := by
  have hclause : p.definition.ResolvesIn p.scope := h.resolves (nanFree_sources hnan)
    ⟨p.definition, p.scope⟩ (mem_clauses.mpr (Or.inl ⟨p, hp, rfl⟩))
  exact halike.text_eq_iff h.dotless (h.dotless_projection hp)
    (matches_of_resolves ha hclause halike.length_leaves)

/-- A selector of a statement is accepted by the statement as the definition of its clause. What is accepted
with the shape of the definition prints the same as the clause exactly if its leaves have the same aliases
now as they had then. If the statement takes the definition as it is, it accepts the selector. -/
theorem Reached.own_selector (h : s.Reached) (hnan : s.nanFree = true) {p : Projection}
    (hp : p ∈ s.projections) (i : Nat) (c : Catalog) :
    s.accept (p.reference (.select i s)) = s.accept p.definition ∧
    (∀ t a c', s.accept (p.reference (.select i s)) c = .ok ((t, a), c')
        ∨ s.acceptHarder (p.reference (.select i s)) c = .ok ((t, a), c') →
      ∀ k, a.Alike k s.scope p.scope p.definition →
        (Piece.textAll (a.pieces k s.scope) = p.text k ↔
          leafAliases a s.scope = leafAliases p.definition p.scope)) ∧
    (s.takes c p.definition = true →
      s.accept (p.reference (.select i s)) c = .ok ((s, p.definition), c)
        ∧ s.acceptHarder (p.reference (.select i s)) c = .ok ((s, p.definition), c) ∧
      ∀ k, Piece.textAll (p.definition.pieces k s.scope) = p.text k ↔
        leafAliases p.definition s.scope = leafAliases p.definition p.scope) := by
  have hown : s.accept (p.reference (.select i s)) = s.accept p.definition :=
    accept_own (isSelf_self hnan i)
  have hscope : s.InScope := h.linked.inScope (nanFree_sources hnan)
  refine ⟨hown, fun t a c' hrun k halike => ?_, fun htakes => ?_⟩
  · obtain ⟨e, hacc⟩ : ∃ e, s.Accepts e t a :=
      hrun.elim (fun hrun => ⟨_, accept_sound hrun⟩) exists_accepts_of_acceptHarder
    exact h.text_eq_projection_iff hnan hp (hacc.resolves hscope) halike
  · have htaken := accept_of_takes htakes
    have hselector : s.accept (p.reference (.select i s)) c = .ok ((s, p.definition), c) := by
      rw [hown, htaken]
    exact ⟨hselector, acceptHarder_of_accept hselector, fun k =>
      h.text_eq_projection_iff hnan hp ((accept_sound htaken).resolves hscope) (alike_of_takes htakes)⟩

theorem peopleNames_own_selector : ∃ p ∈ peopleNames.projections, peopleNames.Reached
    ∧ peopleNames.nanFree = true ∧ peopleNames.takes {} p.definition = true ∧
    (peopleNames.accept (p.reference (.select 8 peopleNames)) = peopleNames.accept p.definition ∧
    (∀ t a c', peopleNames.accept (p.reference (.select 8 peopleNames)) {} = .ok ((t, a), c')
        ∨ peopleNames.acceptHarder (p.reference (.select 8 peopleNames)) {} = .ok ((t, a), c') →
      ∀ k, a.Alike k peopleNames.scope p.scope p.definition →
        (Piece.textAll (a.pieces k peopleNames.scope) = p.text k ↔
          leafAliases a peopleNames.scope = leafAliases p.definition p.scope)) ∧
    (peopleNames.takes {} p.definition = true →
      peopleNames.accept (p.reference (.select 8 peopleNames)) {} = .ok ((peopleNames, p.definition), {})
        ∧ peopleNames.acceptHarder (p.reference (.select 8 peopleNames)) {}
          = .ok ((peopleNames, p.definition), {}) ∧
      ∀ k, Piece.textAll (p.definition.pieces k peopleNames.scope) = p.text k ↔
        leafAliases p.definition peopleNames.scope = leafAliases p.definition p.scope)) := by
  have hreached : peopleNames.Reached := .call (.call (.empty 0) _ {}) _ {}
  have hrun : peopleNames.projections.length = 1 ∧ peopleNames.nanFree = true
      ∧ ∀ p ∈ peopleNames.projections, peopleNames.takes {} p.definition = true := by decide +kernel
  obtain ⟨hlength, hnan, htakes⟩ := hrun
  obtain ⟨p, hp⟩ := List.length_eq_one_iff.mp hlength
  have hmem : p ∈ peopleNames.projections := hp ▸ List.mem_cons_self
  exact ⟨p, hmem, hreached, hnan, htakes p hmem, hreached.own_selector hnan hmem 8 {}⟩

/-- The names of the people, with the people as a second source. -/
def peopleTwice : Select := (Call.addSource (.table people)).attempt {} peopleNames

/-- The people joined onto a statement over them, and its names. -/
def joinedNames : Select :=
  match peopleNames.projections with
  | [p] => (Call.project (p.reference (.select 7 peopleNames))).attempt {}
      ((Call.addSource (.join 8 ontoNames)).attempt {}
        ((Call.addSource (.table people)).attempt {} (.empty 1)))
  | _ => .empty 1

/-- A second source over the same table takes the names over, and the selector of a projection through a
join is rejected, since the nested statement cannot resolve the join. -/
theorem own_selectors_misread :
    (peopleTwice.Reached ∧ peopleTwice.nanFree = true ∧ ∃ p ∈ peopleTwice.projections, ∃ t a c',
      peopleTwice.accept (p.reference (.select 9 peopleTwice)) {} = .ok ((t, a), c')
      ∧ p.text {} = "p.name" ∧ Piece.textAll (a.pieces {} peopleTwice.scope) = "p1.name") ∧
    (joinedNames.Reached ∧ joinedNames.nanFree = true ∧ ∃ p ∈ joinedNames.projections,
      p.text {} = "a.name"
      ∧ (joinedNames.accept (p.reference (.select 9 joinedNames)) {}).isOk = false) := by
  refine ⟨⟨.call (.call (.call (.empty 0) _ {}) _ {}) _ {}, ?_⟩, ?_, ?_⟩
  · have hshown : peopleTwice.nanFree = true ∧ peopleTwice.projections.length = 1
        ∧ ∀ p ∈ peopleTwice.projections, p.text {} = "p.name"
          ∧ (peopleTwice.accept (p.reference (.select 9 peopleTwice)) {}).toOption.map
            (fun r => Piece.textAll (r.1.2.pieces {} peopleTwice.scope)) = some "p1.name" := by
      decide +kernel
    obtain ⟨hnan, hlength, htexts⟩ := hshown
    obtain ⟨p, hp⟩ := List.length_eq_one_iff.mp hlength
    have hmem : p ∈ peopleTwice.projections := hp ▸ List.mem_cons_self
    obtain ⟨htext, hselector⟩ := htexts p hmem
    obtain ⟨⟨⟨t, a⟩, c'⟩, hacc, hselector⟩ := Except.exists_of_toOption hselector
    exact ⟨hnan, p, hmem, t, a, c', hacc, htext, hselector⟩
  · rw [joinedNames]
    split
    · exact .call (.call (.call (.empty 1) _ {}) _ {}) _ {}
    · exact .empty 1
  · decide +kernel

end Select

end SqlCompose
