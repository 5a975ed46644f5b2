import SqlCompose.Proofs.Pieces
import SqlCompose.Proofs.Runs

/-!
Selectors of a nested statement. A statement takes another one as its last source and projects a reference
to one of its projections. The reference is unwrapped to its definition, the nested statement accepts that
definition again and takes the first projection with an equal one, whatever its name: so the reference
that is printed has the name of the projection asked for exactly if that projection is the first equal one,
or if none is equal and its name is free.
-/

namespace SqlCompose

theorem View.select_beq {i k : Nat} {q r : Select} :
    (View.select i q == .select k r) = (i == k || q == r) := by
  show View.beq _ _ = _
  rw [View.beq]
  rfl

namespace Select

/-- Whether a reference to a projection leads back to its name: the statement accepts the definition
again, and the first projection that equals what it has accepted is the one asked for, or there is none
and the name is free. -/
def Keeps (s : Select) (p : Projection) (n : String) (c : Catalog) : Prop :=
  ∃ t e c', s.accept p.definition c = .ok ((t, e), c') ∧
    (s.projections.find? (·.definition == e) = some p
      ∨ (s.projections.find? (·.definition == e) = none ∧ n ∉ s.aliases.taken))

variable {s o o₁ o₂ t : Select} {i k : Nat} {c c₁ c₂ c₃ c' : Catalog} {a : Expr}

/-- A reference to a projection of the statement itself is accepted as its definition. -/
theorem accept_own {v : View} {n : Option String} {d : Expr} (h : s.isSelf v = true) :
    s.accept (.projected v n d) = s.accept d := by
  rw [accept, accept, acceptAt_eq, acceptWith, if_pos h]

theorem addSource_select_eq_ok (h : o.addSource (.select k s) c = .ok (o₁, c')) :
    ∃ mark label pool, o.aliases.viewAlias none = (label, pool) ∧
      o₁ = (o.entered ⟨mark, .select k s, label⟩ pool).listing
        ⟨.select k s, label, ⟨mark, .select k s, label⟩ :: o.scope, none⟩ := by
  have h := Build.rejecting_eq_ok.mp h
  rw [place_eq_ok rfl] at h
  obtain ⟨w, c₁, hw, h₁⟩ := Build.bind_eq_ok.mp h
  obtain ⟨rfl, -⟩ := Prod.mk.inj (Build.pure_eq_ok.mp hw)
  exact registerNamed_eq_ok h₁

/-- What becomes of a reference to a projection of the last source. -/
theorem accept_reference_eq_ok {m : Mapping} {pool : AliasPool} {src : Source} {p : Projection}
    (hm : m.view = .select k s) (hv : src.view = .select k s)
    (hfresh : ∀ x ∈ o.sources, x.label ≠ m.label) (hs : (s == s) = true)
    (ho₁ : o₁ = (o.entered m pool).listing src) (hself : (s == o₁) = false)
    (h : o₁.accept (p.reference (.select i s)) c = .ok ((t, a), c')) :
    ∃ u b c₁ r name d mark, s.accept p.definition c = .ok ((u, b), c₁)
      ∧ ((∃ q, u.projections.find? (·.definition == b) = some q ∧ r = u ∧ name = q.name?
            ∧ d = q.definition)
          ∨ (u.projections.find? (·.definition == b) = none ∧ ∃ l pool,
            u.aliases.projectionAlias p.name? = (l, pool)
              ∧ r = { u with projections := u.projections ++ [⟨b, l, u.scope⟩], aliases := pool }
              ∧ name = Projection.name? ⟨b, l, u.scope⟩ ∧ d = b))
      ∧ a = .projected (.select mark r) name d := by
  have hlevel : s.level < o₁.level := by
    have hle : src.view.level ≤ o₁.level := by
      rw [ho₁]
      exact Source.level_le_levelAll (List.mem_append_right _ List.mem_cons_self)
    rw [hv] at hle
    exact Nat.lt_of_lt_of_le (View.level_of_statement? (v := .select k s) rfl) hle
  obtain ⟨n, hn⟩ := Nat.exists_eq_add_of_lt (Nat.zero_lt_of_lt hlevel)
  rw [Nat.zero_add] at hn
  rw [accept, hn, acceptAt, Projection.reference, acceptWith,
    if_neg (show ¬ o₁.isSelf (.select i s) = true by simpa [isSelf] using hself)] at h
  have hhead : Scope.isMappingOf m (.select i s) = true := by
    apply Scope.isMappingOf_of_beq
    rw [hm, View.select_beq, hs, Bool.or_true]
  obtain ⟨m', hm', -, hcase⟩ := acceptLeaf_eq_ok h
  have hscope : o₁.scope = m :: o.scope := by rw [ho₁]; rfl
  rw [Scope.resolveLeaf, hscope, Scope.resolveExact_head hhead, Except.ok.injEq] at hm'
  subst hm'
  rw [hm] at hcase
  obtain ⟨hfalse, -⟩ | ⟨-, before, x, after, q, r, name, d, c₁, v, hf, -, hx, hq, hp, hw, -, rfl⟩ := hcase
  · cases hfalse
  have hlast : x = src := by
    rw [show o₁.sources = o.sources ++ [src] by rw [ho₁]; rfl] at hf
    have hmem : x ∈ o.sources ++ [src] := by
      rw [hf]
      exact List.mem_append_right _ List.mem_cons_self
    rcases List.mem_append.mp hmem with hmem | hmem
    · exact absurd hx (hfresh x hmem)
    · exact List.mem_singleton.mp hmem
  rw [hlast, hv] at hq hw
  obtain rfl := Option.some.inj hq
  obtain ⟨rfl, -⟩ := Prod.mk.inj (Build.selectView_eq_ok.mp hw)
  obtain ⟨u, b, hub, hcase⟩ := provide_eq_ok hp
  rw [acceptAt_eq_accept _ (by omega)] at hub
  rw [show (Expr.projected (.select i s) p.name? p.definition).unpinned
      = .projected (.select i s) p.name? p.definition from rfl,
    accept_own (show s.isSelf (.select i s) = true from hs)] at hub
  exact ⟨u, b, _, r, name, d, _, hub, hcase, rfl⟩

/-- A reference to the last source prints with its alias, as long as the source is NaN-free. -/
theorem leafPiecesIn_reference {m : Mapping} (sc : Scope) {r : Select} (mark : Nat) {d : Expr}
    (hm : m.view = .select k s) (hs : s.nanFree = true) (hr : s.Grows r) (name : Option String) :
    Scope.resolveExact (m :: sc) (.select mark r) = .ok m ∧
      Expr.leafPiecesIn (m :: sc) (.projected (.select mark r) name d)
        = Expr.leafPieces (some m.label) (.projected (.select mark r) name d) := by
  have hhead : Scope.isMappingOf m (.select mark r) = true := by
    apply Scope.isMappingOf_of_beq
    rw [hm]
    exact View.beq_of_grows (v := .select k s) (w := .select mark r) hs hr
  refine ⟨Scope.resolveExact_head hhead, ?_⟩
  rw [Expr.leafPiecesIn, Scope.resolveLeaf, Scope.resolveExact_head hhead]
  rfl

/-- No projection of a statement stands for a reference to a source that was added afterwards. -/
theorem any_covers_eq_false {m : Mapping} {v : View} (name : Option String) {d : Expr}
    (ho : o.Reached) (hfresh : ∀ x ∈ o.sources, x.label ≠ m.label)
    (hv : Scope.resolveExact (m :: o.scope) v = .ok m)
    (ht : t.scope = m :: o.scope) (hp : t.projections = o.projections) :
    t.projections.any (t.covers (.projected v name d) none) = false := by
  rw [hp, List.any_eq_false]
  intro q hq hcovers
  rw [covers, Bool.and_eq_true, beq_iff_eq] at hcovers
  have haliases : leafAliases (.projected v name d) t.scope = [some m.label] := by
    rw [leafAliases, ht]
    show [((Scope.resolveExact (m :: o.scope) v).toOption.map _)] = _
    rw [hv]
    rfl
  have hmem : some m.label ∈ leafAliases q.definition q.scope := by
    rw [hcovers.2, haliases]
    exact List.mem_cons_self
  obtain ⟨leaf, -, hleaf⟩ := List.mem_map.mp hmem
  cases hx : Scope.resolveLeaf q.scope leaf with
  | error cause =>
      rw [hx] at hleaf
      cases hleaf
  | ok x =>
      rw [hx] at hleaf
      have hscope := ho.clause_scope (k := ⟨q.definition, q.scope⟩)
        (mem_clauses.mpr (Or.inl ⟨q, hq, rfl⟩))
      obtain ⟨src, hsrc, hl, -⟩ := ho.linked.mapped x (hscope (Scope.resolveLeaf_mem hx))
      exact hfresh src hsrc (hl.trans (Option.some.inj hleaf))

/-- The name behind a reference is the one asked for exactly if the reference leads back to it. -/
theorem keeps_iff {p : Projection} {n : String} {u r : Select} {b d : Expr} {name : Option String}
    (hn : p.name? = some n) (hunique : ∀ q ∈ s.projections, q.name? = some n → q = p)
    (hub : s.accept p.definition c = .ok ((u, b), c₁))
    (hcase : (∃ q, u.projections.find? (·.definition == b) = some q ∧ r = u ∧ name = q.name?
          ∧ d = q.definition)
        ∨ (u.projections.find? (·.definition == b) = none ∧ ∃ l pool,
          u.aliases.projectionAlias p.name? = (l, pool)
            ∧ r = { u with projections := u.projections ++ [⟨b, l, u.scope⟩], aliases := pool }
            ∧ name = Projection.name? ⟨b, l, u.scope⟩ ∧ d = b)) :
    s.Keeps p n c ↔ name = some n := by
  have hacc : s.Accepts p.definition u b := accept_sound hub
  have hkeeps : s.Keeps p n c ↔ (s.projections.find? (·.definition == b) = some p
      ∨ (s.projections.find? (·.definition == b) = none ∧ n ∉ s.aliases.taken)) := by
    constructor
    · rintro ⟨t, e, c', h, hkept⟩
      rw [hub, Except.ok.injEq, Prod.mk.injEq, Prod.mk.injEq] at h
      obtain ⟨⟨-, rfl⟩, -⟩ := h
      exact hkept
    · exact fun hkept => ⟨u, b, c₁, hub, hkept⟩
  rw [hkeeps]
  rw [hacc.projections, hacc.aliases] at hcase
  rcases hcase with ⟨q, hq, -, rfl, -⟩ | ⟨hnone, l, pool, hl, -, rfl, -⟩
  · rw [hq]
    constructor
    · rintro (hqp | ⟨hnone, -⟩)
      · rw [Option.some.inj hqp, hn]
      · cases hnone
    · intro hname
      rw [hunique q (List.mem_of_find?_eq_some hq) hname]
      exact Or.inl rfl
  · rw [hn, AliasPool.projectionAlias_some, Prod.mk.injEq] at hl
    obtain ⟨rfl, -⟩ := hl
    rw [hnone]
    constructor
    · rintro (hfound | ⟨-, hfree⟩)
      · cases hfound
      · exact congrArg some (AliasPool.fresh_eq_stem.mpr hfree)
    · intro hname
      exact Or.inr ⟨rfl, AliasPool.fresh_eq_stem.mp (Option.some.inj hname)⟩

/-- A statement takes another one as its last source and projects a reference to one of its projections,
whose name no other projection has. It projects something new under the alias of that source, and this is
printed with the name asked for exactly if the reference leads back to it. -/
theorem project_reference_iff {p : Projection} {n : String} (ho : o.Reached)
    (hs : s.nanFree = true) (hself : (s == o₁) = false)
    (hn : p.name? = some n) (hunique : ∀ q ∈ s.projections, q.name? = some n → q = p)
    (hfrom : o.addSource (.select k s) c = .ok (o₁, c₁))
    (hselect : o₁.project (p.reference (.select i s)) c₂ = .ok (o₂, c₃)) :
    ∃ src q, o₁.sources = o.sources ++ [src] ∧ o₂.projections = o.projections ++ [q] ∧
      ((∀ c', q.definition.pieces c' q.scope
          = [.reference (some src.label) n (View.select k s).dialect]) ↔ s.Keeps p n c₂) := by
  have hbeq : (s == s) = true := Select.beq_of_grows hs (Grows.refl s)
  obtain ⟨mark, label, pool, halias, ho₁⟩ := addSource_select_eq_ok hfrom
  have hfresh : ∀ x ∈ o.sources, x.label ≠ label := by
    intro x hx hl
    have hnot := (o.aliases.viewAlias_spec none).1
    rw [halias] at hnot
    exact hnot (hl ▸ ho.linked.taken x hx)
  have hproject := Build.rejecting_eq_ok.mp hselect
  obtain ⟨⟨t, a⟩, c₄, ht, h₁⟩ := Build.bind_eq_ok.mp hproject
  obtain ⟨u, b, c₅, r, name, d, mark', hub, hcase, rfl⟩ :=
    accept_reference_eq_ok (m := ⟨mark, .select k s, label⟩) rfl rfl hfresh hbeq ho₁ hself ht
  have hu : s.Accepts p.definition u b := accept_sound hub
  have hgrows : s.Grows r := by
    rcases hcase with ⟨q, -, rfl, -, -⟩ | ⟨-, l, pool', hl, rfl, -, -⟩
    · exact hu.grows
    · exact hu.grows.trans (grows_of_projection hl)
  have hacc := accept_sound ht
  have hscope : t.scope = ⟨mark, .select k s, label⟩ :: o.scope := by
    rw [hacc.scope, ho₁]
    rfl
  have hprojections : t.projections = o.projections := by
    rw [hacc.projections, ho₁]
    rfl
  obtain ⟨hexact, hpieces⟩ := leafPiecesIn_reference (m := ⟨mark, .select k s, label⟩) o.scope mark'
    (d := d) rfl hs hgrows name
  have hcovers := any_covers_eq_false name (d := d) ho hfresh hexact hscope hprojections
  dsimp only at h₁
  rw [if_neg (show ¬ (false = true) from Bool.false_ne_true), hcovers, if_neg Bool.false_ne_true] at h₁
  obtain ⟨rfl, -⟩ := Prod.mk.inj (Build.pure_eq_ok.mp h₁)
  refine ⟨_, _, by rw [ho₁]; rfl, by rw [hprojections], ?_⟩
  rw [keeps_iff hn hunique hub hcase]
  have hdialect : (View.select mark' r).dialect = (View.select k s).dialect :=
    View.Grows.dialect (v := .select k s) (w := .select mark' r) hgrows
  show (∀ c', Expr.leafPiecesIn t.scope (.projected (.select mark' r) name d) = _) ↔ _
  rw [hscope, hpieces]
  cases name with
  | none => exact ⟨fun h => (nomatch h {}), fun h => (nomatch h)⟩
  | some n' =>
      rw [Expr.leafPieces, hdialect]
      constructor
      · intro h
        have hreference := List.head_eq_of_cons_eq (h {})
        rw [Piece.reference.injEq] at hreference
        rw [hreference.2.1]
      · intro h c'
        rw [Option.some.inj h]

/-- The selector of the only projection of a nested statement. -/
theorem name_selector_kept : ∃ (p : Projection) (o₁ o₂ : Select) (c₁ c₃ : Catalog) (src : Source)
    (q : Projection), p.name? = some "name"
      ∧ (Select.empty 1).addSource (.select 7 peopleNames) {} = .ok (o₁, c₁)
      ∧ o₁.project (p.reference (.select 8 peopleNames)) {} = .ok (o₂, c₃)
      ∧ o₁.sources = [src] ∧ o₂.projections = [q]
      ∧ ((∀ c', q.definition.pieces c' q.scope = [.reference (some src.label) "name" {}])
        ↔ peopleNames.Keeps p "name" {}) := by
  have hrun : peopleNames.projections.length = 1
      ∧ (∀ q ∈ peopleNames.projections, q.name? = some "name")
      ∧ ((Select.empty 1).addSource (.select 7 peopleNames) {}).isOk = true
      ∧ (∀ q ∈ peopleNames.projections,
          (peopleNames.over.project (q.reference (.select 8 peopleNames)) {}).isOk = true)
      ∧ peopleNames.nanFree = true ∧ (peopleNames == peopleNames.over) = false
      ∧ (View.select 7 peopleNames).dialect = {} := by
    decide +kernel
  obtain ⟨hlength, hname, hadded, hproject, hnan, hself, hdialect⟩ := hrun
  obtain ⟨p, hp⟩ := List.length_eq_one_iff.mp hlength
  have hmem : p ∈ peopleNames.projections := hp ▸ List.mem_cons_self
  have hunique : ∀ q ∈ peopleNames.projections, q.name? = some "name" → q = p :=
    fun q hq _ => List.mem_singleton.mp (hp ▸ hq)
  obtain ⟨⟨o₁, c₁⟩, hfrom⟩ := Except.exists_of_isOk hadded
  have hover : peopleNames.over = o₁ := Call.attempt_eq (k := .addSource _) hfrom
  obtain ⟨⟨o₂, c₃⟩, hselect⟩ := Except.exists_of_isOk (hproject p hmem)
  rw [hover] at hselect hself
  obtain ⟨src, q, hsrc, hq, hiff⟩ := project_reference_iff (.empty 1) hnan hself
    (hname p hmem) hunique hfrom hselect
  rw [hdialect] at hiff
  exact ⟨p, o₁, o₂, c₁, c₃, src, q, hname p hmem, hfrom, hselect, hsrc, hq, hiff⟩

/-- The names of the people and of their managers. -/
def managerNames : Select :=
  (Call.projectAs (.ofPeople "name") "manager").attempt {}
    ((Call.addSource (.join 3 ⟨some "Manager", .table people, .table people, .apply .equals
      [.pinned (.ofPeople "MANAGER_ID") (.table people), .ofPeople "ID"]⟩)).attempt {} peopleNames)

/-- A statement that takes the names of the people and of their managers as its source and projects the
reference to the names of the managers. -/
def managersOnly : Select :=
  match managerNames.projections with
  | [_, p] => (Call.project (p.reference (.select 8 managerNames))).attempt {} managerNames.over
  | _ => managerNames.over

/-- The two names are projected under names of their own, and still the reference to the second one prints
as the first one. -/
theorem manager_selector_misread :
    managerNames.projections.map (·.name?) = [some "name", some "manager"] ∧
      managersOnly.projections.length = 1 ∧
      (managersOnly.entries {}).map Piece.textAll = ["a.name AS manager"] := by
  decide +kernel

end Select

end SqlCompose
