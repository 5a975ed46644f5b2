import Mathlib.Logic.Relation
import SqlCompose.Proofs.Acceptance

/-!
Runs of builder calls. A call that fails leaves the statement as it was. A call that succeeds takes a few
steps: a view enters the scope and the FROM list, or an expression is accepted and put in a clause. The
statements that calls can reach, from whatever arguments and catalogues, keep their FROM list and their
scope linked: the aliases are distinct and taken, and every mapping is of the view under its alias as it
was when it was registered.
-/

namespace SqlCompose

/-- A call of the builder. -/
inductive Call
  | addSource (view : View)
  | join (target : View) (predicate : Expr)
  | project (e : Expr)
  | projectAs (e : Expr) (label : String)
  | filter (predicate : Expr)
  | filterGroups (predicate : Expr)
  | groupBy (e : Expr)
  | groupByAll (es : List Expr)

namespace Call

/-- What a call does to a statement. -/
def run (s : Select) : Call → Build Select
  | addSource v => s.addSource v
  | join t p => s.join t p
  | project e => s.project e
  | projectAs e l => s.projectAs e l
  | filter e => s.filter e
  | filterGroups e => s.filterGroups e
  | groupBy e => s.groupBy e
  | groupByAll es => s.groupByAll es

/-- The statement after a call, which is the same one if the call fails. -/
def attempt (k : Call) (c : Catalog) (s : Select) : Select :=
  match k.run s c with
  | .ok (t, _) => t
  | .error _ => s

theorem attempt_eq {k : Call} {c c' : Catalog} {s t : Select} (h : k.run s c = .ok (t, c')) :
    k.attempt c s = t := by
  rw [attempt, h]

end Call

namespace Select

/-- A statement with nothing in it. -/
def empty (identity : Nat) : Select := ⟨identity, [], [], [], [], [], {}, []⟩

/-- What any sequence of calls can make of an empty statement. -/
inductive Reached : Select → Prop
  | empty (i : Nat) : Reached (empty i)
  | call {s : Select} (h : s.Reached) (k : Call) (c : Catalog) : Reached (k.attempt c s)

/-- The statement with a view in scope that is not in its FROM list yet. -/
def entered (s : Select) (m : Mapping) (pool : AliasPool) : Select :=
  { s with aliases := pool, scope := m :: s.scope }

/-- The statement with one more entry of its FROM list. -/
def listing (s : Select) (src : Source) : Select := { s with sources := s.sources ++ [src] }

/-- A statement puts an accepted expression in a clause, or finds it projected before. -/
inductive Adds (t : Select) (a : Expr) : Select → Prop
  | known : Adds t a t
  | projection {name l : Option String} {pool : AliasPool}
      (hl : t.aliases.projectionAlias name = (l, pool)) :
      Adds t a { t with projections := t.projections ++ [⟨a, l, t.scope⟩], aliases := pool }
  | filter : Adds t a { t with filters := t.filters ++ [⟨a, t.scope⟩] }
  | having : Adds t a { t with having := t.having ++ [⟨a, t.scope⟩] }
  | grouping : Adds t a { t with grouping := t.grouping ++ [⟨a, t.scope⟩] }

variable (Ok : Expr → Prop) (OkView : View → Prop)

/-- A step of a call on given expressions and views. -/
inductive Step : Select → Select → Prop
  | source {s : Select} {v w : View} {a : String} {pool : AliasPool} {c c' : Catalog} (mark : Nat)
      (hv : OkView v) (hw : Build.copyView v c = .ok (w, c')) (hj : v.isJoin = false)
      (ha : s.aliases.viewAlias w.name? = (a, pool)) :
      Step s ((s.entered ⟨mark, w, a⟩ pool).listing ⟨w, a, ⟨mark, w, a⟩ :: s.scope, none⟩)
  | join {s t : Select} {i k : Nat} {j l : Join} {a : String} {pool : AliasPool} {e : Expr}
      (mark : Nat) (hv : OkView (.join i j)) (hl : s.rebase j = .ok l)
      (ha : s.aliases.viewAlias (View.join k l).name? = (a, pool))
      (h : (s.entered ⟨mark, .join k l, a⟩ pool).Accepts l.predicate t e) :
      Step s (t.listing ⟨.join k l, a, t.scope, some e⟩)
  | clause {s t u : Select} {e a : Expr} (he : Ok e) (h : s.Accepts e t a) (hu : t.Adds a u) : Step s u

/-- Some steps. -/
abbrev Steps : Select → Select → Prop := Relation.ReflTransGen (Step Ok OkView)

variable {Ok OkView} {s t u : Select} {c c' : Catalog}

/-! What a successful call does, in steps. -/

theorem registerNamed_eq_ok {v : View} (h : s.registerNamed v none c = .ok (t, c')) :
    ∃ mark a pool, s.aliases.viewAlias v.name? = (a, pool) ∧
      t = (s.entered ⟨mark, v, a⟩ pool).listing ⟨v, a, ⟨mark, v, a⟩ :: s.scope, none⟩ := by
  obtain ⟨mark, c₁, hmark, h₁⟩ := Build.bind_eq_ok.mp h
  simp only [Build.pure_eq_ok, Prod.mk.injEq] at h₁
  exact ⟨mark, _, _, rfl, h₁.1⟩

theorem registerNamed_on_eq_ok {v : View} {p : Expr}
    (h : s.registerNamed v (some p) c = .ok (u, c')) :
    ∃ mark a pool t e, s.aliases.viewAlias v.name? = (a, pool) ∧
      (s.entered ⟨mark, v, a⟩ pool).Accepts p t e ∧ u = t.listing ⟨v, a, t.scope, some e⟩ := by
  obtain ⟨mark, c₁, hmark, h₁⟩ := Build.bind_eq_ok.mp h
  obtain ⟨⟨t, e⟩, c₂, ht, h₂⟩ := Build.bind_eq_ok.mp h₁
  simp only [Build.pure_eq_ok, Prod.mk.injEq] at h₂
  exact ⟨mark, _, _, t, e, rfl, accept_sound ht, h₂.1⟩

theorem place_eq_ok {v : View} (hj : v.isJoin = false) :
    s.place v = (do s.registerNamed (← Build.copyView v) none) := by
  cases v with
  | join i j => exact absurd hj (by simp [View.isJoin])
  | table t => rfl
  | concrete t => rfl
  | select i q => rfl

theorem addSource_step {v : View} (hv : OkView v) (h : s.addSource v c = .ok (t, c')) :
    Step Ok OkView s t := by
  have h := Build.rejecting_eq_ok.mp h
  by_cases hj : v.isJoin = false
  · rw [place_eq_ok hj] at h
    obtain ⟨w, c₁, hw, h₁⟩ := Build.bind_eq_ok.mp h
    obtain ⟨mark, a, pool, ha, rfl⟩ := registerNamed_eq_ok h₁
    exact .source mark hv hw hj ha
  · cases v with
    | join i j =>
        obtain ⟨l, c₁, hl, h₁⟩ := Build.bind_eq_ok.mp h
        obtain ⟨w, c₂, hw, h₂⟩ := Build.bind_eq_ok.mp h₁
        obtain ⟨rfl, -⟩ := Prod.mk.inj (Build.joinView_eq_ok.mp hw)
        obtain ⟨mark, a, pool, t, e, ha, ht, rfl⟩ := registerNamed_on_eq_ok h₂
        exact .join mark hv (Build.lift_eq_ok.mp hl).1 ha ht
    | table t => exact absurd rfl hj
    | concrete t => exact absurd rfl hj
    | select i q => exact absurd rfl hj

theorem addProjection_step {e : Expr} {name : Option String} {explicit : Bool} (he : Ok e)
    (h : s.addProjection e name explicit c = .ok (u, c')) : Step Ok OkView s u := by
  obtain ⟨⟨t, a⟩, c₁, ht, h₁⟩ := Build.bind_eq_ok.mp h
  simp only at h₁
  generalize (if explicit = true then name else none) = wanted at h₁
  split at h₁
  · obtain ⟨rfl, -⟩ := Prod.mk.inj (Build.pure_eq_ok.mp h₁)
    exact .clause he (accept_sound ht) .known
  · obtain ⟨rfl, -⟩ := Prod.mk.inj (Build.pure_eq_ok.mp h₁)
    exact .clause he (accept_sound ht) (.projection rfl)

/-- What is accepted after unwrapping is accepted as it is or in an unwrapped form. -/
theorem acceptUnwrapping_sound (hok : ∀ e, Ok e → e.isWrapped = true → Ok e.unwrap) :
    ∀ (n : Nat) {e a : Expr}, Ok e → s.acceptUnwrapping n e c = .ok ((t, a), c') →
      ∃ e', Ok e' ∧ s.Accepts e' t a := by
  intro n
  induction n with
  | zero =>
      intro e a he h
      exact ⟨e, he, accept_sound h⟩
  | succ n ih =>
      intro e a he h
      rw [acceptUnwrapping] at h
      cases hr : s.accept e c with
      | ok r =>
          simp only [hr] at h
          exact ⟨e, he, accept_sound (hr.trans h)⟩
      | error cause =>
          simp only [hr] at h
          split at h
          case isTrue hw => exact ih (hok e he hw) h
          case isFalse hw => exact absurd h (by simp)

theorem exists_accepts_of_acceptHarder (h : s.acceptHarder e c = .ok ((t, a), c')) :
    ∃ e', s.Accepts e' t a := by
  obtain ⟨e', -, hacc⟩ : ∃ e', True ∧ s.Accepts e' t a :=
    acceptUnwrapping_sound (fun _ _ _ => trivial) _ trivial h
  exact ⟨e', hacc⟩

end Select

/-- What the steps of a call work on. -/
def Call.Fits (Ok : Expr → Prop) (OkView : View → Prop) : Call → Prop
  | addSource v => OkView v
  | join target p => ∀ i j, Join.infer target p = .ok j → OkView (.join i j)
  | project e => Ok e
  | projectAs e _ => Ok e
  | filter e => Ok e
  | filterGroups e => Ok e
  | groupBy e => Ok e
  | groupByAll es => ∀ e ∈ es, Ok e

namespace Select

variable {Ok : Expr → Prop} {OkView : View → Prop} {s t : Select} {c c' : Catalog}

theorem groupBy_steps {e : Expr} (he : Ok e) (h : s.groupBy e c = .ok (t, c')) :
    Steps Ok OkView s t := by
  have h := Build.rejecting_eq_ok.mp h
  obtain ⟨⟨u, a⟩, c₁, hu, h₁⟩ := Build.bind_eq_ok.mp h
  exact .tail (.single (.clause he (accept_sound hu) .grouping)) (addProjection_step he h₁)

theorem groupByAll_steps : ∀ {es : List Expr} {s : Select} {c : Catalog}, (∀ e ∈ es, Ok e) →
    s.groupByAll es c = .ok (t, c') → Steps Ok OkView s t
  | [], s, c, _, h => by
      obtain ⟨rfl, -⟩ := Prod.mk.inj (Build.pure_eq_ok.mp h)
      exact .refl
  | e :: es, s, c, hes, h => by
      obtain ⟨u, c₁, hu, h₁⟩ := Build.bind_eq_ok.mp h
      have htail := groupByAll_steps (fun x hx => hes x (List.mem_cons_of_mem e hx)) h₁
      exact (groupBy_steps (hes e List.mem_cons_self) hu).trans htail

end Select

namespace Call

variable {Ok : Expr → Prop} {OkView : View → Prop} {s t : Select} {c c' : Catalog}

/-- A successful call takes steps on its arguments and their unwrapped forms. -/
theorem steps (hok : ∀ e, Ok e → e.isWrapped = true → Ok e.unwrap) :
    ∀ {k : Call}, k.Fits Ok OkView → k.run s c = .ok (t, c') → Select.Steps Ok OkView s t
  | addSource v, hk, h => .single (Select.addSource_step hk h)
  | join target p, hk, h => by
      obtain ⟨j, c₁, hj, h₁⟩ := Build.bind_eq_ok.mp h
      obtain ⟨v, c₂, hv, h₂⟩ := Build.bind_eq_ok.mp h₁
      obtain ⟨rfl, -⟩ := Prod.mk.inj (Build.joinView_eq_ok.mp hv)
      exact .single (Select.addSource_step (hk _ j (Build.lift_eq_ok.mp hj).1) h₂)
  | project e, hk, h => .single (Select.addProjection_step hk (Build.rejecting_eq_ok.mp h))
  | projectAs e l, hk, h => .single (Select.addProjection_step hk (Build.rejecting_eq_ok.mp h))
  | filter e, hk, h => by
      obtain ⟨⟨u, a⟩, c₁, hu, h₁⟩ := Build.bind_eq_ok.mp (Build.rejecting_eq_ok.mp h)
      obtain ⟨rfl, -⟩ := Prod.mk.inj (Build.pure_eq_ok.mp h₁)
      obtain ⟨e', he', hacc⟩ := Select.acceptUnwrapping_sound hok _ hk hu
      exact .single (.clause he' hacc .filter)
  | filterGroups e, hk, h => by
      obtain ⟨⟨u, a⟩, c₁, hu, h₁⟩ := Build.bind_eq_ok.mp (Build.rejecting_eq_ok.mp h)
      obtain ⟨rfl, -⟩ := Prod.mk.inj (Build.pure_eq_ok.mp h₁)
      obtain ⟨e', he', hacc⟩ := Select.acceptUnwrapping_sound hok _ hk hu
      exact .single (.clause he' hacc .having)
  | groupBy e, hk, h => Select.groupBy_steps hk h
  | groupByAll es, hk, h => Select.groupByAll_steps hk h

/-- What every step keeps, every call keeps. -/
theorem attempt_induction {P : Select → Prop} (hok : ∀ e, Ok e → e.isWrapped = true → Ok e.unwrap)
    (hstep : ∀ {s t : Select}, Select.Step Ok OkView s t → P s → P t) {k : Call}
    (hk : k.Fits Ok OkView) (c : Catalog) (hs : P s) : P (k.attempt c s) := by
  rw [attempt]
  cases ht : k.run s c with
  | error cause => exact hs
  | ok r =>
      obtain ⟨t, c'⟩ := r
      have hsteps := steps hok hk ht
      clear ht
      show P t
      induction hsteps with
      | refl => exact hs
      | tail _ h ih => exact hstep h ih

/-- Every call fits if nothing is asked of what it works on. -/
theorem fits_true (k : Call) : k.Fits (fun _ => True) (fun _ => True) := by
  cases k <;> simp [Fits]

theorem attempt_keeps {P : Select → Prop}
    (hstep : ∀ {s t : Select}, Select.Step (fun _ => True) (fun _ => True) s t → P s → P t) (k : Call)
    (c : Catalog) (hs : P s) : P (k.attempt c s) :=
  attempt_induction (fun _ _ _ => trivial) hstep k.fits_true c hs

end Call

namespace Select

/-! The clauses of a statement, wherever they stand. -/

/-- The expressions of a statement with the scopes they were accepted in. -/
def clauses (s : Select) : List Condition :=
  s.projections.map (fun p => ⟨p.definition, p.scope⟩)
    ++ s.sources.filterMap (fun src => src.on.map (⟨·, src.scope⟩))
    ++ s.filters ++ s.grouping ++ s.having

variable {Ok : Expr → Prop} {OkView : View → Prop} {s t u : Select} {e a : Expr}

theorem mem_clauses {k : Condition} : k ∈ s.clauses ↔
    (∃ p ∈ s.projections, (⟨p.definition, p.scope⟩ : Condition) = k)
      ∨ (∃ src ∈ s.sources, ∃ e, src.on = some e ∧ (⟨e, src.scope⟩ : Condition) = k)
      ∨ k ∈ s.filters ∨ k ∈ s.grouping ∨ k ∈ s.having := by
  simp only [clauses, List.mem_append, List.mem_map, List.mem_filterMap, Option.map_eq_some_iff,
    or_assoc]

theorem mem_clauses_listing {src : Source} {k : Condition} (h : k ∈ (s.listing src).clauses) :
    k ∈ s.clauses ∨ ∃ e, src.on = some e ∧ k = ⟨e, src.scope⟩ := by
  rw [mem_clauses] at h ⊢
  rcases h with h | ⟨x, hx, e, he, rfl⟩ | h
  · exact Or.inl (Or.inl h)
  · rcases List.mem_append.mp hx with hx | hx
    · exact Or.inl (Or.inr (Or.inl ⟨x, hx, e, he, rfl⟩))
    · obtain rfl := List.mem_singleton.mp hx
      exact Or.inr ⟨e, he, rfl⟩
  · exact Or.inl (Or.inr (Or.inr h))

theorem Accepts.mem_clauses (h : s.Accepts e t a) {k : Condition} (hk : k ∈ t.clauses) :
    k ∈ s.clauses := by
  obtain ⟨ht, hf⟩ := h.frame
  rw [ht] at hk
  rw [Select.mem_clauses] at hk ⊢
  rcases hk with hk | ⟨y, hy, b, hb, rfl⟩ | hk
  · exact Or.inl hk
  · obtain ⟨x, hx, -, hscope, hon, -⟩ := hf.of_mem hy
    exact Or.inr (Or.inl ⟨x, hx, b, hon ▸ hb, by rw [hscope]⟩)
  · exact Or.inr (Or.inr hk)

namespace Adds

theorem mem_clauses (h : t.Adds a u) {k : Condition} (hk : k ∈ u.clauses) :
    k ∈ t.clauses ∨ k = ⟨a, t.scope⟩ := by
  rw [Select.mem_clauses] at hk ⊢
  cases h with
  | known => exact Or.inl hk
  | projection hl =>
      rcases hk with ⟨p, hp, rfl⟩ | hk
      · rcases List.mem_append.mp hp with hp | hp
        · exact Or.inl (Or.inl ⟨p, hp, rfl⟩)
        · rw [List.mem_singleton.mp hp]
          exact Or.inr rfl
      · exact Or.inl (Or.inr hk)
  | filter =>
      rcases hk with hk | hk | hk | hk
      · exact Or.inl (Or.inl hk)
      · exact Or.inl (Or.inr (Or.inl hk))
      · rcases List.mem_append.mp hk with hk | hk
        · exact Or.inl (Or.inr (Or.inr (Or.inl hk)))
        · exact Or.inr (List.mem_singleton.mp hk)
      · exact Or.inl (Or.inr (Or.inr (Or.inr hk)))
  | grouping =>
      rcases hk with hk | hk | hk | hk | hk
      · exact Or.inl (Or.inl hk)
      · exact Or.inl (Or.inr (Or.inl hk))
      · exact Or.inl (Or.inr (Or.inr (Or.inl hk)))
      · rcases List.mem_append.mp hk with hk | hk
        · exact Or.inl (Or.inr (Or.inr (Or.inr (Or.inl hk))))
        · exact Or.inr (List.mem_singleton.mp hk)
      · exact Or.inl (Or.inr (Or.inr (Or.inr (Or.inr hk))))
  | having =>
      rcases hk with hk | hk | hk | hk | hk
      · exact Or.inl (Or.inl hk)
      · exact Or.inl (Or.inr (Or.inl hk))
      · exact Or.inl (Or.inr (Or.inr (Or.inl hk)))
      · exact Or.inl (Or.inr (Or.inr (Or.inr (Or.inl hk))))
      · rcases List.mem_append.mp hk with hk | hk
        · exact Or.inl (Or.inr (Or.inr (Or.inr (Or.inr hk))))
        · exact Or.inr (List.mem_singleton.mp hk)

theorem sources (h : t.Adds a u) : u.sources = t.sources := by cases h <;> rfl

theorem scope (h : t.Adds a u) : u.scope = t.scope := by cases h <;> rfl

theorem taken (h : t.Adds a u) : t.aliases.taken ⊆ u.aliases.taken := by
  cases h with
  | projection hl =>
      rw [AliasPool.projectionAlias_taken hl]
      exact List.subset_append_left _ _
  | known => exact List.Subset.refl _
  | filter => exact List.Subset.refl _
  | having => exact List.Subset.refl _
  | grouping => exact List.Subset.refl _

end Adds

/-! The FROM list and the scope stay linked. -/

/-- The aliases of the sources are distinct and taken, every mapping is of a source as it was, and the
scope of a source begins with the source itself. -/
structure Linked (s : Select) : Prop where
  nodup : (s.sources.map (·.label)).Nodup
  taken : ∀ src ∈ s.sources, src.label ∈ s.aliases.taken
  mapped : ∀ m ∈ s.scope, ∃ src ∈ s.sources, src.label = m.label ∧ m.view.Grows src.view
  captured : ∀ src ∈ s.sources, src.scope ⊆ s.scope
    ∧ ∃ m rest, src.scope = m :: rest ∧ m.label = src.label ∧ m.view.Grows src.view

namespace Linked

/-- A source is known by its alias. -/
theorem eq_of_label (h : s.Linked) {x y : Source} (hx : x ∈ s.sources) (hy : y ∈ s.sources)
    (hl : x.label = y.label) : x = y :=
  List.inj_on_of_nodup_map h.nodup hx hy hl

theorem grows_of_label (h : s.Linked) {m : Mapping} {src : Source} (hm : m ∈ s.scope)
    (hsrc : src ∈ s.sources) (hl : src.label = m.label) : m.view.Grows src.view := by
  obtain ⟨x, hx, hlx, hgrows⟩ := h.mapped m hm
  rw [h.eq_of_label hsrc hx (hl.trans hlx.symm)]
  exact hgrows

theorem empty (i : Nat) : (Select.empty i).Linked where
  nodup := List.nodup_nil
  taken := fun _ h => absurd h List.not_mem_nil
  mapped := fun _ h => absurd h List.not_mem_nil
  captured := fun _ h => absurd h List.not_mem_nil

theorem grows (h : s.Linked) (hst : s.Grows t) : t.Linked := by
  obtain ⟨-, hf, -, -, -, -, hpool, hscope⟩ := grows_iff.mp hst
  constructor
  · rw [hf.labels]
    exact h.nodup
  · intro y hy
    obtain ⟨x, hx, hl, -⟩ := hf.of_mem hy
    rw [hl]
    exact hpool.subset (h.taken x hx)
  · intro m hm
    rw [hscope] at hm
    obtain ⟨x, hx, hl, hgrows⟩ := h.mapped m hm
    obtain ⟨y, hy, hly, -, -, hxy⟩ := hf.mem hx
    exact ⟨y, hy, hly.trans hl, hgrows.trans hxy⟩
  · intro y hy
    obtain ⟨x, hx, hl, hsc, -, hxy⟩ := hf.of_mem hy
    obtain ⟨hsub, m, rest, heq, hml, hgrows⟩ := h.captured x hx
    rw [hsc, hscope, hl]
    exact ⟨hsub, m, rest, heq, hml, hgrows.trans hxy⟩

/-- A view enters the scope and the FROM list under a fresh alias. -/
theorem listing (h : s.Linked) {v : View} {a : String} {pool : AliasPool} {name : Option String}
    (ha : s.aliases.viewAlias name = (a, pool)) (mark : Nat) (on : Option Expr) :
    ((s.entered ⟨mark, v, a⟩ pool).listing ⟨v, a, ⟨mark, v, a⟩ :: s.scope, on⟩).Linked := by
  obtain ⟨hfresh, htaken⟩ := s.aliases.viewAlias_spec name
  rw [ha] at hfresh htaken
  constructor
  · show ((s.sources ++ [_]).map _).Nodup
    rw [List.map_append, List.nodup_append]
    refine ⟨h.nodup, List.nodup_singleton _, ?_⟩
    intro l hl l' hl'
    obtain ⟨x, hx, rfl⟩ := List.mem_map.mp hl
    rw [List.mem_singleton.mp hl']
    intro (heq : x.label = a)
    exact hfresh (heq ▸ h.taken x hx)
  · intro x hx
    show x.label ∈ pool.taken
    rw [htaken, List.mem_append]
    rcases List.mem_append.mp hx with hx | hx
    · exact Or.inl (h.taken x hx)
    · rw [List.mem_singleton.mp hx]
      exact Or.inr List.mem_cons_self
  · intro m hm
    rcases List.mem_cons.mp hm with rfl | hm
    · exact ⟨_, List.mem_append_right _ List.mem_cons_self, rfl, .refl v⟩
    · obtain ⟨x, hx, hl, hgrows⟩ := h.mapped m hm
      exact ⟨x, List.mem_append_left _ hx, hl, hgrows⟩
  · intro x hx
    rcases List.mem_append.mp hx with hx | hx
    · obtain ⟨hsub, hhead⟩ := h.captured x hx
      exact ⟨fun m hm => List.mem_cons_of_mem _ (hsub hm), hhead⟩
    · rw [List.mem_singleton.mp hx]
      exact ⟨List.Subset.refl _, _, s.scope, rfl, rfl, .refl v⟩

theorem adds (h : t.Linked) (hu : t.Adds a u) : u.Linked where
  nodup := hu.sources ▸ h.nodup
  taken := fun x hx => hu.taken (h.taken x (hu.sources ▸ hx))
  mapped := by
    rw [hu.sources, hu.scope]
    exact h.mapped
  captured := by
    rw [hu.sources, hu.scope]
    exact h.captured

end Linked

theorem Step.linked (h : Step Ok OkView s u) (hs : s.Linked) : u.Linked := by
  cases h with
  | source mark hv hw hj ha => exact hs.listing ha mark none
  | @join t i k j l a pool e mark hv hl ha h =>
      obtain ⟨ht, hf⟩ := h.frame
      have hgrown : Select.Linked { s with sources := t.sources } :=
        hs.grows (grows_of_sources rfl hf)
      rw [ht]
      exact hgrown.listing ha mark (some e)
  | clause he h hu => exact (hs.grows h.grows).adds hu

/-- Whatever is true of the empty statement and kept by every step is true of all that can be reached. -/
theorem Reached.induction {P : Select → Prop} (hempty : ∀ i, P (Select.empty i))
    (hstep : ∀ {s t : Select}, Step (fun _ => True) (fun _ => True) s t → P s → P t)
    (h : s.Reached) : P s := by
  induction h with
  | empty i => exact hempty i
  | call h k c ih => exact k.attempt_keeps hstep c ih

theorem Reached.linked (h : s.Reached) : s.Linked := h.induction Linked.empty Step.linked

theorem Step.scope_subset (h : Step Ok OkView s u) : s.scope ⊆ u.scope := by
  cases h with
  | source mark hv hw hj ha => exact List.subset_cons_self _ _
  | join mark hv hl ha h =>
      exact h.scope ▸ List.subset_cons_self _ _
  | clause he h hu =>
      rw [hu.scope, h.scope]
      exact List.Subset.refl _

theorem Step.sources_grow (h : Step Ok OkView s u) : ∀ x ∈ s.sources, ∃ y ∈ u.sources, x.Grows y := by
  intro x hx
  cases h with
  | source mark hv hw hj ha => exact ⟨x, List.mem_append_left _ hx, .refl x⟩
  | join mark hv hl ha h =>
      obtain ⟨y, hy, hxy⟩ := h.frame.2.mem hx
      exact ⟨y, List.mem_append_left _ hy, hxy⟩
  | clause he h hu =>
      rw [hu.sources]
      exact h.frame.2.mem hx

/-- The clauses after a step are those before it, which keep their scopes, and the accepted one. -/
theorem Step.clause_cases (h : Step Ok OkView s u) {k : Condition} (hk : k ∈ u.clauses) :
    k ∈ s.clauses ∨ ∃ (r t : Select) (e : Expr), r.Accepts e t k.expr ∧ k.scope = t.scope
      ∧ u.scope = t.scope ∧ t.sources ⊆ u.sources := by
  cases h with
  | source mark hv hw hj ha =>
      rcases mem_clauses_listing hk with hk | ⟨e, he, -⟩
      · exact Or.inl hk
      · exact absurd he (Option.some_ne_none e).symm
  | join mark hv hl ha h =>
      rcases mem_clauses_listing hk with hk | ⟨e, he, rfl⟩
      · exact Or.inl (h.mem_clauses hk)
      · obtain rfl := Option.some.inj he
        exact Or.inr ⟨_, _, _, h, rfl, rfl, List.subset_append_left _ _⟩
  | clause he h hu =>
      rcases hu.mem_clauses hk with hk | rfl
      · exact Or.inl (h.mem_clauses hk)
      · exact Or.inr ⟨_, _, _, h, rfl, hu.scope, hu.sources ▸ List.Subset.refl _⟩

theorem Reached.clause_scope (h : s.Reached) {k : Condition} (hk : k ∈ s.clauses) :
    k.scope ⊆ s.scope := by
  revert k
  refine h.induction (P := fun s => ∀ {k}, k ∈ s.clauses → k.scope ⊆ s.scope) ?_ ?_
  · intro i k hk
    exact absurd hk List.not_mem_nil
  · intro s t hstep ih k hk
    rcases hstep.clause_cases hk with hk | ⟨r, u, e, hacc, hscope, ht, -⟩
    · exact List.Subset.trans (ih hk) hstep.scope_subset
    · rw [hscope, ht]
      exact List.Subset.refl _

end Select

/-! A small run, for the examples. -/

/-- A table of people. -/
def people : Table := ⟨0, "People", {}⟩

/-- A column of the people. -/
def Expr.ofPeople (name : String) : Expr := .column ⟨people, name⟩

/-- The names of the people. -/
def peopleNames : Select :=
  (Call.project (.ofPeople "name")).attempt {}
    ((Call.addSource (.table people)).attempt {} (Select.empty 0))

/-- A statement over a nested one. -/
def Select.over (q : Select) : Select := (Call.addSource (.select 7 q)).attempt {} (Select.empty 1)

/-- The people with a revenue above an amount. -/
def Expr.revenueAbove (amount : Int) : Expr :=
  .apply .greater [.ofPeople "revenue", .literal (.integer amount)]

/-- The names of the people with a great revenue, which the nested statement has to project for it. -/
def wealthyNames : Select := (Call.filter (.revenueAbove 1000)).attempt {} peopleNames.over

theorem peopleNames_over_reached : peopleNames.over.Reached := .call (.empty 1) _ {}

theorem wealthyNames_reached : wealthyNames.Reached := .call peopleNames_over_reached _ {}

end SqlCompose
