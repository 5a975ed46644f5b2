import SqlCompose.Proofs.Frame
import SqlCompose.Proofs.Ingredients

/-!
The FROM list and the scope of a statement in step. Every source puts a mapping on the scope and captures
the scope it has made, and every clause captures the scope it finds, so all captured scopes are chains of
the oldest mappings. Accepting an expression may replace a nested statement by one that projects more, under
the same alias. The calls keep this at all levels of nesting: a statement that is given to a call, or is
inside what is given, has been made by calls itself.
-/

namespace SqlCompose

/-- A mapping names an entry of a FROM list: it has the alias of the entry, and the view as it was before
nested statements projected more. -/
structure Mapping.Names (m : Mapping) (src : Source) : Prop where
  label : m.label = src.label
  grows : m.view.Grows src.view
  bare : src.view.bare = m.view.bare

namespace Scope

/-- The chain of the oldest mappings of a scope, so many of them. -/
def oldest (sc : Scope) (n : Nat) : Scope := sc.drop (sc.length - n)

theorem oldest_length (sc : Scope) : sc.oldest sc.length = sc := by
  rw [oldest, Nat.sub_self, List.drop_zero]

/-- A new mapping on top leaves the older chains as they are. -/
theorem oldest_cons (m : Mapping) {sc : Scope} {n : Nat} (hn : n ≤ sc.length) :
    oldest (m :: sc) n = sc.oldest n := by
  rw [oldest, oldest, List.length_cons, Nat.succ_sub hn, List.drop_succ_cons]

end Scope

namespace Source.ExtendAll

variable {f g : List Source}

/-- What extending entries keep, the lists have in common. -/
theorem map_eq {α : Type} {x : Source → α} (h : ExtendAll f g)
    (hx : ∀ a b : Source, a.Extends b → x b = x a) : g.map x = f.map x := by
  induction h with
  | nil => rfl
  | cons hab _ ih => rw [List.map_cons, List.map_cons, hx _ _ hab, ih]

theorem names {ms : List Mapping} (h : ExtendAll f g) (hf : List.Forall₂ Mapping.Names ms f) :
    List.Forall₂ Mapping.Names ms g := by
  induction hf generalizing g with
  | nil =>
      cases h
      exact .nil
  | cons hma _ ih =>
      cases h with
      | cons hab htail =>
          refine .cons ?_ (ih htail)
          exact ⟨hma.label.trans hab.grows.1.symm, hma.grows.trans hab.grows.2.2.2,
            hab.bare.trans hma.bare⟩

end Source.ExtendAll

namespace Select

variable {s t u : Select} {e a : Expr}

/-- The aliases of the sources and the explicit projections. -/
def labels (s : Select) : List String :=
  s.sources.map (·.label) ++ s.projections.filterMap (·.label)

/-- A scope is a chain of the oldest mappings of the statement, possibly the empty one. -/
def HasChain (s : Select) (sc : Scope) : Prop := ∃ n ≤ s.scope.length, sc = Scope.oldest s.scope n

/-- The mappings, from the oldest to the most recent, name the sources one to one; every source captures
the mappings up to its own, and every clause one of these chains; the aliases are distinct and taken. -/
structure InStep (s : Select) : Prop where
  mapped : List.Forall₂ Mapping.Names s.scope.reverse s.sources
  captured : s.sources.map (·.scope)
    = (List.range s.sources.length).map fun i => Scope.oldest s.scope (i + 1)
  distinct : s.labels.Nodup
  taken : s.labels ⊆ s.aliases.taken
  projections : ∀ p ∈ s.projections, s.HasChain p.scope
  filters : ∀ k ∈ s.filters, s.HasChain k.scope
  having : ∀ k ∈ s.having, s.HasChain k.scope
  grouping : ∀ k ∈ s.grouping, s.HasChain k.scope

theorem hasChain_self (s : Select) : s.HasChain s.scope :=
  ⟨s.scope.length, Nat.le_refl _, (Scope.oldest_length s.scope).symm⟩

/-- A chain stays one when a mapping is put on top. -/
theorem HasChain.cons {sc : Scope} {m : Mapping} (h : s.HasChain sc) (hu : u.scope = m :: s.scope) :
    u.HasChain sc := by
  obtain ⟨n, hn, rfl⟩ := h
  refine ⟨n, ?_, ?_⟩
  · rw [hu, List.length_cons]
    exact Nat.le_succ_of_le hn
  · rw [hu, Scope.oldest_cons m hn]

namespace InStep

theorem length_eq (h : s.InStep) : s.scope.length = s.sources.length := by
  rw [← List.length_reverse, h.mapped.length_eq]

theorem empty (i : Nat) : (Select.empty i).InStep where
  mapped := .nil
  captured := rfl
  distinct := List.nodup_nil
  taken := List.nil_subset _
  projections := fun _ h => nomatch h
  filters := fun _ h => nomatch h
  having := fun _ h => nomatch h
  grouping := fun _ h => nomatch h

/-- The sources extend in their places. -/
theorem extend (h : s.InStep) (ht : t = { s with sources := t.sources })
    (hf : Source.ExtendAll s.sources t.sources) : t.InStep := by
  have hlabels : t.labels = s.labels := by
    rw [ht, labels, labels, hf.map_eq fun _ _ hxy => hxy.grows.1]
  rw [ht] at hlabels ⊢
  exact {
    mapped := hf.names h.mapped
    captured := by
      rw [hf.map_eq fun _ _ hxy => hxy.grows.2.1, ← hf.length_eq]
      exact h.captured
    distinct := hlabels ▸ h.distinct
    taken := hlabels ▸ h.taken
    projections := h.projections
    filters := h.filters
    having := h.having
    grouping := h.grouping }

/-- An accepted expression enters a clause with the present scope. -/
theorem adds (h : t.InStep) (hu : t.Adds a u) : u.InStep := by
  have hself : ∀ k ∈ [(⟨a, t.scope⟩ : Condition)], t.HasChain k.scope :=
    List.forall_mem_singleton.mpr t.hasChain_self
  cases hu with
  | known => exact h
  | @projection name l pool hl =>
      obtain ⟨hnodup, hfresh⟩ := AliasPool.projectionAlias_fresh hl
      have htaken := AliasPool.projectionAlias_taken hl
      have hlabels : labels { t with projections := t.projections ++ [⟨a, l, t.scope⟩], aliases := pool }
          = t.labels ++ l.toList := by
        rw [labels, labels, List.filterMap_append, List.append_assoc]
        cases l <;> rfl
      refine { h with
        distinct := ?_
        taken := ?_
        projections := List.forall_mem_append.mpr
          ⟨h.projections, List.forall_mem_singleton.mpr t.hasChain_self⟩ }
      · rw [hlabels, List.nodup_append]
        exact ⟨h.distinct, hnodup, fun x hx y hy heq => hfresh y hy (heq ▸ h.taken hx)⟩
      · show labels { t with projections := t.projections ++ [⟨a, l, t.scope⟩], aliases := pool }
          ⊆ pool.taken
        rw [hlabels, htaken]
        exact List.append_subset.mpr ⟨List.Subset.trans h.taken (List.subset_append_left _ _),
          List.subset_append_right _ _⟩
  | filter => exact { h with filters := List.forall_mem_append.mpr ⟨h.filters, hself⟩ }
  | having => exact { h with having := List.forall_mem_append.mpr ⟨h.having, hself⟩ }
  | grouping => exact { h with grouping := List.forall_mem_append.mpr ⟨h.grouping, hself⟩ }

/-- A view enters the scope and the FROM list under a fresh alias. -/
theorem listing (h : s.InStep) {v : View} {l : String} {pool : AliasPool} {name : Option String}
    (hl : s.aliases.viewAlias name = (l, pool)) (mark : Nat) (on : Option Expr) :
    ((s.entered ⟨mark, v, l⟩ pool).listing ⟨v, l, ⟨mark, v, l⟩ :: s.scope, on⟩).InStep := by
  obtain ⟨hfresh, htaken⟩ := s.aliases.viewAlias_spec name
  rw [hl] at hfresh htaken
  simp only at hfresh htaken
  have hlabels : ((s.entered ⟨mark, v, l⟩ pool).listing ⟨v, l, ⟨mark, v, l⟩ :: s.scope, on⟩).labels
      = s.sources.map (·.label) ++ l :: s.projections.filterMap (·.label) := by
    show (s.sources ++ [_]).map _ ++ _ = _
    rw [List.map_append, List.append_assoc]
    rfl
  have hchain : ∀ {sc : Scope}, s.HasChain sc →
      ((s.entered ⟨mark, v, l⟩ pool).listing ⟨v, l, ⟨mark, v, l⟩ :: s.scope, on⟩).HasChain sc :=
    fun hsc => hsc.cons rfl
  exact {
    mapped := by
      show List.Forall₂ Mapping.Names (⟨mark, v, l⟩ :: s.scope).reverse (s.sources ++ [_])
      rw [List.reverse_cons]
      exact List.rel_append h.mapped (.cons ⟨rfl, .refl v, rfl⟩ .nil)
    captured := by
      show (s.sources ++ [_]).map _ = (List.range (s.sources ++ [_]).length).map _
      rw [List.length_append, List.length_singleton, List.range_succ, List.map_append, List.map_append,
        h.captured]
      refine congrArg₂ _ (List.map_congr_left fun i hi => ?_) ?_
      · exact (Scope.oldest_cons _ (by rw [h.length_eq]; exact List.mem_range.mp hi)).symm
      · rw [← h.length_eq]
        exact congrArg ([·]) (Scope.oldest_length (⟨mark, v, l⟩ :: s.scope)).symm
    distinct := by
      rw [hlabels, List.nodup_middle, List.nodup_cons]
      exact ⟨fun hmem => hfresh (h.taken hmem), h.distinct⟩
    taken := by
      rw [hlabels]
      show _ ⊆ pool.taken
      rw [htaken]
      intro x hx
      rcases List.mem_cons.mp (List.perm_middle.mem_iff.mp hx) with rfl | hx
      · exact List.mem_append_right _ List.mem_cons_self
      · exact List.mem_append_left _ (h.taken hx)
    projections := fun p hp => hchain (h.projections p hp)
    filters := fun k hk => hchain (h.filters k hk)
    having := fun k hk => hchain (h.having k hk)
    grouping := fun k hk => hchain (h.grouping k hk) }

end InStep

/-! Every step keeps a statement in step. -/

theorem Accepts.inStep (h : s.Accepts e t a) (hs : s.InStep) : t.InStep :=
  hs.extend h.frame.1 h.extendAll

theorem Step.inStep {Ok : Expr → Prop} {OkView : View → Prop} (h : Step Ok OkView s u)
    (hs : s.InStep) : u.InStep := by
  cases h with
  | source mark hv hw hj ha => exact hs.listing ha mark none
  | @join t i k j l a pool e mark hv hl ha h =>
      have hextended : InStep { s with sources := t.sources } := hs.extend rfl h.extendAll
      rw [h.frame.1]
      exact hextended.listing ha mark (some e)
  | clause he h hu => exact (h.inStep hs).adds hu

end Select

/-- A view that is a statement is in step. -/
def View.InStep : View → Prop
  | .select _ q => q.InStep
  | _ => True

namespace Select

variable {s t : Select} {c c' : Catalog}

/-- What calls make of an empty statement, and what is inside it. The statements inside what a call is
given have been made the same way. A failed call leaves the statement as it was. -/
inductive Formed : Select → Prop
  | empty (i : Nat) : Formed (Select.empty i)
  | call {s : Select} {k : Call} (h : s.Formed) (hk : ∀ i q, .select i q ∈ k.inside → q.Formed)
      (c : Catalog) : Formed (k.attempt c s)
  | require {s u : Select} {e : Expr} {c c' : Catalog} {added : List View} (h : s.Formed)
      (he : ∀ i q, .select i q ∈ e.inside → q.Formed)
      (hrun : s.require e c = .ok ((u, added), c')) : Formed u
  | inside {s q : Select} {i : Nat} (h : s.Formed) (hq : .select i q ∈ s.inside) : q.Formed

/-- A call that is given no statement. -/
theorem Formed.plainCall {k : Call} (h : s.Formed) (hk : k.inside.all (fun v => !v.isStatement) = true)
    (c : Catalog) : (k.attempt c s).Formed :=
  h.call (fun _ _ hq => nomatch List.all_eq_true.mp hk _ hq) c

theorem Formed.addTable (h : s.Formed) (t : Table) (c : Catalog) :
    ((Call.addSource (.table t)).attempt c s).Formed :=
  h.plainCall (k := .addSource (.table t)) rfl c

end Select

/-! What every step keeps holds of all statements that calls make, and of all statements inside them. -/

/-- A view of which a predicate on statements holds if it is a statement. -/
def View.OfSelect (P : Select → Prop) : View → Prop
  | .select _ q => P q
  | _ => True

section

variable {P : Select → Prop}

theorem View.Throughout.copy {v w : View} {c c' : Catalog} (hv : v.Throughout (View.OfSelect P))
    (h : Build.copyView v c = .ok (w, c')) : w.Throughout (View.OfSelect P) := by
  cases v with
  | table t =>
      obtain ⟨rfl, -⟩ := Prod.mk.inj (Except.ok.inj h)
      exact throughout_table.mpr trivial
  | concrete m =>
      obtain ⟨rfl, -⟩ := Prod.mk.inj (Build.pure_eq_ok.mp h)
      exact hv
  | join i j =>
      obtain ⟨rfl, -⟩ := Prod.mk.inj (Build.pure_eq_ok.mp h)
      exact hv
  | select i q =>
      obtain ⟨rfl, -⟩ := Prod.mk.inj (Build.pure_eq_ok.mp h)
      exact hv

namespace Select

theorem Step.weaken {Ok : Expr → Prop} {OkView : View → Prop} {s t : Select} (h : Step Ok OkView s t) :
    Step (fun _ => True) (fun _ => True) s t := by
  cases h with
  | source mark hv hw hj ha => exact .source mark trivial hw hj ha
  | @join t i k j l a pool e mark hv hl ha h => exact .join (i := i) mark trivial hl ha h
  | clause he h hu => exact .clause trivial h hu

/-- What a nested statement does for the statement around it is a step of its own. -/
theorem Provides.step {q r : Select} {e d : Expr} {name : Option String} {OkView : View → Prop}
    (h : q.Provides e r name d) : Step (fun _ => True) OkView q r := by
  cases h with
  | reused h hp => exact .clause trivial h .known
  | added h hp hl => exact .clause trivial h (.projection hl)

variable {s : Select} (hempty : ∀ i, P (Select.empty i))
  (hstep : ∀ {s t : Select}, Step (fun _ => True) (fun _ => True) s t → P s → P t)
include hstep

theorem lasting_ofSelect : Lasting (View.OfSelect P) where
  join := fun _ _ => trivial
  select := fun hq hp => hstep hp.step hq

theorem throughout_attempt {k : Call} (hs : P s ∧ s.Throughout (View.OfSelect P))
    (hk : k.Throughout (View.OfSelect P)) (c : Catalog) :
    P (k.attempt c s) ∧ (k.attempt c s).Throughout (View.OfSelect P) := by
  have hlasting := lasting_ofSelect hstep
  have hfits : k.Fits (Expr.Throughout (View.OfSelect P)) (View.Throughout (View.OfSelect P)) :=
    hk.fits hlasting (fun v hv => by subst hv; exact hk) (fun hv => hv)
  refine Call.attempt_induction (P := fun s => P s ∧ s.Throughout (View.OfSelect P))
    (fun _ he _ => he.unwrap) (fun h hs => ?_) hfits c hs
  exact ⟨hstep h.weaken hs.1, h.throughout hlasting (fun hv _ hw => hv.copy hw) (fun hv => hv) hs.2⟩

omit hstep in
theorem throughout_ofSelect {views : List View}
    (h : ∀ i q, .select i q ∈ views → P q ∧ q.Throughout (View.OfSelect P)) :
    ∀ v ∈ views, View.OfSelect P v := by
  intro v hv
  cases v with
  | table t => trivial
  | concrete m => trivial
  | join i j => trivial
  | select i q => exact (h i q hv).1

include hempty

theorem Formed.induction (h : s.Formed) : P s ∧ s.Throughout (View.OfSelect P) := by
  induction h with
  | empty i => exact ⟨hempty i, .empty i⟩
  | call h hk c ih ihk => exact throughout_attempt hstep ih (throughout_ofSelect ihk) c
  | require h he hrun ih ihe =>
      have hviews := Expr.Throughout.views (throughout_ofSelect ihe)
      refine requireViews_induction (P := fun t _ => P t ∧ t.Throughout (View.OfSelect P))
        (fun hv hadd ht => ?_) hrun ih
      exact Call.attempt_eq (k := .addSource _) hadd ▸
        throughout_attempt hstep (k := .addSource _) ht (hviews _ hv) _
  | inside h hq ih =>
      exact ⟨ih.2 _ hq, fun v hv => ih.2 v (inside_trans (List.mem_cons_of_mem _ hv) hq)⟩

end Select

end

namespace Select

variable {s : Select}

/-- A statement is in step, and so is every statement inside. -/
def AllInStep (s : Select) : Prop := s.InStep ∧ s.Throughout View.InStep

theorem Formed.allInStep (h : s.Formed) : s.AllInStep := by
  obtain ⟨hself, hinside⟩ := h.induction InStep.empty Step.inStep
  refine ⟨hself, fun v hv => ?_⟩
  cases v with
  | select i q => exact hinside _ hv
  | table t => trivial
  | concrete m => trivial
  | join i j => trivial

/-- The FROM list and the scope are in step in every statement that calls make, and in every statement
inside it. -/
theorem Formed.sources_in_step (h : s.Formed) : s.InStep ∧ ∀ i q, .select i q ∈ s.inside → q.InStep :=
  ⟨h.allInStep.1, fun _ _ hq => h.allInStep.2 _ hq⟩

/-- A statement over one that calls make is made by calls. -/
theorem Formed.over (h : s.Formed) : s.over.Formed := by
  refine .call (.empty 1) (k := .addSource (.select 7 s)) (fun i q hq => ?_) {}
  rcases List.mem_cons.mp hq with heq | hq
  · obtain ⟨-, rfl⟩ := View.select.inj heq
    exact h
  · exact h.inside hq

theorem peopleNames_formed : peopleNames.Formed :=
  ((Formed.empty 0).addTable people {}).plainCall (k := .project (.ofPeople "name")) rfl {}

theorem wealthyNames_formed : wealthyNames.Formed :=
  peopleNames_formed.over.plainCall (k := .filter (.revenueAbove 1000)) rfl {}

/-- The nested statement has two projections, of which the second one was made for the predicate. -/
theorem wealthyNames_inStep : wealthyNames.InStep ∧ ∃ i q, .select i q ∈ wealthyNames.inside
    ∧ q.projections.length = 2 ∧ q.InStep := by
  have hshown : (wealthyNames.sources.head?.bind fun src => src.view.statement?).map
      (·.projections.length) = some 2 := by decide +kernel
  obtain ⟨hself, hinside⟩ := wealthyNames_formed.sources_in_step
  obtain ⟨q, hq, hlength⟩ := Option.map_eq_some_iff.mp hshown
  obtain ⟨src, hsrc, hq⟩ := Option.bind_eq_some_iff.mp hq
  obtain ⟨i, hi⟩ := View.mem_inside_of_statement? hq
  have hmem : .select i q ∈ wealthyNames.inside :=
    mem_inside.mpr (.inl ⟨src, List.mem_of_mem_head? hsrc, .inl hi⟩)
  exact ⟨hself, i, q, hmem, hlength, hinside i q hmem⟩

end Select

end SqlCompose
