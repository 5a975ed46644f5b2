import SqlCompose.Proofs.Ingredients
import SqlCompose.Proofs.Parallel
import SqlCompose.Proofs.Registries

/-!
The handles of tables. A handle names a slot of the catalogue, and a new table takes the slot behind all
others. Calls rearrange the parts they are given, and add the copies of tables that they make: if all slots
in what they are given are taken, so are all slots in the statement. Printing reads these registries and no
others.
-/

namespace SqlCompose

mutual

/-- A catalogue with so many registries holds all tables in an expression. -/
inductive Expr.Held (n : Nat) : Expr → Prop
  | literal (v : Literal) : Expr.Held n (.literal v)
  | apply (op : Operator) {args : List Expr} (h : ∀ e ∈ args, Expr.Held n e) :
      Expr.Held n (.apply op args)
  | column {col : Column} (h : col.table.slot < n) : Expr.Held n (.column col)
  | star {v : View} (h : View.Held n v) : Expr.Held n (.star v)
  | projected {v : View} (x : Option String) {d : Expr} (hv : View.Held n v) (hd : Expr.Held n d) :
      Expr.Held n (.projected v x d)
  | view {v : View} (h : View.Held n v) : Expr.Held n (.view v)
  | pinned {e : Expr} {v : View} (h : Expr.Held n e) (hv : View.Held n v) : Expr.Held n (.pinned e v)
  | within (sc : Scope) {e : Expr} (h : Expr.Held n e) : Expr.Held n (.within sc e)

/-- A catalogue with so many registries holds all tables behind a view. -/
inductive View.Held (n : Nat) : View → Prop
  | table {t : Table} (h : t.slot < n) : View.Held n (.table t)
  | concrete {m : Table} (h : m.slot < n) : View.Held n (.concrete m)
  | join (i : Nat) {j : Join} (hs : View.Held n j.source) (ht : View.Held n j.target)
      (hp : Expr.Held n j.predicate) : View.Held n (.join i j)
  | select (i : Nat) {q : Select} (h : Select.Held n q) : View.Held n (.select i q)

/-- A catalogue with so many registries holds all tables in the sources, the clauses and the scope of a
statement. -/
inductive Select.Held (n : Nat) : Select → Prop
  | mk {s : Select} (views : ∀ src ∈ s.sources, View.Held n src.view)
      (clauses : ∀ k ∈ s.clauses, Expr.Held n k.expr) (scope : ∀ m ∈ s.scope, View.Held n m.view) :
      Select.Held n s

end

/-- A catalogue with so many registries holds all tables that a call is given. -/
def Call.Held (n : Nat) : Call → Prop
  | addSource v => v.Held n
  | join target p => target.Held n ∧ p.Held n
  | project e => e.Held n
  | projectAs e _ => e.Held n
  | filter e => e.Held n
  | filterGroups e => e.Held n
  | groupBy e => e.Held n
  | groupByAll es => ∀ e ∈ es, e.Held n

/-- What successful calls on the tables of a catalogue make of an empty statement, while the catalogue
grows. -/
inductive Select.ReachedIn : Select → Catalog → Prop
  | empty (i : Nat) (c : Catalog) : Select.ReachedIn (Select.empty i) c
  | later {s : Select} {c c' : Catalog} (h : s.ReachedIn c)
      (hc : c.registries.size ≤ c'.registries.size) : Select.ReachedIn s c'
  | call {s u : Select} {c c' : Catalog} {k : Call} (h : s.ReachedIn c) (hk : k.Held c.registries.size)
      (hrun : k.run s c = .ok (u, c')) : Select.ReachedIn u c'
  | require {s u : Select} {c c' : Catalog} {e : Expr} {added : List View} (h : s.ReachedIn c)
      (he : e.Held c.registries.size) (hrun : s.require e c = .ok ((u, added), c')) :
      Select.ReachedIn u c'

variable {n m : Nat}

namespace Select.Held

variable {s : Select}

theorem views (h : s.Held n) : ∀ src ∈ s.sources, src.view.Held n := by
  cases h with
  | mk views clauses scope => exact views

theorem clauses (h : s.Held n) : ∀ k ∈ s.clauses, k.expr.Held n := by
  cases h with
  | mk views clauses scope => exact clauses

end Select.Held

/-! A catalogue holds all tables in a part if it holds all tables among the views inside the part. -/

/-- A catalogue with so many registries holds a view, if that is a table. -/
def View.HeldTable (n : Nat) : View → Prop
  | table t => t.slot < n
  | concrete m => m.slot < n
  | join .. => True
  | select .. => True

theorem View.lasting_heldTable : Lasting (View.HeldTable n) := ⟨fun _ _ => trivial, fun _ _ => trivial⟩

theorem View.HeldTable.mono (hn : n ≤ m) : ∀ {v : View}, v.HeldTable n → v.HeldTable m
  | .table _, h => Nat.lt_of_lt_of_le h hn
  | .concrete _, h => Nat.lt_of_lt_of_le h hn
  | .join .., _ => trivial
  | .select .., _ => trivial

mutual

theorem Expr.Held.throughout : ∀ {e : Expr}, e.Held n → e.Throughout (View.HeldTable n)
  | _, .literal v => Expr.throughout_literal v
  | _, .apply _ h => Expr.throughout_apply.mpr fun e he => (h e he).throughout
  | _, .column h => Expr.throughout_column.mpr h
  | _, .star h => h.throughout
  | _, .projected _ hv hd => Expr.throughout_projected.mpr ⟨hv.throughout, hd.throughout⟩
  | _, .view h => h.throughout
  | _, .pinned h hv => Expr.throughout_pinned.mpr ⟨h.throughout, hv.throughout⟩
  | _, .within _ h => h.throughout

theorem View.Held.throughout : ∀ {v : View}, v.Held n → v.Throughout (View.HeldTable n)
  | _, .table h => View.throughout_table.mpr h
  | _, .concrete h => View.throughout_concrete.mpr h
  | _, .join _ hs ht hp => View.throughout_join.mpr ⟨trivial, hs.throughout, ht.throughout, hp.throughout⟩
  | _, .select _ h => View.throughout_select.mpr ⟨trivial, h.throughout⟩

theorem Select.Held.throughout : ∀ {s : Select}, s.Held n → s.Throughout (View.HeldTable n)
  | _, .mk views clauses scope => Select.throughout_of_clauses (fun src hsrc => (views src hsrc).throughout)
      (fun k hk => (clauses k hk).throughout) fun m hm => (scope m hm).throughout

end

mutual

theorem Expr.held_of_throughout : ∀ {e : Expr}, e.Throughout (View.HeldTable n) → e.Held n
  | .literal v, _ => .literal v
  | .apply op _, h => .apply op (Expr.heldAll_of_throughout (Expr.throughout_apply.mp h))
  | .column _, h => .column (Expr.throughout_column.mp h)
  | .star _, h => .star (View.held_of_throughout h)
  | .projected _ x _, h =>
      .projected x (View.held_of_throughout (Expr.throughout_projected.mp h).1)
        (Expr.held_of_throughout (Expr.throughout_projected.mp h).2)
  | .view _, h => .view (View.held_of_throughout h)
  | .pinned _ _, h =>
      .pinned (Expr.held_of_throughout (Expr.throughout_pinned.mp h).1)
        (View.held_of_throughout (Expr.throughout_pinned.mp h).2)
  | .within sc e, h => .within sc (Expr.held_of_throughout (e := e) h)

theorem Expr.heldAll_of_throughout : ∀ {es : List Expr}, (∀ e ∈ es, e.Throughout (View.HeldTable n)) →
    ∀ e ∈ es, e.Held n
  | [], _ => fun _ h => nomatch h
  | _ :: _, h => by
      rw [List.forall_mem_cons] at h ⊢
      exact ⟨Expr.held_of_throughout h.1, Expr.heldAll_of_throughout h.2⟩

theorem View.held_of_throughout : ∀ {v : View}, v.Throughout (View.HeldTable n) → v.Held n
  | .table _, h => .table (View.throughout_table.mp h)
  | .concrete _, h => .concrete (View.throughout_concrete.mp h)
  | .join i ⟨_, _, _, _⟩, h => by
      obtain ⟨-, hs, ht, hp⟩ := View.throughout_join.mp h
      exact .join i (View.held_of_throughout hs) (View.held_of_throughout ht)
        (Expr.held_of_throughout hp)
  | .select i _, h => .select i (Select.held_of_throughout (View.throughout_select.mp h).2)

theorem Select.held_of_throughout : ∀ {s : Select}, s.Throughout (View.HeldTable n) → s.Held n
  | ⟨i, f, p, w, v, g, pool, sc⟩, h => by
      obtain ⟨hf, hp, hw, hv, hg, hsc⟩ := Select.throughout_iff.mp h
      have hsources := Source.heldAll_of_throughout hf
      refine .mk (fun src hsrc => (hsources src hsrc).1) (fun k hk => ?_) (Mapping.heldAll_of_throughout hsc)
      rcases Select.mem_clauses.mp hk with ⟨x, hx, rfl⟩ | ⟨src, hsrc, e, he, rfl⟩ | hk | hk | hk
      · exact Projection.heldAll_of_throughout hp x hx
      · exact (hsources src hsrc).2 e he
      · exact Condition.heldAll_of_throughout hw k hk
      · exact Condition.heldAll_of_throughout hg k hk
      · exact Condition.heldAll_of_throughout hv k hk

theorem Source.heldAll_of_throughout : ∀ {f : List Source},
    (∀ src ∈ f, src.view.Throughout (View.HeldTable n) ∧
      ∀ e, src.on = some e → e.Throughout (View.HeldTable n)) →
        ∀ src ∈ f, src.view.Held n ∧ ∀ e, src.on = some e → e.Held n
  | [], _ => fun _ h => nomatch h
  | ⟨v, _, _, none⟩ :: f, h => by
      rw [List.forall_mem_cons] at h ⊢
      exact ⟨⟨View.held_of_throughout (v := v) h.1.1, fun _ he => nomatch he⟩,
        Source.heldAll_of_throughout h.2⟩
  | ⟨v, _, _, some b⟩ :: f, h => by
      rw [List.forall_mem_cons] at h ⊢
      have hon : b.Held n := Expr.held_of_throughout (h.1.2 b rfl)
      exact ⟨⟨View.held_of_throughout (v := v) h.1.1, fun _ he => Option.some.inj he ▸ hon⟩,
        Source.heldAll_of_throughout h.2⟩

theorem Projection.heldAll_of_throughout : ∀ {ps : List Projection},
    (∀ p ∈ ps, p.definition.Throughout (View.HeldTable n)) → ∀ p ∈ ps, p.definition.Held n
  | [], _ => fun _ h => nomatch h
  | ⟨e, _, _⟩ :: _, h => by
      rw [List.forall_mem_cons] at h ⊢
      exact ⟨Expr.held_of_throughout (e := e) h.1, Projection.heldAll_of_throughout h.2⟩

theorem Condition.heldAll_of_throughout : ∀ {cs : List Condition},
    (∀ k ∈ cs, k.expr.Throughout (View.HeldTable n)) → ∀ k ∈ cs, k.expr.Held n
  | [], _ => fun _ h => nomatch h
  | ⟨e, _⟩ :: _, h => by
      rw [List.forall_mem_cons] at h ⊢
      exact ⟨Expr.held_of_throughout (e := e) h.1, Condition.heldAll_of_throughout h.2⟩

theorem Mapping.heldAll_of_throughout : ∀ {sc : List Mapping},
    (∀ m ∈ sc, m.view.Throughout (View.HeldTable n)) → ∀ m ∈ sc, m.view.Held n
  | [], _ => fun _ h => nomatch h
  | ⟨_, v, _⟩ :: _, h => by
      rw [List.forall_mem_cons] at h ⊢
      exact ⟨View.held_of_throughout (v := v) h.1, Mapping.heldAll_of_throughout h.2⟩

end

/-! Calls. -/

namespace Select

variable {s u : Select} {c c' : Catalog}

/-- A copy of a table has the next slot. -/
theorem copyView_held {v w : View} (hv : v.Throughout (View.HeldTable c.registries.size))
    (h : Build.copyView v c = .ok (w, c')) : w.Throughout (View.HeldTable c'.registries.size) := by
  cases v with
  | table t =>
      obtain ⟨rfl, rfl⟩ := Prod.mk.inj (Except.ok.inj h)
      refine View.throughout_table.mpr ?_
      show c.registries.size < (c.registries.push (c.registry t)).size
      rw [Array.size_push]
      exact Nat.lt_succ_self _
  | concrete t =>
      obtain ⟨rfl, rfl⟩ := Prod.mk.inj (Build.pure_eq_ok.mp h)
      exact hv
  | select i q =>
      obtain ⟨rfl, rfl⟩ := Prod.mk.inj (Build.pure_eq_ok.mp h)
      exact hv
  | join i j =>
      obtain ⟨rfl, rfl⟩ := Prod.mk.inj (Build.pure_eq_ok.mp h)
      exact hv

theorem addSource_held {v : View} (hs : s.Throughout (View.HeldTable c.registries.size))
    (hv : v.Throughout (View.HeldTable c.registries.size)) (hj : v.isJoin = false)
    (h : s.addSource v c = .ok (u, c')) : u.Throughout (View.HeldTable c'.registries.size) := by
  have hsize : c.registries.size ≤ c'.registries.size := (addSource_adding s v h).length_le
  have hplace := Build.rejecting_eq_ok.mp h
  rw [place_eq_ok hj] at hplace
  obtain ⟨w, c₁, hw, h₁⟩ := Build.bind_eq_ok.mp hplace
  have hview : w.Throughout (View.HeldTable c'.registries.size) := by
    rw [registerNamed_quiet s w none h₁]
    exact copyView_held hv hw
  have hbefore : s.Throughout (View.HeldTable c'.registries.size) := fun w hw => (hs w hw).mono hsize
  obtain ⟨mark, a, pool, -, rfl⟩ := registerNamed_eq_ok h₁
  exact (hbefore.entered hview _).listing hview fun _ he => nomatch he

end Select

namespace Call

variable {s u : Select} {c c' : Catalog}

theorem Held.throughout : ∀ {k : Call}, k.Held n → k.Throughout (View.HeldTable n)
  | addSource _, h => View.Held.throughout h
  | join _ _, h => List.forall_mem_append.mpr ⟨h.1.throughout, h.2.throughout⟩
  | project _, h => Expr.Held.throughout h
  | projectAs _ _, h => Expr.Held.throughout h
  | filter _, h => Expr.Held.throughout h
  | filterGroups _, h => Expr.Held.throughout h
  | groupBy _, h => Expr.Held.throughout h
  | groupByAll _, h => fun v hv => by
      obtain ⟨e, he, hv⟩ := Expr.mem_insideAll.mp hv
      exact (h e he).throughout v hv

/-- A call only adds registries to the catalogue. -/
theorem run_adding (s : Select) : ∀ k : Call, (k.run s).Adding
  | addSource v => Select.addSource_adding s v
  | join _ _ => .bind (Build.Quiet.lift _).adding fun j =>
      .bind (Build.Quiet.joinView j).adding fun v => Select.addSource_adding s v
  | project e => (Build.Quiet.rejecting (Select.addProjection_quiet s e _ _)).adding
  | projectAs e _ => (Build.Quiet.rejecting (Select.addProjection_quiet s e _ _)).adding
  | filter e => (Select.filter_quiet s e).adding
  | filterGroups e => (Select.filterGroups_quiet s e).adding
  | groupBy e => (Select.groupBy_quiet s e).adding
  | groupByAll es => (Select.groupByAll_quiet es s).adding

/-- The statement after a call has its tables in the catalogue after the call. -/
theorem run_held {k : Call} (hs : s.Throughout (View.HeldTable c.registries.size))
    (hk : k.Throughout (View.HeldTable c.registries.size)) (h : k.run s c = .ok (u, c')) :
    u.Throughout (View.HeldTable c'.registries.size) := by
  by_cases hplain : ∀ v, k = addSource v → v.isJoin = true
  · have hsize : c.registries.size ≤ c'.registries.size := (run_adding s k h).length_le
    -- No table is copied, so what is held after each step is what was held before.
    have hfits : k.Fits (Expr.Throughout (View.HeldTable c.registries.size))
        fun v => v.isJoin = true ∧ v.Throughout (View.HeldTable c.registries.size) :=
      hk.fits View.lasting_heldTable (fun v hv => ⟨hplain v hv, by subst hv; exact hk⟩)
        fun hjoin => ⟨rfl, hjoin⟩
    have hafter : u.Throughout (View.HeldTable c.registries.size) := by
      have hsteps := steps (fun _ he _ => he.unwrap) hfits h
      clear h
      induction hsteps with
      | refl => exact hs
      | tail _ hstep ih =>
          refine hstep.throughout View.lasting_heldTable (fun hv hj _ => ?_) (fun hv => hv.2) ih
          rw [hj] at hv
          cases hv.1
    exact fun v hv => (hafter v hv).mono hsize
  · simp only [not_forall] at hplain
    obtain ⟨v, rfl, hj⟩ := hplain
    exact Select.addSource_held hs hk (by simpa using hj) h

end Call

namespace Select

/-- What adding one of the views keeps, requiring the views keeps. -/
theorem requireViews_induction {P : Select → Catalog → Prop} : ∀ {vs added : List View} {s u : Select}
    {c c' : Catalog}, (∀ {s t : Select} {c c' : Catalog} {v : View}, v ∈ vs →
      s.addSource v c = .ok (t, c') → P s c → P t c') →
    s.requireViews vs c = .ok ((u, added), c') → P s c → P u c'
  | [], _, _, _, _, _, _, h, hs => by
      simp only [requireViews, Build.pure_eq_ok, Prod.mk.injEq] at h
      obtain ⟨⟨rfl, -⟩, rfl⟩ := h
      exact hs
  | v :: vs, _, s, _, c, _, hstep, h, hs => by
      obtain ⟨⟨t, b⟩, c₁, ht, h₁⟩ := Build.bind_eq_ok.mp h
      obtain ⟨⟨w, more⟩, c₂, hw, h₂⟩ := Build.bind_eq_ok.mp h₁
      simp only [Build.pure_eq_ok, Prod.mk.injEq] at h₂
      obtain ⟨⟨rfl, -⟩, rfl⟩ := h₂
      have hfirst : P t c₁ := by
        rw [requireView] at ht
        split at ht
        · obtain ⟨⟨rfl, -⟩, rfl⟩ := by simpa only [Except.ok.injEq, Prod.mk.injEq] using ht
          exact hs
        · split at ht
          case h_1 t' c' hadd =>
              obtain ⟨⟨rfl, -⟩, rfl⟩ := by simpa only [Except.ok.injEq, Prod.mk.injEq] using ht
              exact hstep List.mem_cons_self hadd hs
          case h_2 =>
              obtain ⟨⟨rfl, -⟩, rfl⟩ := by simpa only [Except.ok.injEq, Prod.mk.injEq] using ht
              exact hs
      exact requireViews_induction (fun hv => hstep (List.mem_cons_of_mem v hv)) hw hfirst

/-- The statements that calls reach in a catalogue are among those that calls can reach. -/
theorem ReachedIn.reached {s : Select} {c : Catalog} (h : s.ReachedIn c) : s.Reached := by
  induction h with
  | empty i c => exact .empty i
  | later h hc ih => exact ih
  | call h hk hrun ih => exact Call.attempt_eq hrun ▸ .call ih _ _
  | require h he hrun ih =>
      exact requireViews_induction (P := fun t _ => t.Reached)
        (fun {s t c c' v} _ hadd hs => Call.attempt_eq (k := .addSource v) hadd ▸ .call hs _ _) hrun ih

/-- Every table in a statement has its registry. -/
theorem ReachedIn.held {s : Select} {c : Catalog} (h : s.ReachedIn c) : s.Held c.registries.size := by
  refine Select.held_of_throughout ?_
  induction h with
  | empty i c => exact .empty i
  | later h hc ih => exact fun v hv => (ih v hv).mono hc
  | call h hk hrun ih => exact Call.run_held ih hk.throughout hrun
  | @require s u c c' e added h he hrun ih =>
      have hviews := he.throughout.views
      have hrequired := requireViews_induction
        (P := fun t d => t.Throughout (View.HeldTable d.registries.size) ∧
          c.registries.size ≤ d.registries.size)
        (fun {s t d d' v} hv hadd hs => ?_) hrun ⟨ih, Nat.le_refl _⟩
      · exact hrequired.1
      · have hv : v.Throughout (View.HeldTable d.registries.size) := fun w hw => (hviews v hv w hw).mono hs.2
        exact ⟨Call.run_held (k := .addSource v) hs.1 hv hadd,
          Nat.le_trans hs.2 (addSource_adding s v hadd).length_le⟩

end Select

/-! Printing reads the registries of the tables behind values, and no others. -/

/-- A catalogue gives the tables of another one the same registries. -/
def Catalog.Agrees (c c' : Catalog) : Prop :=
  ∀ t : Table, t.slot < c.registries.size → c'.registry t = c.registry t

theorem Catalog.agrees_of_prefix {c c' : Catalog} (h : c.registries.toList <+: c'.registries.toList) :
    c.Agrees c' := by
  intro t ht
  obtain ⟨more, hmore⟩ := h
  have hslot : c'.registries[t.slot]? = c.registries[t.slot]? := by
    rw [← Array.getElem?_toList, ← Array.getElem?_toList, ← hmore, List.getElem?_append_left ht]
  rw [registry, registry, hslot]

namespace Select.Held

variable {s : Select}

theorem definitions (h : s.Held n) : ∀ p ∈ s.projections, p.definition.Held n :=
  fun p hp => h.clauses ⟨p.definition, p.scope⟩ (mem_clauses.mpr (Or.inl ⟨p, hp, rfl⟩))

theorem filters (h : s.Held n) : ∀ k ∈ s.filters, k.expr.Held n :=
  fun k hk => h.clauses k (mem_clauses.mpr (Or.inr (Or.inr (Or.inl hk))))

theorem grouping (h : s.Held n) : ∀ k ∈ s.grouping, k.expr.Held n :=
  fun k hk => h.clauses k (mem_clauses.mpr (Or.inr (Or.inr (Or.inr (Or.inl hk)))))

theorem having (h : s.Held n) : ∀ k ∈ s.having, k.expr.Held n :=
  fun k hk => h.clauses k (mem_clauses.mpr (Or.inr (Or.inr (Or.inr (Or.inr hk)))))

end Select.Held

section

variable {c c' : Catalog}

theorem View.selectors_congr (hc : c.Agrees c') : ∀ {v : View}, v.Held c.registries.size →
    v.selectors c' = v.selectors c
  | .table t, .table h => by rw [selectors, selectors, Catalog.columns, Catalog.columns, hc t h]
  | .concrete m, .concrete h => by rw [selectors, selectors, Catalog.columns, Catalog.columns, hc m h]
  | .join _ ⟨_, _, t, _⟩, .join _ _ ht _ => selectors_congr (v := t) hc ht
  | .select _ _, _ => rfl

theorem Expr.pieces_congr (hc : c.Agrees c') {e : Expr} (h : e.Held c.registries.size) (s : Scope) :
    e.pieces c' s = e.pieces c s := by
  refine Expr.pieces_of_selectors fun r hr src hsrc => View.selectors_congr hc ?_
  obtain ⟨-, i, hi⟩ := Expr.mem_listings hr
  have hinside : r.Throughout (View.HeldTable c.registries.size) :=
    fun v hv => h.throughout v (Expr.inside_trans (List.mem_cons_of_mem _ hv) hi)
  exact (Select.held_of_throughout hinside).views src hsrc

theorem Projection.piecesAll_congr (hc : c.Agrees c') {ps : List Projection}
    (h : ∀ p ∈ ps, p.definition.Held c.registries.size) :
    Projection.piecesAll c' ps = Projection.piecesAll c ps := by
  rw [piecesAll_eq_map, piecesAll_eq_map]
  exact List.map_congr_left fun p hp => by rw [Expr.pieces_congr hc (h p hp)]

theorem Condition.piecesAll_congr (hc : c.Agrees c') {cs : List Condition}
    (h : ∀ k ∈ cs, k.expr.Held c.registries.size) :
    Condition.piecesAll c' cs = Condition.piecesAll c cs := by
  rw [piecesAll_eq_map, piecesAll_eq_map]
  exact List.map_congr_left fun k hk => by rw [Expr.pieces_congr hc (h k hk)]

end

end SqlCompose
