import SqlCompose.Proofs.Composed
import SqlCompose.Proofs.Inside

/-!
What a statement is made of. Calls rearrange the parts they are given, make joins of them, and put nested
statements that project more in the place of those before. What is true of every join, and stays true of a
nested statement that projects more, holds throughout a statement after a call if it holds throughout the
statement before and throughout what the call is given.
-/

namespace SqlCompose

variable {P : View → Prop}

/-! The views that a view stands for, and the statement behind it. -/

theorem View.mem_inside_of_statement? : ∀ {v : View} {q : Select}, v.statement? = some q →
    ∃ i, .select i q ∈ v.inside
  | .table _, _, hq => nomatch hq
  | .concrete _, _, hq => nomatch hq
  | .select i _, _, hq => ⟨i, Option.some.inj hq ▸ List.mem_cons_self⟩
  | .join _ ⟨_, _, t, _⟩, _, hq => by
      obtain ⟨i, hi⟩ := mem_inside_of_statement? (v := t) hq
      exact ⟨i, List.mem_cons_of_mem _ (List.mem_append_left _ (List.mem_append_right _ hi))⟩

namespace View.Throughout

theorem views {v : View} (h : v.Throughout P) : ∀ w ∈ v.views.views, w.Throughout P := by
  cases v with
  | table t => exact List.forall_mem_singleton.mpr h
  | concrete m => exact List.forall_mem_singleton.mpr h
  | join i j =>
      intro w hw
      rcases ViewSet.mem_insert hw with hw | rfl
      · exact List.mem_singleton.mp hw ▸ (throughout_join.mp h).2.1
      · exact h
  | select i q =>
      intro w hw
      obtain ⟨src, hsrc, rfl⟩ := Select.mem_views hw
      exact ((Select.throughout_iff.mp (throughout_select.mp h).2).1 src hsrc).1

theorem statement {v : View} {q : Select} (h : v.Throughout P) (hq : v.statement? = some q) :
    ∃ i, (View.select i q).Throughout P := by
  obtain ⟨i, hi⟩ := mem_inside_of_statement? hq
  exact ⟨i, fun w hw => h w (inside_trans hw hi)⟩

end View.Throughout

/-! Rearranging the parts of an expression. -/

namespace Expr.Throughout

variable {e leaf : Expr} {v w : View}

theorem unpinned (h : leaf.Throughout P) : leaf.unpinned.Throughout P := by
  cases leaf with
  | pinned e v => exact (throughout_pinned.mp h).1
  | literal v => exact h
  | apply op args => exact h
  | column c => exact h
  | star v => exact h
  | projected v n d => exact h
  | view v => exact h
  | within sc e => exact h

theorem pinLeaf (h : leaf.Throughout P) (hv : v.Throughout P) : (leaf.pinLeaf v).Throughout P :=
  throughout_pinned.mpr ⟨h.unpinned, hv⟩

theorem attachLeaf (h : leaf.Throughout P) (hv : v.Throughout P) (w : View) :
    (Join.attachLeaf v w leaf).Throughout P := by
  rw [Join.attachLeaf.eq_def]
  split
  · exact h
  · exact h
  · split
    · exact h.pinLeaf hv
    · exact h

theorem moveLeaf (h : leaf.Throughout P) (hv : v.Throughout P) : (Join.moveLeaf v leaf).Throughout P := by
  rw [Join.moveLeaf.eq_def]
  split
  · exact throughout_pinned.mpr ⟨(throughout_pinned.mp h).1, hv⟩
  · exact h

theorem settleLeaf (h : leaf.Throughout P) (hv : v.Throughout P) (hw : w.Throughout P) :
    (Join.settleLeaf v w leaf).Throughout P := by
  rw [Join.settleLeaf.eq_def]
  split
  · exact throughout_pinned.mpr ⟨(throughout_pinned.mp h).1, hv⟩
  · exact h.pinLeaf hw

mutual

theorem mapLeaves {f : Expr → Expr} (hf : ∀ leaf : Expr, leaf.Throughout P → (f leaf).Throughout P) :
    ∀ {e : Expr}, e.Throughout P → (e.mapLeaves f).Throughout P
  | .literal _, h => h
  | .apply _ _, h => throughout_apply.mpr (mapLeavesAll hf (throughout_apply.mp h))
  | .column _, h => hf _ h
  | .star _, h => hf _ h
  | .projected _ _ _, h => hf _ h
  | .view _, h => h
  | .pinned _ _, h => hf _ h
  | .within _ e, h => mapLeaves (e := e) hf h

theorem mapLeavesAll {f : Expr → Expr} (hf : ∀ leaf : Expr, leaf.Throughout P → (f leaf).Throughout P) :
    ∀ {es : List Expr}, (∀ e ∈ es, e.Throughout P) → ∀ e ∈ Expr.mapLeavesAll f es, e.Throughout P
  | [], _ => fun _ h => nomatch h
  | _ :: _, h => by
      rw [List.forall_mem_cons] at h
      exact List.forall_mem_cons.mpr ⟨mapLeaves hf h.1, mapLeavesAll hf h.2⟩

end

mutual

theorem unwrap : ∀ {e : Expr}, e.Throughout P → e.unwrap.Throughout P
  | .literal _, h => h
  | .apply _ _, h => throughout_apply.mpr (unwrapAll (throughout_apply.mp h))
  | .column _, h => h
  | .star _, h => h
  | .projected _ _ _, h => (throughout_projected.mp h).2
  | .view (.table _), h => h
  | .view (.concrete _), h => h
  | .view (.join _ ⟨_, _, _, _⟩), h => (View.throughout_join.mp h).2.2.2
  | .view (.select _ _), h => h
  | .pinned _ _, h => h
  | .within _ _, h => h

theorem unwrapAll : ∀ {es : List Expr}, (∀ e ∈ es, e.Throughout P) →
    ∀ e ∈ Expr.unwrapAll es, e.Throughout P
  | [], _ => fun _ h => nomatch h
  | _ :: _, h => by
      rw [List.forall_mem_cons] at h
      exact List.forall_mem_cons.mpr ⟨unwrap h.1, unwrapAll h.2⟩

end

mutual

theorem views : ∀ {e : Expr}, e.Throughout P → ∀ v ∈ e.views.views, v.Throughout P
  | .literal _, _ => fun _ hv => nomatch hv
  | .apply _ _, h => viewsAll (throughout_apply.mp h) fun _ hv => nomatch hv
  | .column _, h => List.forall_mem_singleton.mpr (View.throughout_table.mpr (throughout_column.mp h))
  | .star _, h => List.forall_mem_singleton.mpr h
  | .projected _ _ _, h => List.forall_mem_singleton.mpr (throughout_projected.mp h).1
  | .view v, h => View.Throughout.views (v := v) h
  | .pinned _ _, h => List.forall_mem_singleton.mpr (throughout_pinned.mp h).2
  | .within _ e, h => views (e := e) h

theorem viewsAll : ∀ {es : List Expr} {s : ViewSet}, (∀ e ∈ es, e.Throughout P) →
    (∀ v ∈ s.views, v.Throughout P) → ∀ v ∈ (Expr.viewsAll es s).views, v.Throughout P
  | [], _, _, hs => hs
  | e :: es, s, h, hs => by
      rw [List.forall_mem_cons] at h
      rw [Expr.viewsAll]
      refine viewsAll h.2 fun v hv => ?_
      rcases ViewSet.mem_foldl_insert hv with hv | hv
      · exact hs v hv
      · exact views h.1 v hv

end

end Expr.Throughout

/-- A property that every join has, and that a nested statement keeps when it projects more. -/
structure Lasting (P : View → Prop) : Prop where
  join : ∀ (i : Nat) (j : Join), P (.join i j)
  select : ∀ {i k : Nat} {q r : Select} {e d : Expr} {name : Option String},
    P (.select i q) → q.Provides e r name d → P (.select k r)

theorem View.Throughout.withStatement (hP : Lasting P) : ∀ {v w : View} {r : Select} {c c' : Catalog},
    v.Throughout P → (∀ k, (View.select k r).Throughout P) → v.withStatement r c = .ok (w, c') →
      w.Throughout P
  | .table _, _, _, _, _, hv, _, h => by
      obtain ⟨rfl, -⟩ := Prod.mk.inj (Build.pure_eq_ok.mp h)
      exact hv
  | .concrete _, _, _, _, _, hv, _, h => by
      obtain ⟨rfl, -⟩ := Prod.mk.inj (Build.pure_eq_ok.mp h)
      exact hv
  | .select _ _, _, _, _, _, _, hr, h => by
      obtain ⟨rfl, -⟩ := Prod.mk.inj (Build.selectView_eq_ok.mp h)
      exact hr _
  | .join _ ⟨_, _, t, _⟩, _, _, _, _, hv, hr, h => by
      obtain ⟨-, hs, ht, hp⟩ := throughout_join.mp hv
      obtain ⟨u, c₁, hu, h₁⟩ := Build.bind_eq_ok.mp h
      obtain ⟨rfl, -⟩ := Prod.mk.inj (Build.joinView_eq_ok.mp h₁)
      exact throughout_join.mpr ⟨hP.join _ _, hs, withStatement (v := t) hP ht hr hu, hp⟩

namespace Select

variable {s t u : Select} {e a : Expr} {c c' : Catalog}

/-- What holds throughout the views and the ON expressions of the sources, the clauses and the scope,
listed by clauses. -/
theorem throughout_of_clauses (hviews : ∀ src ∈ s.sources, src.view.Throughout P)
    (hclauses : ∀ k ∈ s.clauses, k.expr.Throughout P) (hscope : ∀ m ∈ s.scope, m.view.Throughout P) :
    s.Throughout P := by
  refine throughout_iff.mpr ⟨fun src hsrc => ⟨hviews src hsrc, fun e he => ?_⟩, fun p hp => ?_,
    fun k hk => ?_, fun k hk => ?_, fun k hk => ?_, hscope⟩
  · exact hclauses ⟨e, src.scope⟩ (mem_clauses.mpr (.inr (.inl ⟨src, hsrc, e, he, rfl⟩)))
  · exact hclauses ⟨p.definition, p.scope⟩ (mem_clauses.mpr (.inl ⟨p, hp, rfl⟩))
  · exact hclauses k (mem_clauses.mpr (.inr (.inr (.inl hk))))
  · exact hclauses k (mem_clauses.mpr (.inr (.inr (.inr (.inr hk)))))
  · exact hclauses k (mem_clauses.mpr (.inr (.inr (.inr (.inl hk)))))

namespace Throughout

theorem views (h : s.Throughout P) : ∀ src ∈ s.sources, src.view.Throughout P :=
  fun src hsrc => ((throughout_iff.mp h).1 src hsrc).1

theorem scope (h : s.Throughout P) : ∀ m ∈ s.scope, m.view.Throughout P :=
  (throughout_iff.mp h).2.2.2.2.2

theorem clauses (h : s.Throughout P) : ∀ k ∈ s.clauses, k.expr.Throughout P := by
  obtain ⟨hf, hp, hw, hh, hg, -⟩ := throughout_iff.mp h
  intro k hk
  rcases mem_clauses.mp hk with ⟨p, hp', rfl⟩ | ⟨src, hsrc, e, he, rfl⟩ | hk | hk | hk
  · exact hp p hp'
  · exact (hf src hsrc).2 e he
  · exact hw k hk
  · exact hg k hk
  · exact hh k hk

theorem empty (i : Nat) : (Select.empty i).Throughout P := fun _ h => nomatch h

theorem acceptView {v : View} (hs : s.Throughout P) (hv : v.Throughout P)
    (h : s.acceptView v = .ok a) : a.Throughout P := by
  rcases acceptView_cases h with ⟨w, rfl, rfl | ⟨m, hm, rfl⟩⟩ | ⟨i, j, x, y, rfl, hx, hy, rfl⟩
  · exact hv
  · exact hs.scope m hm
  · exact (View.throughout_join.mp hv).2.2.2.mapLeaves fun leaf hleaf =>
      hleaf.settleLeaf (hs.scope x hx) (hs.scope y hy)

theorem adds (ht : t.Throughout P) (ha : a.Throughout P) (h : t.Adds a u) : u.Throughout P := by
  refine throughout_of_clauses (h.sources ▸ ht.views) (fun k hk => ?_) (h.scope ▸ ht.scope)
  rcases h.mem_clauses hk with hk | rfl
  · exact ht.clauses k hk
  · exact ha

/-- The view of one source can be replaced. -/
theorem replace {before after : List Source} {src : Source} {w : View} (hs : s.Throughout P)
    (hf : s.sources = before ++ src :: after) (hw : w.Throughout P) :
    ({ s with sources := before ++ { src with view := w } :: after } : Select).Throughout P := by
  obtain ⟨hsources, hrest⟩ := throughout_iff.mp hs
  rw [hf, List.forall_mem_append, List.forall_mem_cons] at hsources
  obtain ⟨hbefore, hsrc, hafter⟩ := hsources
  refine throughout_iff.mpr ⟨?_, hrest⟩
  exact List.forall_mem_append.mpr ⟨hbefore, List.forall_mem_cons.mpr ⟨⟨hw, hsrc.2⟩, hafter⟩⟩

end Throughout

mutual

theorem Accepts.throughout (hP : Lasting P) : ∀ {s t : Select} {e a : Expr}, s.Accepts e t a →
    s.Throughout P → e.Throughout P → t.Throughout P ∧ a.Throughout P
  | _, _, _, _, .literal _ _, hs, he => ⟨hs, he⟩
  | _, _, _, _, .apply _ h, hs, he => by
      obtain ⟨ht, ha⟩ := h.throughout hP hs (Expr.throughout_apply.mp he)
      exact ⟨ht, Expr.throughout_apply.mpr ha⟩
  | _, _, _, _, .own _ _ h, hs, he => h.throughout hP hs (Expr.throughout_projected.mp he).2
  | _, _, _, _, .view h, hs, he => ⟨hs, hs.acceptView he h⟩
  | _, _, _, _, .kept _ _ _, hs, he => ⟨hs, he⟩
  | _, _, _, _, @Accepts.routed _ _ _ _ _ _ _ _ src _ _ _ _ _ _ _ hf _ _ hq hp hv, hs, he => by
      have hsrc := hs.views src (hf ▸ List.mem_append_right _ List.mem_cons_self)
      obtain ⟨i, hinner⟩ := hsrc.statement hq
      obtain ⟨hself, hq'⟩ := View.throughout_select.mp hinner
      obtain ⟨hr, hd⟩ := hp.throughout hP hq' he.unpinned
      have hview := hsrc.withStatement hP
        (fun k => View.throughout_select.mpr ⟨hP.select hself hp, hr⟩) hv
      exact ⟨hs.replace hf hview, Expr.throughout_projected.mpr ⟨hview, hd⟩⟩

theorem AcceptsAll.throughout (hP : Lasting P) : ∀ {s t : Select} {es as : List Expr},
    s.AcceptsAll es t as → s.Throughout P → (∀ e ∈ es, e.Throughout P) →
      t.Throughout P ∧ ∀ a ∈ as, a.Throughout P
  | _, _, _, _, .nil _, hs, _ => ⟨hs, fun _ h => nomatch h⟩
  | _, _, _, _, .cons h htail, hs, hes => by
      rw [List.forall_mem_cons] at hes
      obtain ⟨ht, ha⟩ := h.throughout hP hs hes.1
      obtain ⟨hu, has⟩ := htail.throughout hP ht hes.2
      exact ⟨hu, List.forall_mem_cons.mpr ⟨ha, has⟩⟩

theorem Provides.throughout (hP : Lasting P) : ∀ {q r : Select} {e d : Expr} {name : Option String},
    q.Provides e r name d → q.Throughout P → e.Throughout P → r.Throughout P ∧ d.Throughout P
  | _, _, _, _, _, .reused (p := p) h hp, hq, he => by
      obtain ⟨hr, -⟩ := h.throughout hP hq he
      exact ⟨hr, (throughout_iff.mp hr).2.1 p (List.mem_of_find?_eq_some hp)⟩
  | _, _, _, _, _, .added h _ hl, hq, he => by
      obtain ⟨hr, ha⟩ := h.throughout hP hq he
      exact ⟨hr.adds ha (.projection hl), ha⟩

end

namespace Throughout

theorem entered {m : Mapping} (hs : s.Throughout P) (hm : m.view.Throughout P) (pool : AliasPool) :
    (s.entered m pool).Throughout P :=
  throughout_of_clauses hs.views hs.clauses (List.forall_mem_cons.mpr ⟨hm, hs.scope⟩)

theorem listing {src : Source} (hs : s.Throughout P) (hv : src.view.Throughout P)
    (hon : ∀ e, src.on = some e → e.Throughout P) : (s.listing src).Throughout P := by
  refine throughout_of_clauses (fun x hx => ?_) (fun k hk => ?_) hs.scope
  · rcases List.mem_append.mp hx with hx | hx
    · exact hs.views x hx
    · exact List.mem_singleton.mp hx ▸ hv
  · rcases mem_clauses_listing hk with hk | ⟨e, he, rfl⟩
    · exact hs.clauses k hk
    · exact hon e he

theorem rebase (hP : Lasting P) {i k : Nat} {j l : Join} (hs : s.Throughout P)
    (hj : (View.join i j).Throughout P) (h : s.rebase j = .ok l) : (View.join k l).Throughout P := by
  obtain ⟨-, hsource, htarget, hp⟩ := View.throughout_join.mp hj
  rcases rebase_eq_ok h with rfl | ⟨m, hm, rfl⟩
  · exact View.throughout_join.mpr ⟨hP.join _ _, hsource, htarget, hp⟩
  · exact View.throughout_join.mpr ⟨hP.join _ _, hs.scope m hm, htarget,
      hp.mapLeaves fun leaf hleaf => hleaf.moveLeaf (hs.scope m hm)⟩

end Throughout

/-- A step keeps what holds throughout the statement, the expression it puts in a clause, and the join or
the copy that it puts in the FROM list. -/
theorem Step.throughout (hP : Lasting P) {OkView : View → Prop}
    (hcopy : ∀ {v w : View} {c c' : Catalog}, OkView v → v.isJoin = false →
      Build.copyView v c = .ok (w, c') → w.Throughout P)
    (hjoin : ∀ {i : Nat} {j : Join}, OkView (.join i j) → (View.join i j).Throughout P)
    (h : Step (Expr.Throughout P) OkView s u) (hs : s.Throughout P) : u.Throughout P := by
  cases h with
  | source mark hv hw hj ha =>
      have hview := hcopy hv hj hw
      exact (hs.entered hview _).listing hview fun _ he => nomatch he
  | @join t i k j l a pool e mark hv hl ha h =>
      have hview := hs.rebase hP (k := k) (hjoin hv) hl
      have hpredicate := (View.throughout_join.mp hview).2.2.2
      obtain ⟨ht, he⟩ := h.throughout hP (hs.entered hview pool) hpredicate
      refine ht.listing hview fun b hb => ?_
      exact Option.some.inj hb ▸ he
  | clause he h hu =>
      obtain ⟨ht, ha⟩ := h.throughout hP hs he
      exact ht.adds ha hu

end Select

/-! Calls. -/

/-- The views inside what a call is given. -/
def Call.inside : Call → List View
  | addSource v => v.inside
  | join target p => target.inside ++ p.inside
  | project e => e.inside
  | projectAs e _ => e.inside
  | filter e => e.inside
  | filterGroups e => e.inside
  | groupBy e => e.inside
  | groupByAll es => Expr.insideAll es

/-- A predicate holds of all views inside what a call is given. -/
def Call.Throughout (P : View → Prop) (k : Call) : Prop := ∀ v ∈ k.inside, P v

theorem Call.Throughout.fits (hP : Lasting P) {OkView : View → Prop} : ∀ {k : Call}, k.Throughout P →
    (∀ v, k = addSource v → OkView v) → (∀ {i j}, (View.join i j).Throughout P → OkView (.join i j)) →
      k.Fits (Expr.Throughout P) OkView
  | addSource v, _, hadd, _ => hadd v rfl
  | join target p, hk, _, hjoin => by
      intro i j hinfer
      obtain ⟨htarget, hp⟩ := List.forall_mem_append.mp hk
      obtain ⟨source, hsource, rfl⟩ := Join.infer_eq_ok hinfer
      have hp : p.Throughout P := hp
      have hview := hp.views source hsource
      exact hjoin (View.throughout_join.mpr ⟨hP.join _ _, hview, htarget,
        hp.mapLeaves fun leaf hleaf => hleaf.attachLeaf hview target⟩)
  | project _, hk, _, _ => hk
  | projectAs _ _, hk, _, _ => hk
  | filter _, hk, _, _ => hk
  | filterGroups _, hk, _, _ => hk
  | groupBy _, hk, _, _ => hk
  | groupByAll _, hk, _, _ => fun e he v hv => hk v (Expr.mem_insideAll.mpr ⟨e, he, hv⟩)

end SqlCompose
