import SqlCompose.Proofs.Steps

/-!
Accepting an expression takes marks from the catalogue and leaves its registries alone: it makes new nodes
and registers no table, no column and no key. Calls that add a source make registries for copies of tables,
behind those that are there.
-/

namespace SqlCompose

namespace Build

variable {α β : Type}

/-- A step that leaves the registries alone. -/
def Quiet (x : Build α) : Prop :=
  ∀ ⦃c : Catalog⦄ ⦃a : α⦄ ⦃c' : Catalog⦄, x c = .ok (a, c') → c'.registries = c.registries

namespace Quiet

theorem bind {x : Build α} {f : α → Build β} (hx : x.Quiet) (hf : ∀ a, (f a).Quiet) :
    (x >>= f).Quiet := by
  intro c b c' h
  obtain ⟨a, c₁, ha, hb⟩ := bind_eq_ok.mp h
  exact (hf a hb).trans (hx ha)

theorem pure (a : α) : (Pure.pure a : Build α).Quiet := by
  intro c b c' h
  rw [(Prod.mk.inj (pure_eq_ok.mp h)).2]

theorem throw (cause : Error) : (MonadExcept.throw cause : Build α).Quiet := by
  intro c b c' h
  exact absurd h throw_ne_ok

theorem lift (x : Except Error α) : (liftM x : Build α).Quiet := by
  intro c b c' h
  rw [(lift_eq_ok.mp h).2]

theorem get : (MonadState.get : Build Catalog).Quiet := by
  intro c b c' h
  rw [(Prod.mk.inj (get_eq_ok.mp h)).2]

theorem joinView (j : Join) : (Build.joinView j).Quiet := by
  intro c b c' h
  rw [(Prod.mk.inj (joinView_eq_ok.mp h)).2]
  rfl

theorem selectView (s : Select) : (Build.selectView s).Quiet := by
  intro c b c' h
  rw [(Prod.mk.inj (selectView_eq_ok.mp h)).2]
  rfl

theorem rejecting {clause : Clause} {subject : String} {x : Build α} (hx : x.Quiet) :
    (Build.rejecting clause subject x).Quiet := by
  intro c b c' h
  exact hx (rejecting_eq_ok.mp h)

end Quiet

end Build

open Build

theorem View.withStatement_quiet (r : Select) : ∀ v : View, (v.withStatement r).Quiet
  | .table _ => .pure _
  | .concrete _ => .pure _
  | .select _ _ => .selectView r
  | .join _ ⟨_, _, t, _⟩ => .bind (withStatement_quiet r t) fun _ => .joinView _

namespace Select

/-- Nested statements accept quietly. -/
def Acceptor.Quiet (accept : Acceptor) : Prop := ∀ q e, (accept q e).Quiet

variable {accept : Acceptor}

theorem provide_quiet (h : accept.Quiet) (q : Select) (e : Expr) : (provide accept q e).Quiet := by
  refine .bind (h q e) fun r => ?_
  obtain ⟨r, a⟩ := r
  simp only
  split <;> exact .pure _

theorem updateSource_quiet {label : String} {f : Source → Build (Source × Expr)}
    (h : ∀ src, (f src).Quiet) : ∀ l : List Source, (updateSource label f l).Quiet
  | [] => .throw _
  | src :: rest => by
      rw [updateSource]
      split
      · exact .bind (h src) fun _ => .pure _
      · exact .bind (updateSource_quiet h rest) fun _ => .pure _

theorem throughSource_quiet (h : accept.Quiet) (leaf : Expr) (src : Source) :
    (throughSource accept leaf src).Quiet := by
  rw [throughSource]
  split
  · exact .throw _
  · exact .bind (provide_quiet h _ leaf) fun _ =>
      .bind (View.withStatement_quiet _ src.view) fun _ => .pure _

theorem acceptLeaf_quiet (h : accept.Quiet) (s : Select) (leaf : Expr) :
    (acceptLeaf accept s leaf).Quiet := by
  refine .bind (.lift _) fun m => .bind .get fun c => .bind (.lift _) fun _ => ?_
  split
  · exact .bind (updateSource_quiet (throughSource_quiet h leaf.unpinned) s.sources) fun _ => .pure _
  · exact .pure _

mutual

theorem acceptWith_quiet (h : accept.Quiet) : ∀ (e : Expr) (s : Select), (acceptWith accept s e).Quiet
  | .literal v, s => by
      rw [acceptWith]
      exact .pure _
  | .apply op args, s => by
      rw [acceptWith]
      exact .bind (acceptAllWith_quiet h args s) fun _ => .pure _
  | .column col, s => by
      rw [acceptWith]
      exact acceptLeaf_quiet h s _
  | .star v, s => by
      rw [acceptWith]
      exact acceptLeaf_quiet h s _
  | .projected v n d, s => by
      rw [acceptWith]
      split
      · exact acceptWith_quiet h d s
      · exact acceptLeaf_quiet h s _
  | .pinned b v, s => by
      rw [acceptWith]
      exact acceptLeaf_quiet h s _
  | .view v, s => by
      rw [acceptWith]
      exact .bind (.lift _) fun _ => .pure _
  | .within sc b, s => by
      rw [acceptWith]
      exact .throw _

theorem acceptAllWith_quiet (h : accept.Quiet) :
    ∀ (es : List Expr) (s : Select), (acceptAllWith accept s es).Quiet
  | [], s => by
      rw [acceptAllWith]
      exact .pure _
  | e :: es, s => by
      rw [acceptAllWith]
      exact .bind (acceptWith_quiet h e s) fun r => .bind (acceptAllWith_quiet h es r.1) fun _ => .pure _

end

theorem acceptAt_quiet (n : Nat) : (acceptAt n).Quiet := by
  induction n with
  | zero => exact fun q e => acceptWith_quiet (fun _ _ => .throw _) e q
  | succ n ih => exact fun q e => acceptWith_quiet ih e q

theorem acceptUnwrapping_quiet (s : Select) : ∀ (n : Nat) (e : Expr), (s.acceptUnwrapping n e).Quiet
  | 0, e => acceptAt_quiet s.level s e
  | n + 1, e => by
      intro c r c' h
      rw [acceptUnwrapping] at h
      cases hr : s.accept e c with
      | ok r' =>
          simp only [hr] at h
          exact acceptAt_quiet s.level s e (hr.trans h)
      | error cause =>
          simp only [hr] at h
          split at h
          case isTrue hw => exact acceptUnwrapping_quiet s n e.unwrap h
          case isFalse hw => exact absurd h (by simp)

/-- Adding a predicate leaves the registries alone. -/
theorem filter_quiet (s : Select) (e : Expr) : (s.filter e).Quiet :=
  .rejecting (.bind (acceptUnwrapping_quiet s _ e) fun _ => .pure _)

theorem filterGroups_quiet (s : Select) (e : Expr) : (s.filterGroups e).Quiet :=
  .rejecting (.bind (acceptUnwrapping_quiet s _ e) fun _ => .pure _)

end Select

/-! Calls only add registries. -/

namespace Build

variable {α β : Type}

/-- A step that keeps the registries and may add others behind them. -/
def Adding (x : Build α) : Prop :=
  ∀ ⦃c : Catalog⦄ ⦃a : α⦄ ⦃c' : Catalog⦄, x c = .ok (a, c') →
    c.registries.toList <+: c'.registries.toList

theorem Quiet.adding {x : Build α} (h : x.Quiet) : x.Adding := by
  intro c a c' hx
  simp only [h hx, List.prefix_rfl]

namespace Adding

theorem bind {x : Build α} {f : α → Build β} (hx : x.Adding) (hf : ∀ a, (f a).Adding) :
    (x >>= f).Adding := by
  intro c b c' h
  obtain ⟨a, c₁, ha, hb⟩ := bind_eq_ok.mp h
  exact (hx ha).trans (hf a hb)

theorem rejecting {clause : Clause} {subject : String} {x : Build α} (hx : x.Adding) :
    (Build.rejecting clause subject x).Adding := by
  intro c b c' h
  exact hx (rejecting_eq_ok.mp h)

theorem copyView : ∀ v : View, (Build.copyView v).Adding
  | .table t => by
      intro c w c' h
      obtain ⟨-, rfl⟩ := Prod.mk.inj (Except.ok.inj h)
      show c.registries.toList <+: (c.registries.push (c.registry t)).toList
      rw [Array.toList_push]
      exact List.prefix_append _ _
  | .concrete _ => (Quiet.pure _).adding
  | .join .. => (Quiet.pure _).adding
  | .select .. => (Quiet.pure _).adding

end Adding

end Build

namespace Select

theorem accept_quiet (s : Select) (e : Expr) : (s.accept e).Quiet := acceptAt_quiet s.level s e

theorem register_quiet (s : Select) (v : View) (a : String) (on : Option Expr) :
    (s.register v a on).Quiet := by
  have hmark : Build.mark.Quiet := by
    intro c m c' h
    rw [← (Prod.mk.inj (Except.ok.inj h)).2]
  refine .bind hmark fun m => ?_
  cases on with
  | none => exact .pure _
  | some predicate => exact .bind (accept_quiet _ _) fun _ => .pure _

theorem registerNamed_quiet (s : Select) (v : View) (on : Option Expr) :
    (s.registerNamed v on).Quiet := register_quiet _ v _ on

theorem addSource_adding (s : Select) (v : View) : (s.addSource v).Adding := by
  have hplain : (do s.registerNamed (← Build.copyView v) none).Adding :=
    .bind (.copyView v) fun w => (registerNamed_quiet s w none).adding
  refine .rejecting ?_
  cases v with
  | table t => exact hplain
  | concrete t => exact hplain
  | select i q => exact hplain
  | join i j =>
      exact Quiet.adding (.bind (.lift _) fun j => .bind (.joinView j) fun w =>
        registerNamed_quiet s w _)

theorem addProjection_quiet (s : Select) (e : Expr) (name : Option String) (explicit : Bool) :
    (s.addProjection e name explicit).Quiet := by
  refine .bind (accept_quiet s e) fun r => ?_
  generalize (if explicit = true then name else none) = wanted
  obtain ⟨t, a⟩ := r
  simp only
  split
  · exact .pure _
  · exact .pure _

theorem groupBy_quiet (s : Select) (e : Expr) : (s.groupBy e).Quiet :=
  .rejecting (.bind (accept_quiet s e) fun _ => addProjection_quiet _ e none false)

theorem groupByAll_quiet : ∀ (es : List Expr) (s : Select), (s.groupByAll es).Quiet
  | [], s => .pure s
  | e :: es, s => .bind (groupBy_quiet s e) fun t => groupByAll_quiet es t

end Select

end SqlCompose
