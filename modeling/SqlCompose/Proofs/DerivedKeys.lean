import SqlCompose.Proofs.Repeated
import SqlCompose.Proofs.Steady

/-!
Counting the rows of a nested statement from the statement around it. The key of a statement is made of what it is
grouped by, as the statement has accepted it, or else of the keys of its sources. From outside, a column, a star or a
pinned leaf of the key can be led into the nested statement, which projects it, and a reference to the projection
takes its place. A reference in the key belongs to a statement deeper inside, and the statement around the nested one
does not know that: there the count is refused.
-/

namespace SqlCompose

variable {P : View → Prop} {c k : Catalog} {i : Nat} {S : Select}

/-! The keys of a view, and their count. -/

mutual

theorem View.throughout_keys (hP : ∀ t, P (.table t)) : ∀ {v : View}, v.Throughout P →
    ∀ key ∈ v.keys c, key.Throughout P
  | .table t, _ => fun key hkey => by
      obtain ⟨col, -, rfl⟩ := List.mem_map.mp hkey
      exact Expr.throughout_column.mpr (hP _)
  | .concrete m, _ => fun key hkey => by
      obtain ⟨col, -, rfl⟩ := List.mem_map.mp hkey
      exact Expr.throughout_column.mpr (hP _)
  | .join _ ⟨_, _, t, _⟩, h => View.throughout_keys (v := t) hP h.join.target
  | .select _ ⟨_, f, _, _, _, [], _, _⟩, h => Source.throughout_keysAll hP h.select.views
  | .select _ ⟨_, _, _, _, _, k :: g, _, _⟩, h => fun key hkey => by
      obtain ⟨x, hx, rfl⟩ := List.mem_map.mp hkey
      exact (Select.throughout_iff.mp h.select).2.2.2.2.1 x hx

theorem Source.throughout_keysAll (hP : ∀ t, P (.table t)) : ∀ {f : List Source}, (∀ src ∈ f, src.view.Throughout P) →
    ∀ key ∈ Source.keysAll c f, key.Throughout P
  | [], _ => List.forall_mem_nil _
  | ⟨v, _, _, _⟩ :: f, h => by
      rw [List.forall_mem_cons] at h
      exact List.forall_mem_append.mpr ⟨View.throughout_keys hP h.1, Source.throughout_keysAll hP h.2⟩

end

namespace Expr

/-- The count of the distinct values of some expressions. Several are concatenated. -/
def countOf : List Expr → Expr
  | [key] => apply .countDistinct [key]
  | keys => apply .countDistinct [apply .concat keys]

theorem throughout_countOf : ∀ {keys : List Expr}, (∀ key ∈ keys, key.Throughout P) → (countOf keys).Throughout P
  | [], _ => throughout_apply.mpr (List.forall_mem_singleton.mpr (throughout_apply.mpr (List.forall_mem_nil _)))
  | [_], h => throughout_apply.mpr h
  | _ :: _ :: _, h => throughout_apply.mpr (List.forall_mem_singleton.mpr (throughout_apply.mpr h))

theorem nanFreeAll_eq_true : ∀ {es : List Expr}, nanFreeAll es = true ↔ ∀ e ∈ es, e.nanFree = true
  | [] => iff_of_true rfl (List.forall_mem_nil _)
  | e :: es => by rw [nanFreeAll, Bool.and_eq_true, List.forall_mem_cons, nanFreeAll_eq_true]

theorem definite_countOf {keys : List Expr} (h : ∀ key ∈ keys, key.Definite) : (countOf keys).Definite := by
  have hall : nanFreeAll keys = true := nanFreeAll_eq_true.mpr fun key hkey => (h key hkey).constants
  refine ⟨?_, throughout_countOf fun key hkey => (h key hkey).views⟩
  match keys with
  | [] => rfl
  | [_] => exact hall
  | _ :: _ :: _ => exact Bool.and_eq_true_iff.mpr ⟨hall, rfl⟩

theorem countRows_eq {v : View} (h : v.keys c ≠ []) : countRows c v = .ok (countOf (v.keys c)) := by
  rw [countRows]
  split
  case h_1 hnil => exact absurd hnil h
  case h_2 key hkey => rw [hkey, countOf]
  case h_3 _ hne =>
      rw [countOf]
      exact hne

end Expr

/-! Leading a leaf into a view. -/

/-- Whether a leaf resolves to a view where nothing else is in scope. -/
def View.leads (v : View) : Expr → Bool
  | .column col => v.compatible col.view
  | .star w => v.compatible w
  | .pinned _ w => v.compatible w
  | .projected w _ _ => v == w
  | _ => false

mutual

/-- Whether an expression of a statement can be used around the statement: each leaf leads into it, and it accepts the
leaf without its pin. -/
def Expr.usable (c : Catalog) (i : Nat) (S : Select) : Expr → Bool
  | .literal _ => true
  | .apply _ args => Expr.allUsable c i S args
  | .view (.select ..) => true
  | .view (.join ..) => false
  | .view w => (View.select i S).compatible w
  | .within .. => false
  | leaf => (View.select i S).leads leaf && (S.accept leaf.unpinned c).isOk

/-- Whether all arguments can be used. -/
def Expr.allUsable (c : Catalog) (i : Nat) (S : Select) : List Expr → Bool
  | [] => true
  | e :: es => e.usable c i S && Expr.allUsable c i S es

end

namespace Expr

theorem allUsable_eq_true : ∀ {es : List Expr}, allUsable c i S es = true ↔ ∀ e ∈ es, e.usable c i S = true
  | [] => iff_of_true rfl (List.forall_mem_nil _)
  | e :: es => by rw [allUsable, Bool.and_eq_true, List.forall_mem_cons, allUsable_eq_true]

theorem usable_of_isLeaf {leaf : Expr} (h : leaf.isLeaf = true) :
    leaf.usable c i S = ((View.select i S).leads leaf && (S.accept leaf.unpinned c).isOk) := by
  cases leaf with
  | column | star | projected | pinned => rfl
  | literal | apply | view | within => cases h

theorem usable_countOf : ∀ keys : List Expr, (countOf keys).usable c i S = true ↔
    ∀ key ∈ keys, key.usable c i S = true
  | [] => iff_of_true rfl (List.forall_mem_nil _)
  | [key] => by rw [countOf, usable, allUsable_eq_true]
  | key :: key' :: keys => by
      rw [countOf, usable, allUsable_eq_true, List.forall_mem_singleton, usable, allUsable_eq_true]
      intro _ h
      cases h

mutual

theorem usable_of_mem_leaves {leaf : Expr} : ∀ {e : Expr}, leaf ∈ e.leaves → e.usable c i S = true →
    leaf.usable c i S = true
  | .literal _, h, _ => absurd h List.not_mem_nil
  | .apply _ _, h, he => usable_of_mem_leavesAll h he
  | .column _, h, he => List.mem_singleton.mp h ▸ he
  | .star _, h, he => List.mem_singleton.mp h ▸ he
  | .projected .., h, he => List.mem_singleton.mp h ▸ he
  | .view _, h, _ => absurd h List.not_mem_nil
  | .pinned .., h, he => List.mem_singleton.mp h ▸ he
  | .within .., _, he => absurd he Bool.false_ne_true

theorem usable_of_mem_leavesAll {leaf : Expr} : ∀ {es : List Expr}, leaf ∈ leavesAll es →
    allUsable c i S es = true → leaf.usable c i S = true
  | [], h, _ => absurd h List.not_mem_nil
  | e :: es, h, hes => by
      obtain ⟨he, htail⟩ := Bool.and_eq_true_iff.mp hes
      rcases List.mem_append.mp h with h | h
      · exact usable_of_mem_leaves h he
      · exact usable_of_mem_leavesAll h htail

end

/-- An expression with a reference to a projection of any other statement cannot be used, wherever the reference
stands. -/
theorem usable_eq_false_of_reference {N : Nodes} {e d : Expr} {w : View} {n : Option String}
    (hS : (View.select i S).Throughout N.Holds) (hw : w.Throughout N.Holds)
    (hne : ∀ j r, w = .select j r → r.identity ≠ S.identity) (hmem : projected w n d ∈ e.leaves) :
    e.usable c i S = false := by
  have hequal : (View.select i S == w) = false := by
    refine Bool.eq_false_iff.mpr fun h => ?_
    obtain ⟨j, r, rfl, rfl | hSr⟩ := View.beq_select.mp h
    · exact hne i r rfl (congrArg Select.identity (hw.self.symm.trans hS.self))
    · exact hne j r rfl (Select.beq_iff.mp hSr).1.symm
  refine Bool.eq_false_iff.mpr fun he => ?_
  have hleaf := usable_of_mem_leaves hmem he
  rw [usable_of_isLeaf rfl, View.leads, hequal, Bool.false_and] at hleaf
  cases hleaf

end Expr

namespace Scope

variable {m m' : Mapping} {v : View} {leaf : Expr}

theorem resolve_singleton : resolve [m] v = .ok m' ↔ m' = m ∧ m.view.compatible v = true := by
  rw [resolve_eq_ok, List.find?_singleton]
  split
  case isTrue h => simp [h, eq_comm]
  case isFalse h => simp [h]

/-- With one mapping in scope, which is not of a join, a leaf resolves to it exactly if it leads into its view. -/
theorem resolveLeaf_singleton (hj : m.view.isJoin = false) (hleaf : leaf.isLeaf = true) :
    resolveLeaf [m] leaf = .ok m' ↔ m' = m ∧ m.view.leads leaf = true := by
  cases leaf with
  | column col => exact resolve_singleton
  | star w => exact resolve_singleton
  | pinned e w =>
      rw [resolveLeaf, resolvePinned, List.find?_singleton]
      cases hw : m.view == w with
      | false => exact resolve_singleton
      | true =>
          have hcompatible : m.view.compatible w = true := View.compatible_of_beq hw
          simp [View.leads, hcompatible, eq_comm]
  | projected w n d =>
      have hmapping : isMappingOf m w = (m.view == w) := by
        rw [isMappingOf]
        split
        case h_1 i j hv => rw [hv] at hj; cases hj
        case h_2 => rfl
      rw [resolveLeaf, resolveExact_eq_ok, List.find?_singleton, hmapping, View.leads]
      split
      case isTrue h => simp [h, eq_comm]
      case isFalse h => simp [h]
  | literal | apply | view | within => cases hleaf

end Scope

/-! A statement around another one. -/

namespace Select

variable {s t O : Select} {e a leaf : Expr} {es as : List Expr} {c' : Catalog} {v : View} {l : String} {o : Nat}
  {N : Nodes}

/-- A statement has one source, which was a view when it entered the scope and may have grown. -/
structure Around (v : View) (l : String) (s : Select) : Prop where
  mapping : ∃ m, s.scope = [m] ∧ m.view = v ∧ m.label = l
  source : ∃ src, s.sources = [src] ∧ src.label = l ∧ v.Grows src.view

/-- A new statement takes a nested one as its source, under the first letter. -/
theorem exists_addSource_around (o : Nat) (hS : (View.select i S).Throughout (c.Knows N)) : ∃ O,
    (empty o).addSource (.select i S) c = .ok (O, c.freshMark.2) ∧ O.identity = o ∧ O.projections = [] ∧
      Around (.select i S) "a" O ∧ O.Throughout (c.freshMark.2.Knows N) ∧ c.Learns N c.freshMark.2 N := by
  have hlearns : c.Learns N c.freshMark.2 N := ⟨Nat.le_succ _, fun _ _ => rfl, fun _ _ => rfl⟩
  have hview := hlearns.view hS
  let m : Mapping := ⟨c.nextMark, .select i S, "a"⟩
  refine ⟨_, Build.rejecting_eq_ok.mpr rfl, rfl, rfl, ⟨⟨m, rfl, rfl, rfl⟩, ⟨_, rfl, rfl, .refl _⟩⟩, ?_, hlearns⟩
  exact ((Throughout.empty o).entered (m := m) hview _).listing hview fun e he => absurd he.symm (Option.some_ne_none e)

/-- No statement inside an expression is the given one. -/
def Apart (o : Nat) (e : Expr) : Prop := e.Throughout fun w => ∀ j r, w = .select j r → r.identity ≠ o

theorem owns_of_apart (h : Apart s.identity leaf) : s.owns leaf = false := by
  cases leaf with
  | projected v n d =>
      cases v with
      | select j r =>
          have hne : r.identity ≠ s.identity := (Expr.throughout_projected.mp h).1.self j r rfl
          exact Bool.eq_false_iff.mpr fun hself => hne (beq_iff.mp hself).1
      | table | concrete | join => rfl
  | literal | apply | column | star | view | pinned | within => rfl

namespace Around

theorem acceptView_isOk (h : Around (.select i S) l O) (w : View) :
    (O.acceptView w).isOk = (Expr.view w).usable c i S := by
  obtain ⟨m, hm, hv, -⟩ := h.mapping
  have hresolve : ∀ w : View, (Scope.resolve O.scope w).isOk = (View.select i S).compatible w := by
    intro w
    rw [hm, ← hv, Scope.resolve, List.find?_singleton]
    cases m.view.compatible w <;> rfl
  have hplain : ∀ w : View, (do return Expr.view (← Scope.resolve O.scope w).view : Except Error Expr).isOk
      = (View.select i S).compatible w := by
    intro w
    rw [← hresolve w]
    cases Scope.resolve O.scope w <;> rfl
  cases w with
  | table t => exact hplain _
  | concrete t => exact hplain _
  | select j q => rfl
  | join j l =>
      refine Bool.eq_false_iff.mpr fun hok => ?_
      obtain ⟨a, ha⟩ := Except.exists_of_isOk hok
      -- both sides of a join resolve to the one source there is
      obtain ⟨x, hx, h₁⟩ := bind_eq_ok.mp ha
      obtain ⟨y, hy, h₂⟩ := bind_eq_ok.mp h₁
      rw [hm] at hx hy
      obtain ⟨rfl, -⟩ := Scope.resolve_singleton.mp hx
      obtain ⟨rfl, -⟩ := Scope.resolve_singleton.mp hy
      rw [if_pos (beq_self_eq_true _)] at h₂
      cases h₂

variable {M : Nodes}

theorem acceptLeaf_isOk_eq (h : Around (.select i S) l O) (hlearns : c.Learns N k M)
    (hk : k.registries = c.registries) (hS : (View.select i S).Throughout (c.Knows N)) (hO : O.Throughout (k.Knows M))
    (hleaf : leaf.isLeaf = true) (he : leaf.Throughout (c.Knows N)) (hdef : leaf.Definite)
    (hnew : Apart O.identity leaf) : (O.accept leaf k).isOk = leaf.usable c i S := by
  obtain ⟨m, hm, hv, hml⟩ := h.mapping
  obtain ⟨src, hsources, hsl, hgrows⟩ := h.source
  obtain ⟨j, r, hview, hSr⟩ := hgrows.of_select
  have hr : r.Throughout (k.Knows M) := by
    have hsrc := hO.views src (hsources ▸ List.mem_cons_self)
    rw [hview] at hsrc
    exact hsrc.select
  have hinside : (r.accept leaf.unpinned k).isOk = (S.accept leaf.unpinned c).isOk :=
    accept_isOk_of_grows hSr hlearns hk hS.select hr he.unpinned hdef.unpinned
  have hfind : O.sources.find? (·.label == m.label) = some src := by
    rw [hsources, List.find?_singleton, hsl, hml, if_pos (beq_self_eq_true l)]
  have hcheck : checkDeclared k m.view leaf.unpinned = .ok () := by
    rw [hv]
    cases leaf.unpinned <;> rfl
  refine Bool.eq_iff_iff.mpr ?_
  rw [accept_leaf_eq hleaf (owns_of_apart hnew), acceptLeaf_isOk, Expr.usable_of_isLeaf hleaf, Bool.and_eq_true, hm,
    ← hinside, ← hv]
  constructor
  · rintro ⟨m', hm', -, hbehind⟩
    obtain ⟨rfl, hleads⟩ := (Scope.resolveLeaf_singleton (by rw [hv]; rfl) hleaf).mp hm'
    obtain ⟨x, q, hx, hq, hok⟩ := hbehind (by rw [hv]; rfl)
    obtain rfl := Option.some.inj (hfind.symm.trans hx)
    rw [hview] at hq
    obtain rfl := Option.some.inj hq
    exact ⟨hleads, hok⟩
  · rintro ⟨hleads, hok⟩
    exact ⟨m, (Scope.resolveLeaf_singleton (by rw [hv]; rfl) hleaf).mpr ⟨rfl, hleads⟩, hcheck,
      fun _ => ⟨src, r, hfind, by rw [hview]; rfl, hok⟩⟩

mutual

/-- An expression of the nested statement is accepted around it exactly if it can be used there. -/
theorem accept_isOk_eq (h : Around (.select i S) l O) (hlearns : c.Learns N k M) (hk : k.registries = c.registries)
    (hS : (View.select i S).Throughout (c.Knows N)) (hO : O.Throughout (k.Knows M)) : ∀ {e : Expr},
      e.Throughout (c.Knows N) → e.Definite → Apart O.identity e → (O.accept e k).isOk = e.usable c i S
  | .literal v, _, _, _ => by
      rw [accept, acceptAt_eq, acceptWith]
      rfl
  | .apply op args, he, hdef, hnew => by
      refine Bool.eq_iff_iff.mpr ?_
      rw [accept_apply_isOk hO (Expr.throughout_apply.mp (hlearns.expr he)) hdef, Expr.usable,
        acceptAll_isOk_iff h hlearns hk hS hO op (Expr.throughout_apply.mp he) hdef
          (Expr.throughout_apply.mp hnew)]
  | .column col, he, hdef, hnew => h.acceptLeaf_isOk_eq hlearns hk hS hO rfl he hdef hnew
  | .star v, he, hdef, hnew => h.acceptLeaf_isOk_eq hlearns hk hS hO rfl he hdef hnew
  | .projected v n d, he, hdef, hnew => h.acceptLeaf_isOk_eq hlearns hk hS hO rfl he hdef hnew
  | .pinned b v, he, hdef, hnew => h.acceptLeaf_isOk_eq hlearns hk hS hO rfl he hdef hnew
  | .view v, _, _, _ => by
      rw [accept, acceptAt_eq, acceptWith, ← h.acceptView_isOk]
      exact Build.bind_pure_isOk.trans Build.lift_isOk
  | .within .., _, _, _ => by
      rw [accept, acceptAt_eq, acceptWith]
      rfl

theorem acceptAll_isOk_iff (h : Around (.select i S) l O) (hlearns : c.Learns N k M)
    (hk : k.registries = c.registries) (hS : (View.select i S).Throughout (c.Knows N)) (hO : O.Throughout (k.Knows M))
    (op : Operator) : ∀ {es : List Expr}, (∀ e ∈ es, e.Throughout (c.Knows N)) → (Expr.apply op es).Definite →
      (∀ e ∈ es, Apart O.identity e) →
        ((∀ e ∈ es, (O.accept e k).isOk = true) ↔ Expr.allUsable c i S es = true)
  | [], _, _, _ => iff_of_true (List.forall_mem_nil _) rfl
  | e :: es, he, hdef, hnew => by
      rw [List.forall_mem_cons] at he hnew ⊢
      rw [accept_isOk_eq h hlearns hk hS hO he.1 hdef.head hnew.1, Expr.allUsable, Bool.and_eq_true,
        acceptAll_isOk_iff h hlearns hk hS hO op he.2 hdef.tail hnew.2]

end

end Around

end Select

/-! What is accepted around a nested statement. -/

mutual

/-- An expression in which every leaf has become a reference to a projection of what a view has grown into. -/
inductive Expr.Rerouted (v : View) : Expr → Expr → Prop
  | literal (x : Literal) : Expr.Rerouted v (.literal x) (.literal x)
  | apply (op : Operator) {es as : List Expr} (h : Expr.AllRerouted v es as) :
      Expr.Rerouted v (.apply op es) (.apply op as)
  | view (w u : View) : Expr.Rerouted v (.view w) (.view u)
  | leaf {leaf : Expr} {w : View} (hleaf : leaf.isLeaf = true) (h : v.Grows w) (n : Option String) (d : Expr) :
      Expr.Rerouted v leaf (.projected w n d)

/-- Arguments in which every leaf has become a reference. -/
inductive Expr.AllRerouted (v : View) : List Expr → List Expr → Prop
  | nil : Expr.AllRerouted v [] []
  | cons {e a : Expr} {es as : List Expr} (h : Expr.Rerouted v e a) (hs : Expr.AllRerouted v es as) :
      Expr.AllRerouted v (e :: es) (a :: as)

end

namespace Expr

variable {v : View} {e a leaf : Expr} {es as : List Expr}

theorem leaves_eq_of_isLeaf (h : leaf.isLeaf = true) : leaf.leaves = [leaf] := by
  cases leaf with
  | column | star | projected | pinned => rfl
  | literal | apply | view | within => cases h

mutual

/-- There is one reference for every leaf, and nothing else is a leaf. -/
theorem Rerouted.leaves : ∀ {e a : Expr}, e.Rerouted v a → a.leaves.length = e.leaves.length ∧
    ∀ leaf ∈ a.leaves, ∃ w n d, leaf = .projected w n d ∧ v.Grows w
  | _, _, .literal _ => ⟨rfl, List.forall_mem_nil _⟩
  | _, _, .apply _ h => h.leaves
  | _, _, .view _ _ => ⟨rfl, List.forall_mem_nil _⟩
  | _, _, .leaf (w := w) hleaf h n d => by
      refine ⟨by rw [leaves_eq_of_isLeaf hleaf]; rfl, fun x hx => ?_⟩
      exact ⟨w, n, d, List.mem_singleton.mp hx, h⟩

theorem AllRerouted.leaves : ∀ {es as : List Expr}, AllRerouted v es as →
    (leavesAll as).length = (leavesAll es).length ∧
      ∀ leaf ∈ leavesAll as, ∃ w n d, leaf = .projected w n d ∧ v.Grows w
  | _, _, .nil => ⟨rfl, List.forall_mem_nil _⟩
  | _, _, .cons h hs => by
      rw [leavesAll, leavesAll, List.length_append, List.length_append, h.leaves.1, hs.leaves.1,
        List.forall_mem_append]
      exact ⟨rfl, h.leaves.2, hs.leaves.2⟩

end

theorem length_leavesAll_of_isLeaf : ∀ {es : List Expr}, (∀ e ∈ es, e.isLeaf = true) →
    (leavesAll es).length = es.length
  | [], _ => rfl
  | e :: es, h => by
      rw [List.forall_mem_cons] at h
      rw [leavesAll, leaves_eq_of_isLeaf h.1, List.singleton_append, List.length_cons, List.length_cons,
        length_leavesAll_of_isLeaf h.2]

theorem length_leaves_countOf {keys : List Expr} (h : ∀ key ∈ keys, key.isLeaf = true) :
    (countOf keys).leaves.length = keys.length := by
  rw [← length_leavesAll_of_isLeaf h]
  match keys with
  | [] => rfl
  | [key] => rfl
  | key :: key' :: rest =>
      show (leavesAll [apply .concat _]).length = _
      rw [leavesAll, leavesAll, List.append_nil, leaves]

end Expr

namespace Select

variable {S s t u O : Select} {e a leaf : Expr} {es as : List Expr} {c c' k : Catalog} {i o : Nat} {l : String}
  {N : Nodes}

mutual

/-- Around a nested statement every leaf is led into it. -/
theorem Accepts.rerouted : ∀ {s t : Select} {e a : Expr}, s.Accepts e t a → Around (.select i S) l s →
    Apart s.identity e → Around (.select i S) l t ∧ e.Rerouted (.select i S) a
  | _, _, _, _, .literal _ v, h, _ => ⟨h, .literal v⟩
  | _, _, _, _, .apply op hargs, h, hnew =>
      (hargs.rerouted h (Expr.throughout_apply.mp hnew)).imp_right (.apply op)
  | s, _, .projected v n d, _, .own _ hself _, _, hnew => by
      have howns : s.owns (.projected v n d) = false := owns_of_apart hnew
      exact absurd hself (Bool.eq_false_iff.mp howns)
  | _, _, _, _, .view (v := v) hview, h, _ => by
      rcases acceptView_cases hview with ⟨w, rfl, -⟩ | ⟨j, k, x, y, rfl, -, -, rfl⟩
      · exact ⟨h, .view v w⟩
      · have hok := h.acceptView_isOk (c := {}) (.join j k)
        rw [hview] at hok
        cases hok
  | _, _, _, _, .kept hleaf hm hs, h, _ => by
      obtain ⟨m, hscope, hv, -⟩ := h.mapping
      rw [hscope] at hm
      obtain rfl := List.mem_singleton.mp (Scope.resolveLeaf_mem hm)
      rw [hv] at hs
      cases hs
  | _, _, _, _, @Accepts.routed _ _ _ _ d _ _ _ _ name _ _ _ hleaf hm _ hf _ _ hq hp hv, h, _ => by
      obtain ⟨x, hsources, hxl, hgrows⟩ := h.source
      rw [hf] at hsources
      obtain ⟨rfl, hsources⟩ | ⟨rest, -, hnil⟩ := List.append_eq_cons_iff.mp hsources
      · obtain ⟨rfl, rfl⟩ := List.cons.inj hsources
        have hall := hgrows.trans (View.withStatement_spec hq hp.grows hv).1
        exact ⟨⟨h.mapping, _, rfl, hxl, hall⟩, .leaf hleaf hall name d⟩
      · exact absurd hnil.symm (List.append_ne_nil_of_right_ne_nil rest (List.cons_ne_nil _ _))

theorem AcceptsAll.rerouted : ∀ {s t : Select} {es as : List Expr}, s.AcceptsAll es t as →
    Around (.select i S) l s → (∀ e ∈ es, Apart s.identity e) →
      Around (.select i S) l t ∧ Expr.AllRerouted (.select i S) es as
  | _, _, _, _, .nil _, h, _ => ⟨h, .nil⟩
  | _, _, _, _, .cons hhead htail, h, hnew => by
      rw [List.forall_mem_cons] at hnew
      obtain ⟨ht, ha⟩ := hhead.rerouted h hnew.1
      rw [← hhead.grows.identity] at hnew
      obtain ⟨hu, has⟩ := htail.rerouted ht hnew.2
      exact ⟨hu, .cons ha has⟩

end

/-- A reference to a projection of what the nested statement has become has the alias of its source in front, if it
has a name. -/
theorem Around.qualifiedBy_iff (h : Around (.select i S) l O) (hnan : S.nanFree = true) {w : View}
    (hw : (View.select i S).Grows w) (n : Option String) (d : Expr) :
    (Expr.projected w n d).QualifiedBy O.scope l ↔ n.isSome = true := by
  obtain ⟨m, hm, hv, hml⟩ := h.mapping
  have hequal : (m.view == w) = true := by
    rw [hv]
    exact View.beq_of_grows hnan hw
  have hresolve : Scope.resolveLeaf O.scope (.projected w n d) = .ok m := by
    rw [hm]
    exact (Scope.resolveLeaf_singleton (by rw [hv]; rfl) rfl).mpr ⟨rfl, hequal⟩
  rw [Expr.qualifiedBy_iff rfl rfl]
  exact and_iff_left ⟨m, hresolve, hml⟩

theorem project_isOk : (s.project e c).isOk = (s.accept e c).isOk := by
  refine Bool.eq_iff_iff.mpr ⟨fun h => ?_, fun h => ?_⟩
  · obtain ⟨⟨u, c'⟩, hrun⟩ := Except.exists_of_isOk h
    obtain ⟨t, a, hta, -⟩ := project_eq_ok_iff.mp hrun
    rw [hta]
    rfl
  · obtain ⟨⟨⟨t, a⟩, c'⟩, hta⟩ := Except.exists_of_isOk h
    have hrun : s.project e c = .ok (t.enlisting a none e.name?, c') :=
      project_eq_ok_iff.mpr ⟨t, a, hta, rfl⟩
    rw [hrun]
    rfl

/-- The count of the rows of a statement with a key, around that statement: it can always be made, and is accepted
exactly if all of the key can be used around the statement. Then every leaf of the key becomes a reference to a
projection of the statement, and the reference has the alias of the statement in front, if it has a name and no NaN is
in the statement. So there is one such reference for each part of the key if the parts are leaves. -/
theorem count_around (hkeys : (View.select i S).keys c ≠ []) (hS : (View.select i S).Throughout (c.Knows N))
    (hdef : ∀ key ∈ (View.select i S).keys c, key.Definite)
    (hnew : ∀ j r, View.select j r ∈ (View.select i S).inside → r.identity ≠ o) :
    Expr.countRows c (.select i S) = .ok (Expr.countOf ((View.select i S).keys c)) ∧
    ∃ O c₁, (empty o).addSource (.select i S) c = .ok (O, c₁) ∧
      ((O.project (Expr.countOf ((View.select i S).keys c)) c₁).isOk = true ↔
        ∀ key ∈ (View.select i S).keys c, key.usable c i S = true) ∧
      ∀ u c', O.project (Expr.countOf ((View.select i S).keys c)) c₁ = .ok (u, c') → ∃ a,
        u.projections.map (·.definition) = [a] ∧ (Expr.countOf ((View.select i S).keys c)).Rerouted (.select i S) a ∧
        (S.nanFree = true → ∀ leaf ∈ a.leaves,
          leaf.QualifiedBy u.scope "a" ↔ leaf.systemName?.isSome = true) ∧
        ((∀ key ∈ (View.select i S).keys c, key.isLeaf = true) →
          a.leaves.length = ((View.select i S).keys c).length) := by
  have hknown : ∀ key ∈ (View.select i S).keys c, key.Throughout (c.Knows N) :=
    View.throughout_keys (fun _ => trivial) hS
  have hapart : ∀ key ∈ (View.select i S).keys c, Apart o key :=
    View.throughout_keys (fun _ _ _ h => nomatch h) fun w hw j r hwr => hnew j r (hwr ▸ hw)
  obtain ⟨O, hadd, rfl, hnone, haround, hO, hlearns⟩ := exists_addSource_around o hS
  refine ⟨Expr.countRows_eq hkeys, O, c.freshMark.2, hadd, ?_, fun u c' hrun => ?_⟩
  · rw [project_isOk, haround.accept_isOk_eq hlearns rfl hS hO (Expr.throughout_countOf hknown)
      (Expr.definite_countOf hdef) (Expr.throughout_countOf hapart), Expr.usable_countOf]
  · obtain ⟨t, a, hta, rfl⟩ := project_eq_ok_iff.mp hrun
    have haccepts := accept_sound hta
    obtain ⟨-, hrerouted⟩ := haccepts.rerouted haround (Expr.throughout_countOf hapart)
    have hempty : t.projections = [] := haccepts.projections.trans hnone
    rw [enlisting, hempty, if_neg (by simp)]
    refine ⟨a, rfl, hrerouted, fun hnan leaf hleaf => ?_, fun hleaves => ?_⟩
    · obtain ⟨w, n, d, rfl, hw⟩ := hrerouted.leaves.2 leaf hleaf
      have hscope := haccepts.scope
      exact hscope ▸ haround.qualifiedBy_iff hnan hw n d
    · rw [hrerouted.leaves.1, Expr.length_leaves_countOf hleaves]

/-- The people of each city. -/
def peopleByCity : Select :=
  (Call.groupBy (.ofPeople "city")).attempt {} ((Call.addSource (.table people)).attempt {} (.empty 0))

/-- The cities of the people are counted around the statement that has one row for each. -/
theorem peopleByCity_count_around : ∃ key O c₁ u c' a leaf,
    Expr.countRows { nextMark := 8 } (.select 7 peopleByCity) = .ok (.apply .countDistinct [key])
    ∧ (empty 1).addSource (.select 7 peopleByCity) { nextMark := 8 } = .ok (O, c₁)
    ∧ O.project (.apply .countDistinct [key]) c₁ = .ok (u, c') ∧ u.projections.map (·.definition) = [a]
    ∧ a.leaves = [leaf] ∧ (leaf.QualifiedBy u.scope "a" ↔ leaf.systemName?.isSome = true)
    ∧ (u.print {}).toOption
      = some "SELECT COUNT(DISTINCT a.city) FROM (SELECT p.city FROM People p GROUP BY p.city) a" := by
  have htables : ∀ v ∈ peopleByCity.inside, ∃ t, v = .table t := by
    have hall : peopleByCity.inside.all (fun v => v.height == 0) = true := by decide +kernel
    exact fun v hv => View.eq_table_of_height (eq_of_beq (List.all_eq_true.mp hall v hv))
  let N : Nodes := ⟨fun _ => ⟨none, .table people, .table people, .literal .null⟩, fun _ => peopleByCity⟩
  have hS : (View.select 7 peopleByCity).Throughout (Catalog.Knows { nextMark := 8 } N) := by
    refine View.throughout_select.mpr ⟨⟨by decide, rfl⟩, fun v hv => ?_⟩
    obtain ⟨t, rfl⟩ := htables v hv
    trivial
  have hkey : ∃ key, (View.select 7 peopleByCity).keys { nextMark := 8 } = [key] :=
    List.length_eq_one_iff.mp (by decide +kernel)
  obtain ⟨key, hkey⟩ := hkey
  have hgood : ((View.select 7 peopleByCity).keys { nextMark := 8 }).all
      (fun key => key.nanFree && key.inside.all (·.nanFree) && key.isLeaf
        && key.usable { nextMark := 8 } 7 peopleByCity) = true := by decide +kernel
  have hnew : ∀ j r, View.select j r ∈ (View.select 7 peopleByCity).inside → r.identity ≠ 1 := by
    intro j r hr
    have hall : (View.select 7 peopleByCity).inside.all (fun v => v.statement?.all (·.identity != 1)) = true := by
      decide +kernel
    exact bne_iff_ne.mp (List.all_eq_true.mp hall _ hr)
  simp only [hkey, List.all_cons, List.all_nil, Bool.and_true, Bool.and_eq_true] at hgood
  obtain ⟨⟨⟨hnan, hinside⟩, hleaf⟩, husable⟩ := hgood
  obtain ⟨hcount, O, c₁, hadd, hok, hresult⟩ := count_around (hkey ▸ List.cons_ne_nil key []) hS
    (hkey ▸ List.forall_mem_singleton.mpr ⟨hnan, List.all_eq_true.mp hinside⟩) hnew
  simp only [hkey, Expr.countOf, List.forall_mem_singleton] at hcount hok hresult
  obtain ⟨⟨u, c'⟩, hrun⟩ := Except.exists_of_isOk (hok.mpr husable)
  obtain ⟨a, ha, -, hqualified, hlength⟩ := hresult u c' hrun
  obtain ⟨leaf, hleaves⟩ := List.length_eq_one_iff.mp (hlength hleaf)
  refine ⟨key, O, c₁, u, c', a, leaf, hcount, hadd, hrun, ha, hleaves,
    hqualified (by decide +kernel) leaf (hleaves ▸ List.mem_singleton.mpr rfl), ?_⟩
  have hshown : ((empty 1).addSource (.select 7 peopleByCity) { nextMark := 8 }).toOption.map (fun r =>
      (r.1.project (Expr.countOf ((View.select 7 peopleByCity).keys { nextMark := 8 })) r.2).toOption.map fun r =>
        (r.1.print {}).toOption) = some (some (some
          "SELECT COUNT(DISTINCT a.city) FROM (SELECT p.city FROM People p GROUP BY p.city) a")) := by decide +kernel
  rw [hadd, hkey, Expr.countOf] at hshown
  obtain ⟨⟨u', c''⟩, hrun', hprint⟩ := Except.exists_of_toOption (Option.some.inj hshown)
  obtain ⟨rfl, -⟩ := Prod.mk.inj (Except.ok.inj (hrun.symm.trans hrun'))
  exact hprint

/-- The people of each name, by a nested statement. -/
def nestedByName : Select := (Call.groupBy (.ofPeople "name")).attempt {} peopleNames.over

/-- The key is a reference to a projection of the nested statement, which nothing around stands for. -/
theorem nestedByName_count_refused : nestedByName.Reached ∧
    (View.select 9 nestedByName).keys { nextMark := 10 } ≠ [] ∧ ∃ e O c,
      Expr.countRows { nextMark := 10 } (.select 9 nestedByName) = .ok e
      ∧ (empty 2).addSource (.select 9 nestedByName) { nextMark := 10 } = .ok (O, c)
      ∧ (O.project e c).isOk = false := by
  have hreached : nestedByName.Reached := .call peopleNames_over_reached _ {}
  have hshown : (Expr.countRows { nextMark := 10 } (.select 9 nestedByName)).toOption.map (fun e =>
      ((empty 2).addSource (.select 9 nestedByName) { nextMark := 10 }).toOption.map fun r =>
        (r.1.project e r.2).isOk) = some (some false) := by decide +kernel
  obtain ⟨e, he, hshown⟩ := Except.exists_of_toOption hshown
  obtain ⟨⟨O, c⟩, hadd, hrefused⟩ := Except.exists_of_toOption hshown
  refine ⟨hreached, fun hnil => ?_, e, O, c, he, hadd, hrefused⟩
  rw [Expr.countRows, hnil] at he
  cases he

-- an operator in the key is led into the nested statement leaf by leaf
example :
    let sum : Expr := .apply .add [.ofPeople "x", .ofPeople "y"]
    let bySum := (Call.groupBy sum).attempt {} ((Call.addSource (.table people)).attempt {} (.empty 0))
    let around := (Call.addSource (.select 7 bySum)).attempt {} (.empty 1)
    ((Expr.countRows {} (.select 7 bySum)).toOption.map fun e =>
      (((Call.project e).attempt { nextMark := 9 } around).print {}).toOption) = some (some
        "SELECT COUNT(DISTINCT a.x+a.y) FROM (SELECT p.x+p.y, p.x, p.y FROM People p GROUP BY p.x+p.y) a") := by
  decide +kernel

end Select

end SqlCompose
