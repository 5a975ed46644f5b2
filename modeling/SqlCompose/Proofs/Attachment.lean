import SqlCompose.Proofs.JoinSides
import SqlCompose.Proofs.KeyedJoins
import SqlCompose.Proofs.Qualifiers

/-!
Where the leaves of an ON predicate end up. The source of a join is looked up when the join is added, and the
leaves of its predicate are looked up when the join itself is in scope. If the first look finds a view that
is equal to the declared source or more specific, the pins find the same entry again. If it finds a less
specific one, the pins are looked up as they are, and an entry that equals the declared source, or the new
entry itself, comes before.
-/

namespace SqlCompose

namespace Scope

variable {sc : Scope} {m : Mapping} {v : View}

theorem resolveExact_eq_ok : sc.resolveExact v = .ok m ↔ sc.find? (isMappingOf · v) = some m := by
  rw [resolveExact]
  split
  case h_1 x hx => rw [hx, Except.ok.injEq, Option.some.injEq]
  case h_2 hnone => rw [hnone]; simp

/-- Only a statement answers for the selectors of a statement. -/
theorem isStatement_of_isMappingOf {i : Nat} {q : Select} (h : isMappingOf m (.select i q) = true) :
    m.view.isStatement = true := by
  rw [isMappingOf] at h
  split at h
  case h_1 k j hj =>
    obtain ⟨n, src, target, p⟩ := j
    rw [hj] at h ⊢
    rcases Bool.or_eq_true_iff.mp h with h | h
    · obtain ⟨l, r, hview, -⟩ := View.beq_select.mp (View.beq_symm h)
      cases hview
    · obtain ⟨l, r, rfl, -⟩ := View.beq_select.mp (View.beq_symm h)
      rfl
  case h_2 w hw =>
    obtain ⟨l, r, hview, -⟩ := View.beq_select.mp (View.beq_symm h)
    rw [hview]
    rfl

end Scope

namespace Select

variable {s t : Select} {leaf : Expr}

mutual

/-- What a statement makes of an expression that it accepts, if no leaf belongs to a nested statement: its own
selectors give way to their definitions, and views used as values to what they stand for. -/
def asAccepted (s : Select) : Expr → Expr
  | .literal v => .literal v
  | .apply op args => .apply op (s.asAcceptedAll args)
  | .column c => .column c
  | .star v => .star v
  | .projected v n d => if s.isSelf v then s.asAccepted d else .projected v n d
  | .pinned e v => .pinned e v
  | .view v => (s.acceptView v).toOption.getD (.view v)
  | .within sc e => .within sc e

/-- What a statement makes of all arguments. -/
def asAcceptedAll (s : Select) : List Expr → List Expr
  | [] => []
  | e :: es => s.asAccepted e :: s.asAcceptedAll es

end

theorem asAccepted_of_not_owns (hleaf : leaf.isLeaf = true) (h : s.owns leaf = false) :
    s.asAccepted leaf = leaf := by
  cases leaf with
  | column c => rfl
  | star v => rfl
  | pinned e v => rfl
  | projected v n d =>
      rw [owns] at h
      rw [asAccepted, h, if_neg Bool.false_ne_true]
  | literal v => cases hleaf
  | apply op args => cases hleaf
  | view v => cases hleaf
  | within sc e => cases hleaf

theorem exists_of_owns (h : s.owns leaf = true) : ∃ i q n d, leaf = .projected (.select i q) n d := by
  cases leaf with
  | projected v n d =>
      cases v with
      | select i q => exact ⟨i, q, n, d, rfl⟩
      | table t => cases h
      | concrete m => cases h
      | join i j => cases h
  | column c => cases h
  | star v => cases h
  | pinned e v => cases h
  | literal v => cases h
  | apply op args => cases h
  | view v => cases h
  | within sc e => cases h

/-- A leaf that does not belong to a statement is no reference to a projection of a statement. -/
theorem ne_reference_of_kept {m : Mapping} (hm : Scope.resolveLeaf s.scope leaf = .ok m)
    (hs : m.view.isStatement = false) (i : Nat) (q : Select) (n : Option String) (d : Expr) :
    leaf ≠ .projected (.select i q) n d := by
  rintro rfl
  have hanswers := List.find?_some (Scope.resolveExact_eq_ok.mp hm)
  rw [Scope.isStatement_of_isMappingOf hanswers] at hs
  cases hs

theorem owns_of_kept {m : Mapping} (hm : Scope.resolveLeaf s.scope leaf = .ok m) (hs : m.view.isStatement = false)
    (t : Select) : t.owns leaf = false := by
  refine Bool.eq_false_iff.mpr fun h => ?_
  obtain ⟨i, q, n, d, heq⟩ := exists_of_owns h
  exact ne_reference_of_kept hm hs i q n d heq

/-- No entry of the FROM list is known by the alias of a nested statement that is in scope. -/
def Unrouted (s : Select) : Prop :=
  ∀ m ∈ s.scope, m.view.isStatement = true → ∀ src ∈ s.sources, src.label ≠ m.label

mutual

/-- Nothing but own selectors and views changes when no leaf can be projected. -/
theorem Accepts.eq_asAccepted : ∀ {s t : Select} {e a : Expr}, s.Accepts e t a → s.Unrouted →
    t = s ∧ a = s.asAccepted e
  | _, _, _, _, .literal .., _ => ⟨rfl, rfl⟩
  | _, _, _, _, .apply op h, hs => by
      obtain ⟨rfl, rfl⟩ := h.eq_asAcceptedAll hs
      exact ⟨rfl, rfl⟩
  | _, _, _, _, .own n hv h, hs => by
      obtain ⟨rfl, rfl⟩ := h.eq_asAccepted hs
      rw [asAccepted, if_pos hv]
      exact ⟨rfl, rfl⟩
  | _, _, _, _, .view h, _ => by
      rw [asAccepted, h]
      exact ⟨rfl, rfl⟩
  | s, _, _, _, .kept hleaf hm hview, _ => ⟨rfl, (asAccepted_of_not_owns hleaf (owns_of_kept hm hview s)).symm⟩
  | _, _, _, _, .routed hleaf hm hview hf hb hl hq hp hv, hs => by
      refine absurd hl (hs _ (Scope.resolveLeaf_mem hm) hview _ ?_)
      exact hf ▸ List.mem_append_right _ List.mem_cons_self

theorem AcceptsAll.eq_asAcceptedAll : ∀ {s t : Select} {es as : List Expr}, s.AcceptsAll es t as → s.Unrouted →
    t = s ∧ as = s.asAcceptedAll es
  | _, _, _, _, .nil _, _ => ⟨rfl, rfl⟩
  | _, _, _, _, .cons h htail, hs => by
      obtain ⟨rfl, rfl⟩ := h.eq_asAccepted hs
      obtain ⟨rfl, rfl⟩ := htail.eq_asAcceptedAll hs
      exact ⟨rfl, rfl⟩

end

end Select

/-! One leaf. -/

namespace Expr

mutual

/-- What holds of all views inside an expression holds of those inside its leaves. -/
theorem Throughout.of_mem_leaves {P : View → Prop} {leaf : Expr} : ∀ {e : Expr}, e.Throughout P →
    leaf ∈ e.leaves → leaf.Throughout P
  | .literal _, _, hleaf => absurd hleaf List.not_mem_nil
  | .view _, _, hleaf => absurd hleaf List.not_mem_nil
  | .apply _ args, h, hleaf => Throughout.of_mem_leavesAll (throughout_apply.mp h) hleaf
  | .within _ e, h, hleaf => Throughout.of_mem_leaves (e := e) h hleaf
  | .column _, h, hleaf => by rwa [List.mem_singleton.mp hleaf]
  | .star _, h, hleaf => by rwa [List.mem_singleton.mp hleaf]
  | .projected .., h, hleaf => by rwa [List.mem_singleton.mp hleaf]
  | .pinned .., h, hleaf => by rwa [List.mem_singleton.mp hleaf]

theorem Throughout.of_mem_leavesAll {P : View → Prop} {leaf : Expr} : ∀ {es : List Expr},
    (∀ e ∈ es, e.Throughout P) → leaf ∈ leavesAll es → leaf.Throughout P
  | [], _, hleaf => absurd hleaf List.not_mem_nil
  | e :: es, h, hleaf => by
      rw [List.forall_mem_cons] at h
      exact (List.mem_append.mp hleaf).elim (Throughout.of_mem_leaves h.1) (Throughout.of_mem_leavesAll h.2)

end

theorem leafPieces_of_not_plain {e : Expr} (h : e.isPlain = false) (q : Option String) :
    ∃ cause, leafPieces q e = [.fault cause] := by
  cases e with
  | column col => cases h
  | star v => cases h
  | projected v n d => cases h
  | pinned b v => exact ⟨_, rfl⟩
  | literal v => exact ⟨_, rfl⟩
  | apply op args => exact ⟨_, rfl⟩
  | view v => exact ⟨_, rfl⟩
  | within sc b => exact ⟨_, rfl⟩

/-- A leaf that can be referred to: without its pin it is plain, and it has a name. -/
def Referable (e : Expr) : Prop := e.unpinned.isPlain = true ∧ e.systemName?.isSome = true

/-- A leaf prints with an alias exactly if it can be referred to and resolves to the mapping with this alias. -/
theorem qualifiedBy_iff_referable {e : Expr} {sc : Scope} {label : String} (hleaf : e.isLeaf = true) :
    e.QualifiedBy sc label ↔ e.Referable ∧ ∃ m, sc.resolveLeaf e = .ok m ∧ m.label = label := by
  by_cases hplain : e.unpinned.isPlain = true
  · rw [qualifiedBy_iff hleaf hplain, Referable]
    exact and_congr_left fun _ => ⟨fun hname => ⟨hplain, hname⟩, fun h => h.2⟩
  · refine iff_of_false ?_ fun h => hplain h.1.1
    rintro ⟨x, hx, hq⟩
    have hx := hx {}
    rw [pieces_of_isLeaf hleaf, leafPiecesIn] at hx
    have hfault := leafPieces_of_not_plain (Bool.not_eq_true _ ▸ hplain)
    cases hm : sc.resolveLeaf e with
    | error cause =>
        obtain ⟨other, hother⟩ := hfault none
        rw [hm, resolvedPieces, hother] at hx
        cases hx
    | ok m =>
        obtain ⟨other, hother⟩ := hfault (some m.label)
        rw [hm, resolvedPieces, hother, List.singleton_inj] at hx
        rw [← hx] at hq
        cases hq

end Expr

namespace Join

variable {leaf e : Expr} {v w : View}

theorem isLeaf_moveLeaf (h : leaf.isLeaf = true) : (moveLeaf v leaf).isLeaf = true := by
  unfold moveLeaf
  split
  · rfl
  · exact h

/-- A moved leaf is pinned to nothing but the view it was moved to. -/
theorem eq_of_moveLeaf (h : moveLeaf v leaf = .pinned e w) : w = v := by
  unfold moveLeaf at h
  split at h
  case h_1 => exact (Expr.pinned.inj h).2.symm
  case h_2 hne => exact absurd h (hne e w)

end Join

/-- Whether a leaf without a pin resolves to a mapping that is looked at. -/
def Mapping.answers (m : Mapping) : Expr → Bool
  | .column col => m.view.compatible col.view
  | .star v => m.view.compatible v
  | .projected v _ _ => Scope.isMappingOf m v
  | _ => false

namespace Scope

variable {sc : Scope} {m x : Mapping} {leaf : Expr}

theorem resolveLeaf_eq_ok_of_plain (hleaf : leaf.isLeaf = true) (hplain : leaf.isPinned = false) :
    sc.resolveLeaf leaf = .ok m ↔ sc.find? (·.answers leaf) = some m := by
  cases leaf with
  | column col => exact resolve_eq_ok
  | star v => exact resolve_eq_ok
  | projected v n d => exact resolveExact_eq_ok
  | pinned e v => cases hplain
  | literal v => cases hleaf
  | apply op args => cases hleaf
  | view v => cases hleaf
  | within sc e => cases hleaf

/-- A leaf without a pin is found under a new mapping exactly if that answers. -/
theorem resolves_to_head_iff (hleaf : leaf.isLeaf = true) (hplain : leaf.isPinned = false)
    (hfresh : ∀ y ∈ sc, y.label ≠ x.label) :
    (∃ y, Scope.resolveLeaf (x :: sc) leaf = .ok y ∧ y.label = x.label) ↔ x.answers leaf = true := by
  simp only [resolveLeaf_eq_ok_of_plain hleaf hplain]
  constructor
  · rintro ⟨y, hy, hlabel⟩
    rcases List.mem_cons.mp (List.mem_of_find?_eq_some hy) with rfl | hmem
    · exact List.find?_some (p := fun z : Mapping => z.answers leaf) hy
    · exact absurd hlabel (hfresh y hmem)
  · exact fun h => ⟨x, List.find?_cons_of_pos h, rfl⟩

variable {N : Nodes} {v w : View}

/-- A pin on the view that the declared source resolved to, or on a view that equals the declared source, is
found under the same mapping when a new one is on top, if that is not of the pin. -/
theorem resolvePinned_of_equal (hsc : ∀ y ∈ sc, y.view.Throughout N.Holds) (hv : v.Throughout N.Holds)
    (hw : w.Throughout N.Holds) (hm : sc.resolve v = .ok m) (hx : (x.view == w) = false)
    (heq : (m.view == w) = true) : ∃ y, Scope.resolvePinned (x :: sc) w = .ok y ∧ y.label = m.label :=
  ⟨m, resolvePinned_behind hsc hv hw hm heq hx, rfl⟩

/-- A pin on a view that equals the declared source, where that resolved to another view, is found under the
same mapping exactly if no mapping equals the declared source and the new one is not compatible with it. -/
theorem resolvePinned_of_not_equal (hsc : ∀ y ∈ x :: sc, y.view.Throughout N.Holds)
    (hv : v.Throughout N.Holds) (hw : w.Throughout N.Holds) (hm : sc.resolve v = .ok m)
    (hlabels : ∀ y ∈ sc, y.label = m.label → y = m) (hfresh : ∀ y ∈ sc, y.label ≠ x.label)
    (hwv : (w == v) = true) (hx : (x.view == v) = false) (hne : (m.view == v) = false) :
    (∃ y, Scope.resolvePinned (x :: sc) w = .ok y ∧ y.label = m.label) ↔
      (∀ y ∈ x :: sc, (y.view == v) = false) ∧ x.view.compatible v = false := by
  have hsame : ∀ y ∈ x :: sc, (y.view == w) = (y.view == v) := fun y hy => by
    show y.view.beq w = y.view.beq v
    rw [View.beq_comm y.view w, View.beq_comm y.view v]
    exact View.beq_congr_left hw hv (hsc y hy) hwv
  have hcompatible : ∀ y ∈ x :: sc, y.view.compatible w = y.view.compatible v := fun y hy => by
    rw [View.compatible_comm y.view w, View.compatible_comm y.view v]
    exact View.compatible_congr hw hv (hsc y hy) hwv
  have hmem : m ∈ sc := resolve_mem hm
  rw [resolvePinned]
  constructor
  · rintro ⟨y, hy, hlabel⟩
    split at hy
    case h_1 z hz =>
      -- an older mapping of the declared source itself is found first
      obtain rfl := Except.ok.inj hy
      have hzmem := List.mem_of_find?_eq_some hz
      have hzw : (z.view == w) = true := List.find?_some (p := fun b : Mapping => b.view == w) hz
      rw [hsame z hzmem] at hzw
      rcases List.mem_cons.mp hzmem with rfl | hzmem
      · rw [hx] at hzw
        cases hzw
      · rw [hlabels z hzmem hlabel, hne] at hzw
        cases hzw
    case h_2 hnone =>
      refine ⟨fun z hz => ?_, ?_⟩
      · rw [← hsame z hz]
        simpa using List.find?_eq_none.mp hnone z hz
      · -- the new mapping would be found first
        rw [← hcompatible x List.mem_cons_self]
        by_contra hc
        rw [resolve_head (Bool.not_eq_false _ ▸ hc)] at hy
        obtain rfl := Except.ok.inj hy
        exact hfresh m hmem hlabel.symm
  · rintro ⟨hnone, hc⟩
    have hfind : (x :: sc).find? (·.view == w) = none := by
      refine List.find?_eq_none.mpr fun y hy => ?_
      rw [hsame y hy, hnone y hy]
      exact Bool.false_ne_true
    rw [hfind]
    refine ⟨m, ?_, rfl⟩
    have hskip : ¬ x.view.compatible w = true := by
      rw [hcompatible x List.mem_cons_self, hc]
      exact Bool.false_ne_true
    rw [resolve_eq_ok, List.find?_cons_of_neg (p := fun y : Mapping => y.view.compatible w) hskip,
      List.find?_congr fun y hy => hcompatible y (List.mem_cons_of_mem x hy)]
    exact resolve_eq_ok.mp hm

end Scope

namespace Select

variable {s t u : Select} {e leaf : Expr} {m x : Mapping} {i : Nat} {j l : Join} {c c' : Catalog} {N : Nodes}

/-! The whole predicate. -/

/-- The leaves with a pin print with one alias, and those without a pin with another. -/
def PrintsApart (t : Select) (e : Expr) (source target : String) : Prop :=
  ∀ leaf ∈ e.leaves, (t.asAccepted leaf).QualifiedBy t.scope (if leaf.isPinned then source else target)

/-- What it takes for pins to stay at the mapping that the declared source resolved to: that is the source or
more specific, or else no mapping equals the source and the join cannot stand for it. -/
def KeepsPins (t : Select) (m x : Mapping) (v : View) : Prop :=
  (m.view == v) = true ∨ m.view.inherits v = true
    ∨ (∀ y ∈ t.scope, (y.view == v) = false) ∧ x.view.compatible v = false

/-- What it takes for a predicate to stay between a mapping that the declared source resolved to and the
mapping of the join. -/
structure Attachable (t : Select) (m x : Mapping) (v : View) (e : Expr) : Prop where
  toSource : ∀ leaf ∈ e.leaves, leaf.isPinned = true → t.KeepsPins m x v
  toTarget : ∀ leaf ∈ e.leaves, leaf.isPinned = false → t.owns leaf = false → x.answers leaf = true
  ofOwn : ∀ leaf ∈ e.leaves, t.owns leaf = true → (t.asAccepted leaf).QualifiedBy t.scope x.label
  referable : ∀ leaf ∈ e.leaves, t.owns leaf = false → leaf.Referable

/-- How a join is placed: its pins are moved to the view its source resolves to if that is more specific, and
otherwise it stays as it is. -/
theorem rebase_cases (hm : Scope.resolve s.scope j.source = .ok m) (hl : s.rebase j = .ok l) :
    (m.view.extends? j.source = true ∧ l.source = m.view
        ∧ ∀ leaf ∈ l.predicate.leaves, ∀ e w, leaf = .pinned e w → w = m.view)
      ∨ m.view.extends? j.source = false ∧ l = j := by
  obtain ⟨y, hy, hl⟩ := bind_eq_ok.mp hl
  obtain rfl : m = y := Except.ok.inj (hm.symm.trans hy)
  dsimp only at hl
  split at hl
  case isFalse hextends => exact Or.inr ⟨Bool.eq_false_iff.mpr hextends, (Except.ok.inj hl).symm⟩
  case isTrue hextends =>
    rw [Join.changeSource] at hl
    split at hl
    case isFalse => cases hl
    case isTrue =>
      obtain rfl := Except.ok.inj hl
      refine Or.inl ⟨hextends, rfl, fun leaf hleaf e w heq => ?_⟩
      rw [Expr.leaves_mapLeaves_of_isLeaf fun old hold => Join.isLeaf_moveLeaf (Expr.isLeaf_of_mem_leaves hold)]
        at hleaf
      obtain ⟨old, -, hold⟩ := List.mem_map.mp hleaf
      exact Join.eq_of_moveLeaf (hold.trans heq)

/-- A pinned leaf of a join as it is placed prints with the alias of the mapping that the declared source
resolved to, if that is the declared source or extends it, or if neither an older entry equals the declared
source nor the join is compatible with it. -/
theorem pinned_iff {k : Nat} {b : Expr} {w : View} (hscope : t.scope = x :: s.scope) (hx : x.view = .join k l)
    (hlabels : ∀ y ∈ s.scope, y.label = m.label → y = m) (hfresh : ∀ y ∈ s.scope, y.label ≠ x.label)
    (hsc : ∀ y ∈ t.scope, y.view.Throughout N.Holds) (hj : (View.join i j).Throughout N.Holds)
    (hm : Scope.resolve s.scope j.source = .ok m) (hl : s.rebase j = .ok l)
    (hpins : ∀ leaf ∈ j.predicate.leaves, ∀ e v, leaf = .pinned e v → (v == j.source) = true)
    (hleaf : .pinned b w ∈ l.predicate.leaves) :
    (∃ y, Scope.resolveLeaf t.scope (.pinned b w) = .ok y ∧ y.label = m.label) ↔ t.KeepsPins m x j.source := by
  rw [KeepsPins]
  rw [hscope] at hsc ⊢
  have hnode : (View.join k l).Throughout N.Holds := hx ▸ hsc x List.mem_cons_self
  have hbelow : ∀ y ∈ s.scope, y.view.Throughout N.Holds := fun y hy => hsc y (List.mem_cons_of_mem x hy)
  have hsource : j.source.Throughout N.Holds := hj.join.source
  have hw : w.Throughout N.Holds :=
    (Expr.throughout_pinned.mp (Expr.Throughout.of_mem_leaves hnode.join.predicate hleaf)).2
  rcases rebase_cases hm hl with ⟨hextends, hmoved, hleaves⟩ | ⟨hextends, rfl⟩
  · obtain rfl := hleaves _ hleaf b w rfl
    have hother : (x.view == m.view) = false := by
      rw [hx, ← hmoved]
      exact Bool.eq_false_iff.mpr (N.join_ne_source hnode)
    have hinherits : m.view.inherits j.source = true := ((Bool.and_eq_true _ _).mp hextends).2
    exact iff_of_true (Scope.resolvePinned_of_equal hbelow hsource hw hm hother (View.beq_self _))
      (Or.inr (Or.inl hinherits))
  · have hwj : (w == l.source) = true := hpins _ hleaf b w rfl
    have hother : (x.view == l.source) = false := by
      rw [hx]
      exact Bool.eq_false_iff.mpr (N.join_ne_source hnode)
    by_cases heq : (m.view == l.source) = true
    · have hmw : (m.view == w) = true :=
        View.beq_trans (hbelow m (Scope.resolve_mem hm)) hsource hw heq (View.beq_symm hwj)
      have hxw : (x.view == w) = false := by
        refine Bool.eq_false_iff.mpr fun hxw => ?_
        have hxsource : (x.view == l.source) = true :=
          View.beq_trans (hsc x List.mem_cons_self) hw hsource hxw hwj
        rw [hother] at hxsource
        cases hxsource
      exact iff_of_true (Scope.resolvePinned_of_equal hbelow hsource hw hm hxw hmw) (Or.inl heq)
    · have hne : (m.view == l.source) = false := Bool.eq_false_iff.mpr heq
      have hinherits : m.view.inherits l.source = false := by
        rw [View.extends?, hne] at hextends
        exact hextends
      simp only [hne, hinherits, Bool.false_eq_true, false_or]
      exact Scope.resolvePinned_of_not_equal hsc hsource hw hm hlabels hfresh hwj hother hne

/-- What is made of a leaf prints with an alias exactly if the leaf can be referred to and resolves to it. -/
theorem qualifiedBy_asAccepted_iff {label : String} (hleaf : leaf.isLeaf = true) (hown : t.owns leaf = false) :
    (t.asAccepted leaf).QualifiedBy t.scope label
      ↔ leaf.Referable ∧ ∃ y, Scope.resolveLeaf t.scope leaf = .ok y ∧ y.label = label := by
  rw [asAccepted_of_not_owns hleaf hown]
  exact Expr.qualifiedBy_iff_referable hleaf

theorem printsApart_iff {k : Nat} (hscope : t.scope = x :: s.scope) (hx : x.view = .join k l)
    (hlabels : ∀ y ∈ s.scope, y.label = m.label → y = m) (hfresh : ∀ y ∈ s.scope, y.label ≠ x.label)
    (hsc : ∀ y ∈ t.scope, y.view.Throughout N.Holds) (hj : (View.join i j).Throughout N.Holds)
    (hm : Scope.resolve s.scope j.source = .ok m) (hl : s.rebase j = .ok l)
    (hpins : ∀ leaf ∈ j.predicate.leaves, ∀ e v, leaf = .pinned e v → (v == j.source) = true) :
    t.PrintsApart l.predicate m.label x.label ↔ t.Attachable m x j.source l.predicate := by
  have hqualified : ∀ leaf ∈ l.predicate.leaves, t.owns leaf = false → ∀ label,
      (t.asAccepted leaf).QualifiedBy t.scope label
        ↔ leaf.Referable ∧ ∃ y, Scope.resolveLeaf t.scope leaf = .ok y ∧ y.label = label :=
    fun leaf hleaf hown _ => qualifiedBy_asAccepted_iff (Expr.isLeaf_of_mem_leaves hleaf) hown
  have hpinned : ∀ leaf ∈ l.predicate.leaves, leaf.isPinned = true → t.owns leaf = false
      ∧ ((∃ y, Scope.resolveLeaf t.scope leaf = .ok y ∧ y.label = m.label) ↔ t.KeepsPins m x j.source) := by
    intro leaf hleaf hpin
    obtain ⟨b, w, rfl⟩ := Expr.exists_of_isPinned hpin
    exact ⟨rfl, pinned_iff hscope hx hlabels hfresh hsc hj hm hl hpins hleaf⟩
  have hplain : ∀ leaf ∈ l.predicate.leaves, leaf.isPinned = false →
      ((∃ y, Scope.resolveLeaf t.scope leaf = .ok y ∧ y.label = x.label) ↔ x.answers leaf = true) := by
    intro leaf hleaf hpin
    rw [hscope]
    exact Scope.resolves_to_head_iff (Expr.isLeaf_of_mem_leaves hleaf) hpin hfresh
  constructor
  · intro h
    refine ⟨fun leaf hleaf hpin => ?_, fun leaf hleaf hpin hown => ?_, fun leaf hleaf hown => ?_,
      fun leaf hleaf hown => ((hqualified leaf hleaf hown _).mp (h leaf hleaf)).1⟩
    · obtain ⟨hown, hiff⟩ := hpinned leaf hleaf hpin
      have hprints := h leaf hleaf
      rw [if_pos hpin] at hprints
      exact hiff.mp ((hqualified leaf hleaf hown _).mp hprints).2
    · have hprints := h leaf hleaf
      rw [hpin, if_neg Bool.false_ne_true] at hprints
      exact (hplain leaf hleaf hpin).mp ((hqualified leaf hleaf hown _).mp hprints).2
    · have hprints := h leaf hleaf
      obtain ⟨n, q, name, d, rfl⟩ := exists_of_owns hown
      exact hprints
  · intro h leaf hleaf
    by_cases hpin : leaf.isPinned = true
    · obtain ⟨hown, hiff⟩ := hpinned leaf hleaf hpin
      rw [if_pos hpin]
      exact (hqualified leaf hleaf hown _).mpr
        ⟨h.referable leaf hleaf hown, hiff.mpr (h.toSource leaf hleaf hpin)⟩
    · rw [if_neg hpin]
      have hpin := Bool.eq_false_iff.mpr hpin
      by_cases hown : t.owns leaf = true
      · exact h.ofOwn leaf hleaf hown
      · have hown := Bool.eq_false_iff.mpr hown
        exact (hqualified leaf hleaf hown _).mpr
          ⟨h.referable leaf hleaf hown, (hplain leaf hleaf hpin).mpr (h.toTarget leaf hleaf hpin hown)⟩

/-- A new alias leaves every leaf unrouted, if no statement is among the sources. -/
theorem Linked.unrouted (h : s.Linked) (hplain : ∀ src ∈ s.sources, src.view.isStatement = false)
    (hfresh : x.label ∉ s.aliases.taken) (pool : AliasPool) : (s.entered x pool).Unrouted := by
  intro y hy hstatement src hsrc hlabel
  rcases List.mem_cons.mp hy with rfl | hy
  · exact hfresh (hlabel ▸ h.taken src hsrc)
  · rw [h.scope_not_statement hplain y hy] at hstatement
    cases hstatement

/-- Without a statement among the sources, adding a join appends one entry, and its predicate is the one of the
join as it is placed, but for own selectors and views. -/
theorem Linked.addSource_join (hs : s.Linked) (hplain : ∀ src ∈ s.sources, src.view.isStatement = false)
    (h : s.addSource (.join i j) c = .ok (u, c')) : ∃ (l : Join) (mark k : Nat) (a : String) (pool : AliasPool)
      (t : Select), s.rebase j = .ok l ∧ a ∉ s.aliases.taken ∧ t = s.entered ⟨mark, .join k l, a⟩ pool
        ∧ u = t.listing ⟨.join k l, a, t.scope, some (t.asAccepted l.predicate)⟩ := by
  obtain ⟨l, mark, k, a, pool, t, e, hl, ha, hacc, rfl⟩ := addSource_join_eq_ok h
  have hnew := (s.aliases.viewAlias_spec (View.join k l).name?).1
  rw [ha] at hnew
  obtain ⟨rfl, rfl⟩ := hacc.eq_asAccepted (hs.unrouted (x := ⟨mark, .join k l, a⟩) hplain hnew pool)
  exact ⟨l, mark, k, a, pool, _, hl, hnew, rfl, rfl⟩

/-- A table is never less specific than what it resolves to. -/
theorem table_toSource {v : Table} (hm : Scope.resolve s.scope (.table v) = .ok m) :
    (m.view == .table v) = true ∨ m.view.inherits (.table v) = true := by
  have hcompatible : m.view.compatible (.table v) = true :=
    List.find?_some (p := fun y : Mapping => y.view.compatible (.table v)) (Scope.resolve_eq_ok.mp hm)
  by_cases hinherits : m.view.inherits (.table v) = true
  · exact Or.inr hinherits
  · refine Or.inl (View.beq_of_not_extends hcompatible ?_)
    rw [View.extends?, Bool.eq_false_iff.mpr hinherits, Bool.and_false]

/-- A join without a statement among the sources attaches its source side to the entry that its declared source
resolved to, and everything else to the new entry, exactly under these conditions: that entry is the declared
source or more specific, or else no entry equals the declared source and the join cannot stand for it; the new
entry answers to the leaves without a pin, and own selectors have definitions in it; and every leaf can be
referred to. The condition on the source holds if the declared source is a table. -/
theorem Reached.join_attaches_iff (hs : s.Reached) (hplain : ∀ src ∈ s.sources, src.view.isStatement = false)
    (hpins : ∀ leaf ∈ j.predicate.leaves, ∀ e v, leaf = .pinned e v → (v == j.source) = true)
    (hj : (View.join i j).Throughout N.Holds) (h : s.addSource (.join i j) c = .ok (u, c'))
    (hN : u.Throughout N.Holds) : ∃ (m x : Mapping) (k : Nat) (l : Join) (t : Select),
      Scope.resolve s.scope j.source = .ok m ∧ s.rebase j = .ok l ∧ x.view = .join k l
        ∧ x.label ∉ s.aliases.taken ∧ t.sources = s.sources ∧ t.scope = x :: s.scope
        ∧ u.sources = s.sources ++ [⟨x.view, x.label, t.scope, some (t.asAccepted l.predicate)⟩]
        ∧ (t.PrintsApart l.predicate m.label x.label ↔ t.Attachable m x j.source l.predicate)
        ∧ ∀ v, j.source = .table v → (m.view == j.source) = true ∨ m.view.inherits j.source = true := by
  have hlinked := hs.linked
  obtain ⟨l, mark, k, a, pool, t, hl, hnew, rfl, rfl⟩ := hlinked.addSource_join hplain h
  obtain ⟨m, hm, -⟩ := bind_eq_ok.mp hl
  have hfresh : ∀ y ∈ s.scope, y.label ≠ a := by
    intro y hy hlabel
    obtain ⟨src, hsrc, hsrcy, -⟩ := hlinked.mapped y hy
    exact hnew (hlabel ▸ hsrcy ▸ hlinked.taken src hsrc)
  have hlabels : ∀ y ∈ s.scope, y.label = m.label → y = m := fun y hy hlabel =>
    hs.eq_of_label hy (Scope.resolve_mem hm) hlabel
  have hscope := Select.Throughout.scope hN
  refine ⟨m, ⟨mark, .join k l, a⟩, k, l, s.entered ⟨mark, .join k l, a⟩ pool, hm, hl, rfl, hnew, rfl, rfl,
    rfl, ?_, fun v hv => ?_⟩
  · exact printsApart_iff rfl rfl hlabels hfresh hscope hj hm hl hpins
  · rw [hv] at hm ⊢
    exact table_toSource hm

-- the managers of the managers: the people resolve to the managers, and the pins move there
example : (((Call.addSource (.join 5 managers)).attempt { keyedPeople with nextMark := 10 }
      ((Call.addSource (.join 5 managers)).attempt keyedPeople peopleNames)).print {}).toOption
    = some ("SELECT p.name FROM People p INNER JOIN People m ON p.MANAGER_ID=m.ID AND p.COUNTRY=m.COUNTRY "
      ++ "INNER JOIN People m1 ON m.MANAGER_ID=m1.ID AND m.COUNTRY=m1.COUNTRY") := by
  decide +kernel

theorem mem_leaves_managers {leaf : Expr} (h : leaf ∈ managers.predicate.leaves) :
    (∃ n, leaf = .pinned (.ofPeople n) (.table people)) ∨ ∃ n, leaf = .ofPeople n := by
  have hleaves : managers.predicate.leaves = [.pinned (.ofPeople "MANAGER_ID") (.table people),
      .ofPeople "ID", .pinned (.ofPeople "COUNTRY") (.table people), .ofPeople "COUNTRY"] := rfl
  rw [hleaves] at h
  simp only [List.mem_cons, List.not_mem_nil, or_false] at h
  rcases h with rfl | rfl | rfl | rfl
  · exact Or.inl ⟨_, rfl⟩
  · exact Or.inr ⟨_, rfl⟩
  · exact Or.inl ⟨_, rfl⟩
  · exact Or.inr ⟨_, rfl⟩

theorem pins_managers : ∀ leaf ∈ managers.predicate.leaves, ∀ e v, leaf = .pinned e v →
    (v == managers.source) = true := by
  intro leaf hleaf e v heq
  rcases mem_leaves_managers hleaf with ⟨n, rfl⟩ | ⟨n, rfl⟩
  · obtain ⟨-, rfl⟩ := Expr.pinned.inj heq
    exact View.beq_self _
  · cases heq

/-- Where every mark is a node of the managers, such a node holds, since it is over tables. -/
theorem throughout_managers (h : ∀ i, N.join i = managers) (i : Nat) :
    (View.join i managers).Throughout N.Holds := by
  have hpeople : (View.table people).Throughout N.Holds := View.throughout_table.mpr trivial
  have hmade : Expr.conjunction (Expr.keyEqualities (.table people) (ofManager.map (Column.mk people))
      (keyedPeople.keyColumns people)) = .ok managers.predicate := rfl
  exact View.throughout_join.mpr
    ⟨h i, hpeople, hpeople, Expr.throughout_keyed hmade hpeople fun _ => trivial⟩

/-- All leaves of the managers can be referred to, and those without a pin are columns of the target. -/
theorem attachable_managers {v : View} {k : Nat} (hx : x.view = .join k managers)
    (hm : (m.view == v) = true ∨ m.view.inherits v = true) : t.Attachable m x v managers.predicate where
  toSource _ _ _ := hm.imp_right Or.inl
  toTarget leaf hleaf hpin _ := by
    rcases mem_leaves_managers hleaf with ⟨n, rfl⟩ | ⟨n, rfl⟩
    · cases hpin
    · exact View.compatible_of_columnTable (hx ▸ rfl)
  ofOwn leaf hleaf hown := by
    rcases mem_leaves_managers hleaf with ⟨n, rfl⟩ | ⟨n, rfl⟩
    · cases hown
    · cases hown
  referable leaf hleaf _ := by
    rcases mem_leaves_managers hleaf with ⟨n, rfl⟩ | ⟨n, rfl⟩
    · exact ⟨rfl, rfl⟩
    · exact ⟨rfl, rfl⟩

/-- The people and their managers have an alias each. -/
theorem managers_attached : ∃ (m x : Mapping) (u t : Select) (c : Catalog) (N : Nodes),
    peopleNames.Reached ∧ (∀ src ∈ peopleNames.sources, src.view.isStatement = false)
      ∧ (∀ leaf ∈ managers.predicate.leaves, ∀ e v, leaf = .pinned e v → (v == managers.source) = true)
      ∧ (View.join 5 managers).Throughout N.Holds
      ∧ peopleNames.addSource (.join 5 managers) keyedPeople = .ok (u, c) ∧ u.Throughout N.Holds
      ∧ Scope.resolve peopleNames.scope managers.source = .ok m ∧ m.label = "p" ∧ x.label = "m"
      ∧ u.sources = peopleNames.sources ++ [⟨x.view, x.label, t.scope, some (t.asAccepted managers.predicate)⟩]
      ∧ t.PrintsApart managers.predicate m.label x.label := by
  have hreached : peopleNames.Reached := .call (.call (.empty 0) _ {}) _ {}
  have hplain : ∀ src ∈ peopleNames.sources, src.view.isStatement = false := by decide +kernel
  obtain ⟨m, hm, hsource⟩ := Except.exists_of_toOption (f := fun m => (m.label, m.view.extends? managers.source))
    (b := ("p", false)) (x := Scope.resolve peopleNames.scope managers.source) (by decide +kernel)
  obtain ⟨hlabel, hextends⟩ := Prod.mk.inj hsource
  obtain ⟨⟨u, c⟩, hu, hlabels⟩ := Except.exists_of_toOption (f := fun r => r.1.sources.map (·.label))
    (b := ["p", "m"]) (x := peopleNames.addSource (.join 5 managers) keyedPeople) (by decide +kernel)
  have hplaced : ∀ {l : Join}, peopleNames.rebase managers = .ok l → l = managers := by
    intro l hl
    rcases rebase_cases hm hl with ⟨hmoved, -⟩ | ⟨-, hl⟩
    · rw [hextends] at hmoved
      cases hmoved
    · exact hl
  -- the only node is the join, as it was given and as it was placed, and all other views are tables
  let N : Nodes := ⟨fun _ => managers, fun _ => peopleNames⟩
  have hnode := throughout_managers (N := N) fun _ => rfl
  have hN : u.Throughout N.Holds := by
    obtain ⟨l, mark, k, a, pool, t, hl, -, rfl, rfl⟩ := hreached.linked.addSource_join hplain hu
    obtain rfl := hplaced hl
    have htables : peopleNames.Throughout N.Holds := by
      intro v hv
      obtain ⟨t, rfl⟩ := mem_inside_peopleNames hv
      trivial
    refine (htables.entered (hnode k) pool).listing (hnode k) fun e he => ?_
    exact Option.some.inj he ▸ (hnode k).join.predicate
  obtain ⟨m', x, k, l, t, hm', hl, hx, -, -, -, hsources, hiff, htable⟩ :=
    hreached.join_attaches_iff hplain pins_managers (hnode 5) hu hN
  obtain rfl : m = m' := Except.ok.inj (hm.symm.trans hm')
  obtain rfl := hplaced hl
  have hbefore : peopleNames.sources.map (·.label) = ["p"] := by decide +kernel
  dsimp only at hlabels
  rw [hsources, List.map_append, hbefore] at hlabels
  have hnew : x.label = "m" := (List.cons.inj (List.cons.inj hlabels).2).1
  exact ⟨m, x, u, t, c, N, hreached, hplain, pins_managers, hnode 5, hu, hN, hm, hlabel, hnew, hsources,
    hiff.mpr (attachable_managers hx (htable people rfl))⟩

/-- The managers of the people in a fixed table. -/
def ofFixedPeople : Join := ⟨some "Manager", .concrete people, .table people,
  .equals (.pinned (.ofPeople "MANAGER_ID") (.concrete people)) (.ofPeople "ID")⟩

/-- A fixed table resolves to the table it was made from, and the pins on it to the join. -/
theorem ofFixedPeople_misattached : peopleNames.Reached
    ∧ (∀ src ∈ peopleNames.sources, src.view.isStatement = false)
    ∧ Join.make (some "Manager") (.concrete people) (.table people) ofFixedPeople.predicate = .ok ofFixedPeople
    ∧ (∀ leaf ∈ ofFixedPeople.predicate.leaves, ∀ e v, leaf = .pinned e v →
      (v == ofFixedPeople.source) = true)
    ∧ ∃ (m : Mapping) (u : Select) (c : Catalog),
      Scope.resolve peopleNames.scope ofFixedPeople.source = .ok m ∧ m.label = "p"
        ∧ peopleNames.addSource (.join 5 ofFixedPeople) {} = .ok (u, c)
        ∧ (u.print {}).toOption = some "SELECT p.name FROM People p INNER JOIN People m ON m.MANAGER_ID=m.ID"
        ∧ ∃ x ∈ u.sources, ∃ e leaf, x.on = some e ∧ leaf ∈ e.leaves ∧ leaf.isPinned = true
          ∧ (leaf.pieces {} x.scope).map Piece.qualifier? = [some "m"] ∧ ¬ leaf.QualifiedBy x.scope m.label := by
  have hreached : peopleNames.Reached := .call (.call (.empty 0) _ {}) _ {}
  have hplain : ∀ src ∈ peopleNames.sources, src.view.isStatement = false := by decide +kernel
  have htarget : Join.attachLeaf (.concrete people) (.table people) (.ofPeople "ID") = .ofPeople "ID" := by
    rw [Join.attachLeaf_of_owner rfl, if_neg (by decide +kernel)]
  have hattached : ofFixedPeople.predicate.mapLeaves (Join.attachLeaf (.concrete people) (.table people))
      = ofFixedPeople.predicate :=
    congrArg (fun leaf => Expr.equals (.pinned (.ofPeople "MANAGER_ID") (.concrete people)) leaf) htarget
  have hmake : Join.make (some "Manager") (.concrete people) (.table people) ofFixedPeople.predicate
      = .ok ofFixedPeople := by
    refine Join.make_iff.mpr ⟨by decide +kernel, by decide +kernel, Or.inl (by decide +kernel), ?_⟩
    rw [hattached]
    rfl
  have hpins : ∀ leaf ∈ ofFixedPeople.predicate.leaves, ∀ e v, leaf = .pinned e v →
      (v == ofFixedPeople.source) = true := by
    intro leaf hleaf e v heq
    rcases List.mem_cons.mp hleaf with rfl | hleaf
    · obtain ⟨-, rfl⟩ := Expr.pinned.inj heq
      exact View.beq_self _
    · rw [List.mem_singleton.mp hleaf] at heq
      cases heq
  obtain ⟨m, hm, hlabel⟩ := Except.exists_of_toOption (f := Mapping.label) (b := "p")
    (x := Scope.resolve peopleNames.scope ofFixedPeople.source) (by decide +kernel)
  obtain ⟨⟨u, c⟩, hu, htext⟩ := Except.exists_of_toOption (f := fun r => (r.1.print {}).toOption)
    (b := some "SELECT p.name FROM People p INNER JOIN People m ON m.MANAGER_ID=m.ID")
    (x := peopleNames.addSource (.join 5 ofFixedPeople) {}) (by decide +kernel)
  have hlast : (peopleNames.addSource (.join 5 ofFixedPeople) {}).toOption.bind (fun r =>
      r.1.sources.getLast?.bind fun x => x.on.map fun e =>
        e.leaves.map fun leaf => (leaf.isPinned, (leaf.pieces {} x.scope).map Piece.qualifier?))
      = some [(true, [some "m"]), (false, [some "m"])] := by decide +kernel
  rw [hu] at hlast
  obtain ⟨r, hr, hlast⟩ := Option.bind_eq_some_iff.mp hlast
  obtain rfl := Option.some.inj hr
  obtain ⟨x, hx, hon⟩ := Option.bind_eq_some_iff.mp hlast
  obtain ⟨e, he, hleaves⟩ := Option.map_eq_some_iff.mp hon
  obtain ⟨leaf, rest, hleaf, hpair, -⟩ := List.map_eq_cons_iff.mp hleaves
  obtain ⟨hpin, hpieces⟩ := Prod.mk.inj hpair
  refine ⟨hreached, hplain, hmake, hpins, m, u, c, hm, hlabel, hu, htext, x, List.mem_of_getLast? hx, e, leaf, he,
    hleaf ▸ List.mem_cons_self, hpin, hpieces, ?_⟩
  rintro ⟨y, hy, hq⟩
  rw [hy, List.map_singleton, hq, hlabel] at hpieces
  simp at hpieces

end Select

end SqlCompose
