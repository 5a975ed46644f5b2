import Mathlib.Data.List.Basic
import SqlCompose.Query.Basic

/-!
Replacing the leaves of an expression. The leaves of the result are those of what was put in their places,
one replacement after another is a single one, and nothing counts but what happens to the leaves that are
there. So a law about leaves is a law about expressions.
-/

namespace SqlCompose.Expr

/-- Whether an expression is pinned to a view. -/
def isPinned : Expr → Bool
  | pinned .. => true
  | _ => false

theorem leavesAll_eq : ∀ es : List Expr, leavesAll es = es.flatMap leaves
  | [] => by rw [leavesAll, List.flatMap_nil]
  | e :: es => by rw [leavesAll, List.flatMap_cons, leavesAll_eq es]

theorem mapLeavesAll_eq (f : Expr → Expr) : ∀ es : List Expr, mapLeavesAll f es = es.map (mapLeaves f)
  | [] => by rw [mapLeavesAll, List.map_nil]
  | e :: es => by rw [mapLeavesAll, List.map_cons, mapLeavesAll_eq f es]

theorem mem_leavesAll {leaf : Expr} {es : List Expr} : leaf ∈ leavesAll es ↔ ∃ e ∈ es, leaf ∈ e.leaves := by
  rw [leavesAll_eq, List.mem_flatMap]

theorem mem_mapLeavesAll {f : Expr → Expr} {e : Expr} {es : List Expr} :
    e ∈ mapLeavesAll f es ↔ ∃ b ∈ es, b.mapLeaves f = e := by
  rw [mapLeavesAll_eq, List.mem_map]

theorem leaves_of_isLeaf {e : Expr} (h : e.isLeaf = true) : e.leaves = [e] := by
  cases e with
  | column c => rfl
  | star v => rfl
  | projected v n d => rfl
  | pinned b v => rfl
  | literal v => cases h
  | apply op args => cases h
  | view v => cases h
  | within sc b => cases h

theorem mapLeaves_of_isLeaf (f : Expr → Expr) {e : Expr} (h : e.isLeaf = true) : e.mapLeaves f = f e := by
  cases e with
  | column c => rfl
  | star v => rfl
  | projected v n d => rfl
  | pinned b v => rfl
  | literal v => cases h
  | apply op args => cases h
  | view v => cases h
  | within sc b => cases h

theorem exists_of_isPinned {e : Expr} (h : e.isPinned = true) : ∃ b v, e = .pinned b v := by
  cases e with
  | pinned b v => exact ⟨b, v, rfl⟩
  | column c => cases h
  | star v => cases h
  | projected v n d => cases h
  | literal v => cases h
  | apply op args => cases h
  | view v => cases h
  | within sc b => cases h

theorem unpinned_of_plain {e : Expr} (h : e.isPinned = false) : e.unpinned = e := by
  cases e with
  | pinned b v => cases h
  | column c => rfl
  | star v => rfl
  | projected v n d => rfl
  | literal v => rfl
  | apply op args => rfl
  | view v => rfl
  | within sc b => rfl

mutual

theorem isLeaf_of_mem_leaves {leaf : Expr} : ∀ {e : Expr}, leaf ∈ e.leaves → leaf.isLeaf = true
  | .literal _, h => absurd h List.not_mem_nil
  | .view _, h => absurd h List.not_mem_nil
  | .apply _ args, h => isLeaf_of_mem_leavesAll (show _ ∈ leavesAll args from h)
  | .within _ e, h => isLeaf_of_mem_leaves (e := e) h
  | .column _, h => by rw [List.mem_singleton.mp h]; rfl
  | .star _, h => by rw [List.mem_singleton.mp h]; rfl
  | .projected .., h => by rw [List.mem_singleton.mp h]; rfl
  | .pinned .., h => by rw [List.mem_singleton.mp h]; rfl

theorem isLeaf_of_mem_leavesAll {leaf : Expr} : ∀ {es : List Expr}, leaf ∈ leavesAll es → leaf.isLeaf = true
  | [], h => absurd h List.not_mem_nil
  | _ :: _, h => (List.mem_append.mp h).elim isLeaf_of_mem_leaves isLeaf_of_mem_leavesAll

end

variable {f g : Expr → Expr}

mutual

theorem leaves_mapLeaves (f : Expr → Expr) :
    ∀ e : Expr, (e.mapLeaves f).leaves = e.leaves.flatMap fun leaf => (f leaf).leaves
  | .literal _ => rfl
  | .view _ => rfl
  | .apply _ args => leavesAll_mapLeavesAll f args
  | .within _ e => leaves_mapLeaves f e
  | .column _ => (List.flatMap_singleton ..).symm
  | .star _ => (List.flatMap_singleton ..).symm
  | .projected .. => (List.flatMap_singleton ..).symm
  | .pinned .. => (List.flatMap_singleton ..).symm

theorem leavesAll_mapLeavesAll (f : Expr → Expr) (es : List Expr) :
    leavesAll (mapLeavesAll f es) = (leavesAll es).flatMap fun leaf => (f leaf).leaves := by
  cases es with
  | nil => rfl
  | cons e es =>
      rw [mapLeavesAll, leavesAll, leavesAll, List.flatMap_append, leaves_mapLeaves f e,
        leavesAll_mapLeavesAll f es]

end

/-- Leaves that are replaced by leaves are replaced one by one. -/
theorem leaves_mapLeaves_of_isLeaf {e : Expr} (hf : ∀ leaf ∈ e.leaves, (f leaf).isLeaf = true) :
    (e.mapLeaves f).leaves = e.leaves.map f := by
  rw [leaves_mapLeaves, List.map_eq_flatMap]
  exact List.flatMap_congr fun leaf hleaf => leaves_of_isLeaf (hf leaf hleaf)

mutual

theorem mapLeaves_mapLeaves (f g : Expr → Expr) :
    ∀ e : Expr, (e.mapLeaves f).mapLeaves g = e.mapLeaves fun leaf => (f leaf).mapLeaves g
  | .literal _ => rfl
  | .view _ => rfl
  | .apply op args => congrArg (apply op) (mapLeavesAll_mapLeavesAll f g args)
  | .within s e => congrArg (within s) (mapLeaves_mapLeaves f g e)
  | .column _ => rfl
  | .star _ => rfl
  | .projected .. => rfl
  | .pinned .. => rfl

theorem mapLeavesAll_mapLeavesAll (f g : Expr → Expr) (es : List Expr) :
    mapLeavesAll g (mapLeavesAll f es) = mapLeavesAll (fun leaf => (f leaf).mapLeaves g) es := by
  cases es with
  | nil => rfl
  | cons e es =>
      rw [mapLeavesAll, mapLeavesAll, mapLeavesAll, mapLeaves_mapLeaves f g e,
        mapLeavesAll_mapLeavesAll f g es]

end

mutual

/-- Only the leaves that are there count. -/
theorem mapLeaves_congr : ∀ {e : Expr}, (∀ leaf ∈ e.leaves, f leaf = g leaf) → e.mapLeaves f = e.mapLeaves g
  | .literal _, _ => rfl
  | .view _, _ => rfl
  | .apply op args, h => congrArg (apply op) (mapLeavesAll_congr (show ∀ leaf ∈ leavesAll args, _ from h))
  | .within s e, h => congrArg (within s) (mapLeaves_congr (e := e) h)
  | .column _, h => h _ List.mem_cons_self
  | .star _, h => h _ List.mem_cons_self
  | .projected .., h => h _ List.mem_cons_self
  | .pinned .., h => h _ List.mem_cons_self

theorem mapLeavesAll_congr :
    ∀ {es : List Expr}, (∀ leaf ∈ leavesAll es, f leaf = g leaf) → mapLeavesAll f es = mapLeavesAll g es
  | [], _ => rfl
  | e :: es, h => by
      rw [mapLeavesAll, mapLeavesAll, mapLeaves_congr fun leaf hleaf => h leaf (List.mem_append_left _ hleaf),
        mapLeavesAll_congr fun leaf hleaf => h leaf (List.mem_append_right _ hleaf)]

end

mutual

theorem mapLeaves_id : ∀ e : Expr, e.mapLeaves id = e
  | .literal _ => rfl
  | .view _ => rfl
  | .apply op args => congrArg (apply op) (mapLeavesAll_id args)
  | .within s e => congrArg (within s) (mapLeaves_id e)
  | .column _ => rfl
  | .star _ => rfl
  | .projected .. => rfl
  | .pinned .. => rfl

theorem mapLeavesAll_id (es : List Expr) : mapLeavesAll id es = es := by
  cases es with
  | nil => rfl
  | cons e es => rw [mapLeavesAll, mapLeaves_id e, mapLeavesAll_id es]

end

/-- Replacing the leaves twice is replacing them once, by what becomes of each. -/
theorem mapLeaves_comp {h : Expr → Expr} {e : Expr} (hleaf : ∀ leaf ∈ e.leaves, (f leaf).isLeaf = true)
    (hcomp : ∀ leaf ∈ e.leaves, g (f leaf) = h leaf) : (e.mapLeaves f).mapLeaves g = e.mapLeaves h := by
  rw [mapLeaves_mapLeaves]
  refine mapLeaves_congr fun leaf hmem => ?_
  rw [mapLeaves_of_isLeaf g (hleaf leaf hmem), hcomp leaf hmem]

end SqlCompose.Expr
