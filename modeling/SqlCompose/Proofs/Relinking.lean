import SqlCompose.Proofs.Attachment
import SqlCompose.Proofs.Canonical

/-!
Moving an expression to another view and back. If all leaves belong to views equal to one view, they share the
fate of that view: all of them are pinned to the target, if it is a different view that inherits from theirs, and
none of them otherwise. Moved back, each leaf finds its owner and loses the pin, so the expression is what it was.
-/

namespace SqlCompose

theorem Literal.beq_self_iff {v : Literal} : (v == v) = true ↔ v.isNaN = false := by
  refine ⟨fun h => ?_, Literal.beq_self⟩
  cases v with
  | double x =>
      change (!x.isNaN && !x.isNaN && (x.bits == x.bits || x.isZero && x.isZero)) = true at h
      have hx : x.isNaN = false := by simpa using h
      exact hx
  | string s => rfl
  | integer i => rfl
  | boolean b => rfl
  | null => rfl

namespace Expr

/-! Constants. -/

mutual

/-- The constants of an expression, with those of the definitions it refers to. -/
def constants : Expr → List Literal
  | literal v => [v]
  | apply _ args => constantsAll args
  | column _ => []
  | star _ => []
  | projected _ _ d => d.constants
  | view _ => []
  | pinned e _ => e.constants
  | within _ e => e.constants

/-- The constants of some arguments. -/
def constantsAll : List Expr → List Literal
  | [] => []
  | e :: es => e.constants ++ constantsAll es

end

mutual

/-- An expression is equal to itself exactly if no constant of it is a NaN: its views are the same nodes. -/
theorem beq_self_iff : ∀ e : Expr, e.beq e = true ↔ ∀ v ∈ e.constants, v.isNaN = false
  | literal v => by
      have hself : (literal v).beq (literal v) = true ↔ (v == v) = true := by simp [beq_literal, core]
      rw [constants, List.forall_mem_singleton, hself, Literal.beq_self_iff]
  | apply op args => by
      have hself : (apply op args).beq (apply op args) = true ↔ beqAll args args = true := by
        simp [beq_apply, core]
      rw [constants, hself, beqAll_self_iff args]
  | column c => iff_of_true (beq_column.mpr ⟨c, rfl, by
      exact Bool.and_eq_true_iff.mpr ⟨beq_self_eq_true c.table.name, beq_self_eq_true c.name⟩⟩) nofun
  | star v => iff_of_true (beq_star.mpr ⟨v, rfl, v.beq_self⟩) nofun
  | projected v n d => by
      rw [Expr.beq, beq_congr_core (b := projected v n d) (d := d) rfl]
      exact beq_self_iff d
  | view v => iff_of_true (beq_view.mpr ⟨v, rfl, v.beq_self⟩) nofun
  | pinned e v => by
      rw [Expr.beq, beq_congr_core (b := pinned e v) (d := e) rfl]
      exact beq_self_iff e
  | within sc e => by
      rw [Expr.beq, beq_congr_core (b := within sc e) (d := e) rfl]
      exact beq_self_iff e

theorem beqAll_self_iff (es : List Expr) : beqAll es es = true ↔ ∀ v ∈ constantsAll es, v.isNaN = false := by
  cases es with
  | nil => exact iff_of_true (by rw [beqAll]) (List.forall_mem_nil _)
  | cons e es =>
      rw [beqAll, Bool.and_eq_true, constantsAll, List.forall_mem_append, beq_self_iff e, beqAll_self_iff es]

end

/-! Names and precedence. -/

/-- An expression goes by the same names as another one, and binds as tightly. -/
structure NamedAlike (e e' : Expr) : Prop where
  name : e'.name? = e.name?
  systemName : e'.systemName? = e.systemName?
  precedence : e'.precedence = e.precedence

theorem NamedAlike.refl (e : Expr) : e.NamedAlike e := ⟨rfl, rfl, rfl⟩

theorem NamedAlike.mapLeaves {f : Expr → Expr} :
    ∀ {e : Expr}, (∀ leaf ∈ e.leaves, leaf.NamedAlike (f leaf)) → e.NamedAlike (e.mapLeaves f)
  | literal _, _ => .refl _
  | apply .., _ => ⟨rfl, rfl, rfl⟩
  | column _, h => h _ List.mem_cons_self
  | star _, h => h _ List.mem_cons_self
  | projected .., h => h _ List.mem_cons_self
  | view _, _ => .refl _
  | pinned .., h => h _ List.mem_cons_self
  | within _ e, h => by
      obtain ⟨hname, hsystem, hprecedence⟩ := NamedAlike.mapLeaves (e := e) h
      exact ⟨hname, hsystem, hprecedence⟩

/-! Leaves that one view owns. -/

variable {o t w : View} {e leaf : Expr} {N : Nodes}

/-- Every leaf of an expression is without a pin and belongs to a view equal to the given one. -/
def OwnedBy (o : View) (e : Expr) : Prop := ∀ leaf ∈ e.leaves, ∃ w, leaf.owner? = some w ∧ (w == o) = true

theorem isLeaf_of_owner (h : leaf.owner? = some w) : leaf.isLeaf = true := by
  cases leaf with
  | column c => rfl
  | star v => rfl
  | projected v n d => rfl
  | literal v => cases h
  | apply op args => cases h
  | view v => cases h
  | pinned e v => cases h
  | within sc e => cases h

theorem relinkLeaf_of_owner (h : leaf.unpinned.owner? = some w) (t : View) : leaf.relinkLeaf t =
    if w == t then leaf.unpinned else if t.inherits w then .pinned leaf.unpinned t else leaf := by
  rw [relinkLeaf, h]

/-- A leaf that is moved stays as it is, or is pinned to the target. -/
theorem relinkLeaf_cases (h : leaf.owner? = some w) (t : View) :
    leaf.relinkLeaf t = leaf ∨ leaf.relinkLeaf t = .pinned leaf t := by
  have hplain : leaf.unpinned = leaf := unpinned_of_plain (isPinned_of_owner h)
  rw [relinkLeaf_of_owner (hplain.symm ▸ h), hplain]
  split
  · exact .inl rfl
  · split
    · exact .inr rfl
    · exact .inl rfl

/-- Back at its owner a leaf is without a pin, wherever it was moved to. -/
theorem relinkLeaf_relinkLeaf (h : leaf.owner? = some w) (hw : (w == o) = true) (t : View) :
    (leaf.relinkLeaf t).relinkLeaf o = leaf := by
  have hplain : leaf.unpinned = leaf := unpinned_of_plain (isPinned_of_owner h)
  rcases relinkLeaf_cases h t with hleaf | hleaf
  · rw [hleaf, relinkLeaf_of_owner (hplain.symm ▸ h), if_pos hw, hplain]
  · have howner : (Expr.pinned leaf t).unpinned.owner? = some w := h
    rw [hleaf, relinkLeaf_of_owner howner, if_pos hw, unpinned]

theorem namedAlike_relinkLeaf (h : leaf.owner? = some w) (t : View) : leaf.NamedAlike (leaf.relinkLeaf t) := by
  rcases relinkLeaf_cases h t with hleaf | hleaf
  · rw [hleaf]
    exact .refl leaf
  · rw [hleaf]
    exact ⟨rfl, rfl, rfl⟩

theorem isLeaf_relinkLeaf (h : leaf.owner? = some w) (t : View) : (leaf.relinkLeaf t).isLeaf = true := by
  rcases relinkLeaf_cases h t with hleaf | hleaf
  · rw [hleaf]
    exact isLeaf_of_owner h
  · rw [hleaf, isLeaf]

theorem unpinned_relinkLeaf (h : leaf.owner? = some w) (t : View) : (leaf.relinkLeaf t).unpinned = leaf := by
  rcases relinkLeaf_cases h t with hleaf | hleaf
  · rw [hleaf, unpinned_of_plain (isPinned_of_owner h)]
  · rw [hleaf, unpinned]

theorem Throughout.owner (h : leaf.Throughout N.Holds) (hw : leaf.owner? = some w) : w.Throughout N.Holds := by
  cases leaf with
  | column c =>
      obtain rfl := Option.some.inj hw
      exact View.throughout_table.mpr trivial
  | star v =>
      obtain rfl := Option.some.inj hw
      exact h
  | projected v n d =>
      obtain rfl := Option.some.inj hw
      exact (throughout_projected.mp h).1
  | literal v => cases hw
  | apply op args => cases hw
  | view v => cases hw
  | pinned e v => cases hw
  | within sc e => cases hw

/-- A leaf is pinned exactly when its owner, or any view equal to it, is a view that the target extends. -/
theorem relinkLeaf_eq (ho : o.Throughout N.Holds) (ht : t.Throughout N.Holds) (hN : leaf.Throughout N.Holds)
    (h : leaf.owner? = some w) (hw : (w == o) = true) :
    leaf.relinkLeaf t = if t.extends? o then .pinned leaf t else leaf := by
  have hplain : leaf.unpinned = leaf := unpinned_of_plain (isPinned_of_owner h)
  have hequal : (w == t) = (t == o) :=
    (View.beq_congr_left (hN.owner h) ho ht hw).trans (View.beq_comm o t)
  have hinherits : t.inherits w = t.inherits o :=
    View.inherited_congr (View.congruentBelow N _) (hN.owner h) ho ht hw
  rw [relinkLeaf_of_owner (hplain.symm ▸ h), hplain, hequal, hinherits, View.extends?]
  cases t == o <;> cases t.inherits o <;> rfl

namespace OwnedBy

theorem relink_relink (h : e.OwnedBy o) (t : View) : (e.relink t).relink o = e := by
  have hleaves : (e.mapLeaves (relinkLeaf t)).mapLeaves (relinkLeaf o) = e.mapLeaves id :=
    mapLeaves_comp
      (fun leaf hleaf => by
        obtain ⟨w, hw, -⟩ := h leaf hleaf
        exact isLeaf_relinkLeaf hw t)
      fun leaf hleaf => by
        obtain ⟨w, hw, hequal⟩ := h leaf hleaf
        exact relinkLeaf_relinkLeaf hw hequal t
  rw [relink, relink, hleaves, mapLeaves_id]

theorem unpinned_relink (h : e.OwnedBy o) (t : View) : (e.relink t).mapLeaves unpinned = e := by
  have hleaves : (e.mapLeaves (relinkLeaf t)).mapLeaves unpinned = e.mapLeaves id :=
    mapLeaves_comp
      (fun leaf hleaf => by
        obtain ⟨w, hw, -⟩ := h leaf hleaf
        exact isLeaf_relinkLeaf hw t)
      fun leaf hleaf => by
        obtain ⟨w, hw, -⟩ := h leaf hleaf
        exact unpinned_relinkLeaf hw t
  rw [relink, hleaves, mapLeaves_id]

theorem namedAlike_relink (h : e.OwnedBy o) (t : View) : e.NamedAlike (e.relink t) :=
  .mapLeaves fun leaf hleaf => by
    obtain ⟨w, hw, -⟩ := h leaf hleaf
    exact namedAlike_relinkLeaf hw t

/-- The leaves of one view are pinned to the target together, or none of them is. -/
theorem leaves_relink (h : e.OwnedBy o) (ho : o.Throughout N.Holds) (ht : t.Throughout N.Holds)
    (he : e.Throughout N.Holds) :
    (e.relink t).leaves = if t.extends? o then e.leaves.map (.pinned · t) else e.leaves := by
  have hleaf : ∀ leaf ∈ e.leaves, leaf.relinkLeaf t = if t.extends? o then .pinned leaf t else leaf := by
    intro leaf hleaf
    obtain ⟨w, hw, hequal⟩ := h leaf hleaf
    exact relinkLeaf_eq ho ht (he.of_mem_leaves hleaf) hw hequal
  have hleaves : (e.relink t).leaves = e.leaves.map (relinkLeaf t) :=
    leaves_mapLeaves_of_isLeaf fun leaf hleaf => by
      obtain ⟨w, hw, -⟩ := h leaf hleaf
      exact isLeaf_relinkLeaf hw t
  rw [hleaves, List.map_congr_left hleaf]
  split
  · rfl
  · exact List.map_id' e.leaves

/-- Moved to any view and back, an expression is what it was, whatever the target is. In between it has its
operators and its names, it binds as before, and without its pins it is what it was, too; it is equal to what it
was exactly if it was equal to itself, that is if no constant of it is a NaN. Its leaves are pinned to the target
if the target is another view that inherits from their owner, and none is pinned otherwise. -/
theorem relinked_and_back (h : e.OwnedBy o) (t : View) (ho : o.Throughout N.Holds) (ht : t.Throughout N.Holds)
    (he : e.Throughout N.Holds) :
    (e.relink t).relink o = e ∧ (e.relink t).mapLeaves unpinned = e
      ∧ (e.relink t).name? = e.name? ∧ (e.relink t).systemName? = e.systemName?
      ∧ (e.relink t).precedence = e.precedence
      ∧ ((e.relink t == e) = true ↔ ∀ v ∈ e.constants, v.isNaN = false)
      ∧ (e.relink t).leaves = if t.extends? o then e.leaves.map (.pinned · t) else e.leaves := by
  obtain ⟨hname, hsystem, hprecedence⟩ := h.namedAlike_relink t
  refine ⟨h.relink_relink t, h.unpinned_relink t, hname, hsystem, hprecedence, ?_, h.leaves_relink ho ht he⟩
  have hequal : (e.relink t).beq e = e.beq e := beq_congr_canonical (canonical_relink e t) e
  show (e.relink t).beq e = true ↔ _
  rw [hequal, beq_self_iff]

/-- What is left of the revenue of people behind a scope, seen from people whose columns are fixed. -/
def revenueLeft : Expr := .within [] (.apply .subtract [.ofPeople "revenue", .apply .sum [.ofPeople "cost"]])

/-- The two columns are pinned to the people with fixed columns, and lose the pins again. -/
theorem revenueLeft_relinked_and_back :
    (View.concrete people).extends? (.table people) = true
      ∧ (revenueLeft.relink (.concrete people)).leaves =
        [.pinned (.ofPeople "revenue") (.concrete people), .pinned (.ofPeople "cost") (.concrete people)]
      ∧ (revenueLeft.relink (.concrete people)).relink (.table people) = revenueLeft
      ∧ (revenueLeft.relink (.concrete people) == revenueLeft) = true := by
  let N : Nodes := ⟨fun _ => ⟨none, .table people, .table people, .literal .null⟩, fun _ => peopleNames⟩
  have hextends : (View.concrete people).extends? (.table people) = true := by decide +kernel
  have howned : revenueLeft.OwnedBy (.table people) := by
    intro leaf hleaf
    have hcases : leaf = .ofPeople "revenue" ∨ leaf = .ofPeople "cost" := by
      rcases List.mem_cons.mp hleaf with h | h
      · exact .inl h
      · exact .inr (List.mem_singleton.mp h)
    rcases hcases with rfl | rfl <;> exact ⟨.table people, rfl, View.beq_self _⟩
  have hinside : revenueLeft.Throughout N.Holds := by
    simp [revenueLeft, Expr.ofPeople, Column.view, Nodes.Holds]
  obtain ⟨hback, -, -, -, -, hequal, hleaves⟩ := howned.relinked_and_back (N := N) (.concrete people)
    (View.throughout_table.mpr trivial) (View.throughout_concrete.mpr trivial) hinside
  refine ⟨hextends, ?_, hback, hequal.mpr (List.forall_mem_nil _)⟩
  rw [hleaves, if_pos hextends]
  rfl

end OwnedBy

end Expr

end SqlCompose
