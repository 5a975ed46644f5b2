import SqlCompose.Proofs.Columns
import SqlCompose.Proofs.Leaves
import SqlCompose.Proofs.NamedJoins

/-!
The sides of a join. A join is to constrain both: a leaf of its predicate is pinned to the source, a plain one
can belong to the target, and no leaf is pinned to anything else. A plain leaf that goes to the source is
pinned to it, and one that goes to the target stays as it is. But a leaf that comes with a pin keeps it, so the
join constrains both sides exactly if the leaves that were given do.
-/

namespace SqlCompose

namespace Expr

/-- A leaf is pinned to a view, or plain with an owner. -/
theorem pinned_or_owned {leaf : Expr} (h : leaf.isLeaf = true) :
    (∃ e v, leaf = .pinned e v) ∨ ∃ v, leaf.owner? = some v ∧ leaf.views = .singleton v := by
  cases leaf with
  | pinned e v => exact Or.inl ⟨e, v, rfl⟩
  | column col => exact Or.inr ⟨col.view, rfl, rfl⟩
  | star v => exact Or.inr ⟨v, rfl, rfl⟩
  | projected v n d => exact Or.inr ⟨v, rfl, rfl⟩
  | literal v => cases h
  | apply op args => cases h
  | view v => cases h
  | within sc e => cases h

theorem isPinned_of_owner {leaf : Expr} {v : View} (h : leaf.owner? = some v) : leaf.isPinned = false := by
  cases leaf with
  | pinned e w => cases h
  | column col => rfl
  | star w => rfl
  | projected w n d => rfl
  | literal l => cases h
  | apply op args => cases h
  | view w => cases h
  | within sc e => cases h

end Expr

namespace JoinSide

variable {source target owner : View}

theorem ofOwner_eq_target :
    ofOwner source target owner = .target ↔
      (owner == target) = true ∨ (owner == source) = false ∧ owner.compatible target = true := by
  rw [ofOwner]
  split
  case isTrue h => simp [h]
  case isFalse h =>
    split
    case isTrue h' => simp [h, h']
    case isFalse h' =>
      split
      case isTrue hc => simp [h', hc]
      case isFalse hc => split <;> simp [h, hc]

/-- What belongs to the target is compatible with it. -/
theorem compatible_of_target (h : ofOwner source target owner = .target) : owner.compatible target = true := by
  rcases ofOwner_eq_target.mp h with h | ⟨-, h⟩
  · rw [View.compatible, h, Bool.true_or, Bool.true_or]
  · exact h

/-- An owner that is compatible with one side only belongs to that side. -/
theorem ofOwner_of_not_compatible_target (ht : owner.compatible target = false)
    (hs : owner.compatible source = true) : ofOwner source target owner = .source := by
  have hne : (owner == target) = false := by
    rw [View.compatible, Bool.or_eq_false_iff, Bool.or_eq_false_iff] at ht
    exact ht.1.1
  rw [ofOwner, hne, ht, hs]
  split
  case isTrue h => cases h
  case isFalse => split <;> rfl

theorem ofOwner_of_not_compatible_source (hs : owner.compatible source = false)
    (ht : owner.compatible target = true) : ofOwner source target owner = .target := by
  refine ofOwner_eq_target.mpr (Or.inr ⟨?_, ht⟩)
  rw [View.compatible, Bool.or_eq_false_iff, Bool.or_eq_false_iff] at hs
  exact hs.1.1

end JoinSide

namespace Join

variable {source target : View} {leaf p : Expr} {name : Option String} {j : Join}

/-- Whether a leaf stands for the target: without a pin, and belonging to it. -/
def isTargetLeaf (source target : View) (leaf : Expr) : Bool :=
  match leaf.owner? with
  | some owner => JoinSide.ofOwner source target owner == .target
  | none => false

/-! One leaf. -/

theorem isTargetLeaf_of_owner {v : View} (h : leaf.owner? = some v) :
    isTargetLeaf source target leaf = (JoinSide.ofOwner source target v == .target) := by
  rw [isTargetLeaf, h]

theorem attachLeaf_of_owner {v : View} (h : leaf.owner? = some v) : attachLeaf source target leaf =
    if JoinSide.ofOwner source target v = .source then .pinned leaf source else leaf := by
  unfold attachLeaf
  split
  case h_1 => cases h
  case h_2 _ hnone => rw [h] at hnone; cases hnone
  case h_3 owner _ howner =>
    obtain rfl : v = owner := Option.some.inj (h.symm.trans howner)
    split
    case h_1 hside => rw [if_pos hside, Expr.pinLeaf, Expr.unpinned_of_plain (Expr.isPinned_of_owner h)]
    case h_2 hside => rw [if_neg hside]

theorem isLeaf_attachLeaf (h : leaf.isLeaf = true) : (attachLeaf source target leaf).isLeaf = true := by
  rcases Expr.pinned_or_owned h with ⟨e, v, rfl⟩ | ⟨v, hv, -⟩
  · rfl
  · rw [attachLeaf_of_owner hv]
    split
    · rfl
    · exact h

theorem isForeignLeaf_of_owner {v : View} (h : leaf.owner? = some v) :
    isForeignLeaf source target leaf = (JoinSide.ofOwner source target v == .neither) := by
  unfold isForeignLeaf
  split
  case h_1 => cases h
  case h_2 _ hnone => rw [h] at hnone; cases hnone
  case h_3 owner _ howner => rw [Option.some.inj (h.symm.trans howner)]

theorem isSourceLeaf_of_owner {v : View} (h : leaf.owner? = some v) :
    isSourceLeaf source target leaf = (JoinSide.ofOwner source target v == .source) := by
  unfold isSourceLeaf
  split
  case h_1 => cases h
  case h_2 _ hnone => rw [h] at hnone; cases hnone
  case h_3 owner _ howner => rw [Option.some.inj (h.symm.trans howner)]

/-- The leaves that stand for the source are those that are pinned to it afterwards. -/
theorem attachLeaf_pinned_source (h : leaf.isLeaf = true) :
    (∃ e v, attachLeaf source target leaf = .pinned e v ∧ (v == source) = true) ↔
      isSourceLeaf source target leaf = true := by
  rcases Expr.pinned_or_owned h with ⟨e, v, rfl⟩ | ⟨v, hv, -⟩
  · constructor
    · rintro ⟨b, w, heq, hw⟩
      obtain ⟨-, rfl⟩ := Expr.pinned.inj heq
      exact hw
    · exact fun hsource => ⟨e, v, rfl, hsource⟩
  · rw [attachLeaf_of_owner hv, isSourceLeaf_of_owner hv, beq_iff_eq]
    constructor
    · rintro ⟨b, w, heq, -⟩
      by_contra hside
      rw [if_neg hside] at heq
      rw [heq] at hv
      cases hv
    · intro hside
      rw [if_pos hside]
      exact ⟨leaf, source, rfl, View.beq_self source⟩

/-- The leaves that stand for the target are those that are plain afterwards and can belong to it. -/
theorem attachLeaf_owner_target (h : leaf.isLeaf = true) (hforeign : isForeignLeaf source target leaf = false) :
    (∃ v, (attachLeaf source target leaf).owner? = some v ∧ v.compatible target = true) ↔
      isTargetLeaf source target leaf = true := by
  rcases Expr.pinned_or_owned h with ⟨e, v, rfl⟩ | ⟨v, hv, -⟩
  · constructor
    · rintro ⟨w, hw, -⟩
      cases hw
    · intro htarget
      cases htarget
  · rw [isForeignLeaf_of_owner hv, beq_eq_false_iff_ne] at hforeign
    rw [attachLeaf_of_owner hv, isTargetLeaf_of_owner hv, beq_iff_eq]
    cases hside : JoinSide.ofOwner source target v with
    | target =>
        rw [if_neg (by decide), hv]
        exact iff_of_true ⟨v, rfl, JoinSide.compatible_of_target hside⟩ rfl
    | source =>
        rw [if_pos rfl]
        refine iff_of_false ?_ nofun
        rintro ⟨w, hw, -⟩
        cases hw
    | neither => exact absurd hside hforeign

/-- Attaching adds no other pins than to the source. -/
theorem attachLeaf_pins (h : leaf.isLeaf = true) :
    (∀ e v, attachLeaf source target leaf = .pinned e v → (v == source) = true) ↔
      ∀ e v, leaf = .pinned e v → (v == source) = true := by
  rcases Expr.pinned_or_owned h with ⟨e, v, rfl⟩ | ⟨v, hv, -⟩
  · rfl
  · constructor
    · rintro - e w rfl
      cases hv
    · rintro - e w heq
      rw [attachLeaf_of_owner hv] at heq
      split at heq
      · obtain ⟨-, rfl⟩ := Expr.pinned.inj heq
        exact View.beq_self source
      · rw [heq] at hv
        cases hv

/-! The whole predicate. -/

/-- A join that constrains its two sides, and nothing else. -/
structure Constrained (j : Join) : Prop where
  toSource : ∃ leaf ∈ j.predicate.leaves, ∃ e v, leaf = .pinned e v ∧ (v == j.source) = true
  toTarget : ∃ leaf ∈ j.predicate.leaves, ∃ v, leaf.owner? = some v ∧ v.compatible j.target = true
  pins : ∀ leaf ∈ j.predicate.leaves, ∀ e v, leaf = .pinned e v → (v == j.source) = true

/-- A predicate that has a leaf for each side, and no pin to anything but the source. -/
structure Constrains (source target : View) (p : Expr) : Prop where
  toSource : ∃ leaf ∈ p.leaves, isSourceLeaf source target leaf = true
  toTarget : ∃ leaf ∈ p.leaves, isTargetLeaf source target leaf = true
  pins : ∀ leaf ∈ p.leaves, ∀ e v, leaf = .pinned e v → (v == source) = true

/-- A predicate between two sides that have nothing in common: every view it depends on belongs to a leaf and
fits one side only. -/
structure Separates (source target : View) (p : Expr) : Prop where
  apart : source.compatible target = false
  owned : ∀ v ∈ p.views.views, ∃ leaf ∈ p.leaves, leaf.views = .singleton v
  oneSided : ∀ v ∈ p.views.views, v.compatible source = false ∨ v.compatible target = false
  pins : ∀ leaf ∈ p.leaves, ∀ e v, leaf = .pinned e v → (v == source) = true

/-- What making a join checks, and what it makes. -/
theorem make_iff : make name source target p = .ok j ↔
    fits source target p.views = true ∧ (∀ leaf ∈ p.leaves, isForeignLeaf source target leaf = false)
      ∧ ((∃ leaf ∈ p.leaves, isSourceLeaf source target leaf = true) ∨ source.compatible target = false)
      ∧ j = ⟨name, source, target, p.mapLeaves (attachLeaf source target)⟩ := by
  unfold make
  split
  case isTrue hfits =>
    refine iff_of_false nofun fun h => ?_
    rw [h.1] at hfits
    cases hfits
  case isFalse hfits =>
    have hfits : fits source target p.views = true := by simpa using hfits
    split
    case isTrue hforeign =>
      obtain ⟨leaf, hleaf, hl⟩ := List.any_eq_true.mp hforeign
      refine iff_of_false nofun fun h => ?_
      rw [h.2.1 leaf hleaf] at hl
      cases hl
    case isFalse hforeign =>
      have hforeign : ∀ leaf ∈ p.leaves, isForeignLeaf source target leaf = false := by simpa using hforeign
      split
      case isTrue hsource =>
        rw [Bool.and_eq_true, Bool.not_eq_true', List.any_eq_false] at hsource
        refine iff_of_false nofun fun h => ?_
        rcases h.2.2.1 with ⟨leaf, hleaf, hl⟩ | hcompatible
        · exact hsource.1 leaf hleaf hl
        · rw [hsource.2] at hcompatible
          cases hcompatible
      case isFalse hsource =>
        rw [Bool.and_eq_true, Bool.not_eq_true', not_and_or, Bool.not_eq_false, Bool.not_eq_true,
          List.any_eq_true] at hsource
        rw [Except.ok.injEq]
        exact ⟨fun h => ⟨hfits, hforeign, hsource, h.symm⟩, fun h => h.2.2.2.symm⟩

/-- What inferring the source of a join checks. -/
theorem infer_iff : infer target p = .ok j ↔
    ∃ source, (p.views.views.filter fun v => !v.compatible target) = [source]
      ∧ make none source target p = .ok j := by
  unfold infer
  split
  case h_1 source hsource =>
    constructor
    · exact fun h => ⟨source, hsource, h⟩
    · rintro ⟨w, hw, h⟩
      obtain rfl := List.singleton_inj.mp (hsource.symm.trans hw)
      exact h
  case h_2 hnone =>
    refine iff_of_false nofun ?_
    rintro ⟨source, hsource, -⟩
    exact hnone source hsource

/-- A join made of a predicate, from a source or from the one that the predicate shows. -/
inductive MadeFrom (p : Expr) (j : Join) : Prop
  | make {name : Option String} {source target : View} (h : Join.make name source target p = .ok j)
  | infer {target : View} (h : Join.infer target p = .ok j)

theorem MadeFrom.make_eq_ok (h : MadeFrom p j) : Join.make j.name j.source j.target p = .ok j := by
  have hmade : ∀ {name : Option String} {source target : View}, Join.make name source target p = .ok j →
      Join.make j.name j.source j.target p = .ok j := by
    intro name source target hmake
    obtain ⟨-, -, -, rfl⟩ := make_iff.mp hmake
    exact hmake
  cases h with
  | make h => exact hmade h
  | infer h =>
      obtain ⟨source, -, hmake⟩ := infer_iff.mp h
      exact hmade hmake

theorem MadeFrom.leaves (h : MadeFrom p j) : j.predicate.leaves = p.leaves.map (attachLeaf j.source j.target) := by
  obtain ⟨-, -, -, hj⟩ := make_iff.mp h.make_eq_ok
  have hpredicate : j.predicate = p.mapLeaves (attachLeaf j.source j.target) := by conv_lhs => rw [hj]
  rw [hpredicate]
  exact Expr.leaves_mapLeaves_of_isLeaf fun leaf hleaf => isLeaf_attachLeaf (Expr.isLeaf_of_mem_leaves hleaf)

theorem MadeFrom.pinned_source_iff (h : MadeFrom p j) :
    (∃ leaf ∈ j.predicate.leaves, ∃ e v, leaf = .pinned e v ∧ (v == j.source) = true)
      ↔ ∃ leaf ∈ p.leaves, isSourceLeaf j.source j.target leaf = true := by
  rw [h.leaves]
  simp only [List.mem_map, exists_exists_and_eq_and]
  exact exists_congr fun leaf => and_congr_right fun hmem =>
    attachLeaf_pinned_source (Expr.isLeaf_of_mem_leaves hmem)

theorem MadeFrom.owner_target_iff (h : MadeFrom p j) :
    (∃ leaf ∈ j.predicate.leaves, ∃ v, leaf.owner? = some v ∧ v.compatible j.target = true)
      ↔ ∃ leaf ∈ p.leaves, isTargetLeaf j.source j.target leaf = true := by
  obtain ⟨-, hforeign, -, -⟩ := make_iff.mp h.make_eq_ok
  rw [h.leaves]
  simp only [List.mem_map, exists_exists_and_eq_and]
  exact exists_congr fun leaf => and_congr_right fun hmem =>
    attachLeaf_owner_target (Expr.isLeaf_of_mem_leaves hmem) (hforeign leaf hmem)

theorem MadeFrom.pins_iff (h : MadeFrom p j) :
    (∀ leaf ∈ j.predicate.leaves, ∀ e v, leaf = .pinned e v → (v == j.source) = true)
      ↔ ∀ leaf ∈ p.leaves, ∀ e v, leaf = .pinned e v → (v == j.source) = true := by
  rw [h.leaves, List.forall_mem_map]
  exact forall₂_congr fun leaf hmem => attachLeaf_pins (Expr.isLeaf_of_mem_leaves hmem)

theorem MadeFrom.constrained_iff_constrains (h : MadeFrom p j) :
    j.Constrained ↔ Constrains j.source j.target p :=
  ⟨fun hj => ⟨h.pinned_source_iff.mp hj.toSource, h.owner_target_iff.mp hj.toTarget, h.pins_iff.mp hj.pins⟩,
    fun hp => ⟨h.pinned_source_iff.mpr hp.toSource, h.owner_target_iff.mpr hp.toTarget,
      h.pins_iff.mpr hp.pins⟩⟩

/-- Between two sides that have nothing in common, what a join checks is enough. -/
theorem Separates.constrains (h : Separates source target p) (hfits : fits source target p.views = true) :
    Constrains source target p := by
  have hboth : p.views.compatible source = true ∧ p.views.compatible target = true := by
    unfold fits at hfits
    split at hfits
    · rw [h.apart] at hfits
      cases hfits
    · exact (Bool.and_eq_true _ _).mp hfits
    · cases hfits
  have hleaf : ∀ {v : View}, v ∈ p.views.views →
      ∃ leaf ∈ p.leaves, (∃ e, leaf = .pinned e v) ∨ leaf.owner? = some v := by
    intro v hv
    obtain ⟨leaf, hmem, hviews⟩ := h.owned v hv
    refine ⟨leaf, hmem, ?_⟩
    rcases Expr.pinned_or_owned (Expr.isLeaf_of_mem_leaves hmem) with ⟨e, w, rfl⟩ | ⟨w, hw, hw'⟩
    · have heq : ViewSet.singleton w = .singleton v := hviews
      rw [ViewSet.singleton, ViewSet.singleton, ViewSet.mk.injEq, List.singleton_inj] at heq
      exact Or.inl ⟨e, heq ▸ rfl⟩
    · have heq : ViewSet.singleton w = .singleton v := hw'.symm.trans hviews
      rw [ViewSet.singleton, ViewSet.singleton, ViewSet.mk.injEq, List.singleton_inj] at heq
      exact Or.inr (heq ▸ hw)
  refine ⟨?_, ?_, h.pins⟩
  · obtain ⟨v, hv, hsource⟩ := List.any_eq_true.mp hboth.1
    obtain ⟨leaf, hmem, ⟨e, rfl⟩ | howner⟩ := hleaf hv
    · exact ⟨_, hmem, h.pins _ hmem e v rfl⟩
    · have htarget : v.compatible target = false :=
        (h.oneSided v hv).resolve_left (by rw [hsource]; exact Bool.false_ne_true.symm)
      refine ⟨leaf, hmem, ?_⟩
      rw [isSourceLeaf_of_owner howner, JoinSide.ofOwner_of_not_compatible_target htarget hsource]
      rfl
  · obtain ⟨v, hv, htarget⟩ := List.any_eq_true.mp hboth.2
    have hsource : v.compatible source = false :=
      (h.oneSided v hv).resolve_right (by rw [htarget]; exact Bool.false_ne_true.symm)
    obtain ⟨leaf, hmem, ⟨e, rfl⟩ | howner⟩ := hleaf hv
    · have heq : (v == source) = true := h.pins _ hmem e v rfl
      rw [View.compatible, heq] at hsource
      cases hsource
    · refine ⟨leaf, hmem, ?_⟩
      rw [isTargetLeaf_of_owner howner, JoinSide.ofOwner_of_not_compatible_source hsource htarget]
      rfl

/-- A join constrains both sides, and nothing else, exactly if its predicate was given with a leaf for each
side and without a pin to anything but the source. Every join between compatible sides has a leaf that is
pinned to the source, and every join constrains both sides if these have nothing in common. -/
theorem MadeFrom.constrained_iff (h : MadeFrom p j) :
    (j.Constrained ↔ Constrains j.source j.target p)
      ∧ (j.source.compatible j.target = true →
        ∃ leaf ∈ j.predicate.leaves, ∃ e v, leaf = .pinned e v ∧ (v == j.source) = true)
      ∧ (Separates j.source j.target p → j.Constrained) := by
  obtain ⟨hfits, -, hsource, -⟩ := make_iff.mp h.make_eq_ok
  refine ⟨h.constrained_iff_constrains, fun hcompatible => ?_, fun hseparates => ?_⟩
  · rw [hcompatible] at hsource
    exact h.pinned_source_iff.mpr (hsource.resolve_right (by decide))
  · exact h.constrained_iff_constrains.mpr (hseparates.constrains hfits)

open Select (department)

/-- The key of the department of a person. -/
def departmentEquals (key : Expr) : Expr := .equals (.ofPeople "DEPARTMENT_ID") key

/-- The manager of a person. -/
def managerEquals : Expr := .equals (.pinned (.ofPeople "MANAGER_ID") (.table people)) (.ofPeople "ID")

/-- People and departments have nothing in common, and the predicate of the managers has a leaf for each
side. -/
theorem people_constrained :
    (∃ j, MadeFrom (departmentEquals (.column ⟨department, "ID"⟩)) j
      ∧ Separates j.source j.target (departmentEquals (.column ⟨department, "ID"⟩)) ∧ j.Constrained)
    ∧ ∃ j, MadeFrom managerEquals j ∧ j.source.compatible j.target = true
      ∧ Constrains j.source j.target managerEquals ∧ j.Constrained
      ∧ ∃ leaf ∈ j.predicate.leaves, ∃ e v, leaf = .pinned e v ∧ (v == j.source) = true := by
  constructor
  · have hmake : make none (.table people) (.table department) (departmentEquals (.column ⟨department, "ID"⟩))
        = .ok _ :=
      make_iff.mpr ⟨by decide +kernel, by decide +kernel, Or.inr (by decide +kernel), rfl⟩
    have hviews : (departmentEquals (.column ⟨department, "ID"⟩)).views.views
        = [.table people, .table department] := by
      show (ViewSet.pair people department).views = _
      rw [ViewSet.pair_eq, if_neg (by decide)]
    have hseparates : Separates (.table people) (.table department)
        (departmentEquals (.column ⟨department, "ID"⟩)) := by
      refine ⟨by decide +kernel, ?_, ?_, ?_⟩
      · rw [hviews, List.forall_mem_cons, List.forall_mem_singleton]
        exact ⟨⟨.ofPeople "DEPARTMENT_ID", List.mem_cons_self, rfl⟩,
          ⟨.column ⟨department, "ID"⟩, List.mem_cons_of_mem _ List.mem_cons_self, rfl⟩⟩
      · rw [hviews]
        decide +kernel
      · intro leaf hleaf e v heq
        rcases List.mem_cons.mp hleaf with rfl | hleaf
        · cases heq
        · rw [List.mem_singleton.mp hleaf] at heq
          cases heq
    exact ⟨_, .make hmake, hseparates, (MadeFrom.constrained_iff (.make hmake)).2.2 hseparates⟩
  · have hmake : make none (.table people) (.table people) managerEquals = .ok _ :=
      make_iff.mpr ⟨by decide +kernel, by decide +kernel, Or.inl (by decide +kernel), rfl⟩
    have hcompatible : (View.table people).compatible (.table people) = true := by decide +kernel
    have hconstrains : Constrains (.table people) (.table people) managerEquals := by
      refine ⟨by decide +kernel, by decide +kernel, ?_⟩
      intro leaf hleaf e v heq
      rcases List.mem_cons.mp hleaf with rfl | hleaf
      · obtain ⟨-, rfl⟩ := Expr.pinned.inj heq
        exact View.beq_self _
      · rw [List.mem_singleton.mp hleaf] at heq
        cases heq
    obtain ⟨hiff, hsource, -⟩ := MadeFrom.constrained_iff (.make hmake)
    exact ⟨_, .make hmake, hcompatible, hconstrains, hiff.mpr hconstrains, hsource hcompatible⟩

/-- A leaf that is pinned to the target keeps its pin. -/
theorem people_unconstrained : ∃ j,
    make none (.table people) (.table department)
        (departmentEquals (.pinned (.column ⟨department, "ID"⟩) (.table department))) = .ok j
      ∧ ¬ j.Constrained := by
  have hmake : make none (.table people) (.table department)
      (departmentEquals (.pinned (.column ⟨department, "ID"⟩) (.table department))) = .ok _ :=
    make_iff.mpr ⟨by decide +kernel, by decide +kernel, Or.inr (by decide +kernel), rfl⟩
  refine ⟨_, hmake, fun h => ?_⟩
  have hpin := (MadeFrom.make hmake).pins_iff.mp h.pins (.pinned (.column ⟨department, "ID"⟩) (.table department))
    (List.mem_cons_of_mem _ List.mem_cons_self) _ _ rfl
  exact absurd hpin (by decide +kernel)

end Join

end SqlCompose
