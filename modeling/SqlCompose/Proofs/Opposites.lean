import SqlCompose.Proofs.JoinSides
import SqlCompose.Proofs.KeyedJoins

/-!
Walking a join backwards. If every leaf of a predicate is plain or pinned to the source, it is pinned to the
target or plain the other way round, and walked once more it is what it was. All joins that tables make are of
this form, and so are those made of predicates without pins, since their leaves are pinned to the very source
of the join or not at all. That sides are compatible, or equal, makes no difference.
-/

namespace SqlCompose

namespace Expr

variable {leaf : Expr} {v w : View}

/-- What a leaf is from the other side of a join, which is now a view: pinned to the view if it was plain, and
plain if it was pinned. -/
structure Flipped (w : View) (leaf flipped : Expr) : Prop where
  unpinned : flipped.unpinned = leaf.unpinned
  pinned_of_plain : leaf.isPinned = false → flipped = .pinned leaf w
  plain_of_pinned : leaf.isPinned = true → flipped.isPinned = false

/-- A leaf of a join from a view: plain, or pinned to that view. -/
inductive Sided (v : View) : Expr → Prop
  | plain {e : Expr} (hleaf : e.isLeaf = true) (hplain : e.isPinned = false) : Sided v e
  | pinned {e : Expr} (hleaf : e.isLeaf = true) (hplain : e.isPinned = false) : Sided v (.pinned e v)

theorem flipLeaf_of_plain (h : leaf.isPinned = false) : Join.flipLeaf w leaf = .pinned leaf w := by
  unfold Join.flipLeaf
  split
  · cases h
  · rw [pinLeaf, unpinned_of_plain h]

namespace Sided

theorem isLeaf (h : leaf.Sided v) : leaf.isLeaf = true := by
  cases h with
  | plain hleaf hplain => exact hleaf
  | pinned hleaf hplain => rfl

theorem flipLeaf (h : leaf.Sided v) (w : View) : (Join.flipLeaf w leaf).Sided w := by
  cases h with
  | plain hleaf hplain => exact flipLeaf_of_plain hplain ▸ .pinned hleaf hplain
  | pinned hleaf hplain => exact .plain hleaf hplain

theorem flipLeaf_flipLeaf (h : leaf.Sided v) (w : View) : Join.flipLeaf v (Join.flipLeaf w leaf) = leaf := by
  cases h with
  | plain hleaf hplain => rw [flipLeaf_of_plain hplain, Join.flipLeaf]
  | pinned hleaf hplain => rw [Join.flipLeaf, flipLeaf_of_plain hplain]

theorem flipped (h : leaf.Sided v) (w : View) : leaf.Flipped w (Join.flipLeaf w leaf) := by
  cases h with
  | plain hleaf hplain =>
      rw [flipLeaf_of_plain hplain]
      exact ⟨(unpinned_of_plain hplain).symm, fun _ => rfl, fun hpinned => absurd hpinned (by rw [hplain]; nofun)⟩
  | pinned hleaf hplain => exact ⟨unpinned_of_plain hplain, nofun, fun _ => hplain⟩

end Sided

/-- The leaves of pairwise equalities are those of their sides. -/
theorem mem_leaves_equalsAll {as bs : List Expr} {p : Expr} (h : equalsAll as bs = .ok p)
    (hleaf : leaf ∈ p.leaves) : ∃ e ∈ as ++ bs, leaf ∈ e.leaves := by
  rw [equalsAll] at h
  split at h
  · cases h
  · rw [leaves_conjunction h] at hleaf
    obtain ⟨x, hx, hleaf⟩ := List.mem_flatMap.mp hleaf
    obtain ⟨i, hi, rfl⟩ := List.mem_iff_getElem.mp hx
    rw [List.getElem_zipWith, equals, leaves, leavesAll_eq, List.mem_flatMap] at hleaf
    obtain ⟨side, hside, hleaf⟩ := hleaf
    rcases List.mem_cons.mp hside with rfl | hside
    · exact ⟨_, List.mem_append_left _ (List.getElem_mem _), hleaf⟩
    · rw [List.mem_singleton.mp hside] at hleaf
      exact ⟨_, List.mem_append_right _ (List.getElem_mem _), hleaf⟩

end Expr

namespace Join

variable {j : Join} {p : Expr}

/-- A join whose pins are its source. -/
def Sided (j : Join) : Prop := ∀ leaf ∈ j.predicate.leaves, leaf.Sided j.source

namespace Sided

theorem leaves_opposite (h : j.Sided) :
    j.opposite.predicate.leaves = j.predicate.leaves.map (flipLeaf j.target) :=
  Expr.leaves_mapLeaves_of_isLeaf fun leaf hleaf => ((h leaf hleaf).flipLeaf _).isLeaf

theorem opposite (h : j.Sided) : j.opposite.Sided := by
  intro leaf hleaf
  rw [h.leaves_opposite] at hleaf
  obtain ⟨l, hl, rfl⟩ := List.mem_map.mp hleaf
  exact (h l hl).flipLeaf j.target

theorem flipped (h : j.Sided) :
    List.Forall₂ (Expr.Flipped j.target) j.predicate.leaves j.opposite.predicate.leaves := by
  rw [h.leaves_opposite, List.forall₂_map_right_iff, List.forall₂_same]
  exact fun leaf hleaf => (h leaf hleaf).flipped j.target

/-- The two ways round differ in their pins only. -/
theorem unpinned_opposite (h : j.Sided) :
    j.opposite.predicate.mapLeaves Expr.unpinned = j.predicate.mapLeaves Expr.unpinned :=
  Expr.mapLeaves_comp (fun leaf hleaf => ((h leaf hleaf).flipLeaf _).isLeaf)
    fun leaf hleaf => ((h leaf hleaf).flipped j.target).unpinned

theorem opposite_twice (h : j.Sided) : j.opposite.opposite = { j with name := none } := by
  have hpredicate : j.opposite.predicate.mapLeaves (flipLeaf j.source) = j.predicate.mapLeaves id :=
    Expr.mapLeaves_comp (fun leaf hleaf => ((h leaf hleaf).flipLeaf _).isLeaf)
      fun leaf hleaf => (h leaf hleaf).flipLeaf_flipLeaf j.target
  rw [Expr.mapLeaves_id] at hpredicate
  exact congrArg (Join.mk none j.source j.target) hpredicate

end Sided

/-! The joins that are made. -/

/-- A join that a table makes by a foreign key, with a name or without, or one that is made of a predicate
without pins. -/
inductive Built : Join → Prop
  | byKey {c d : Catalog} {t u : Table} {names : List String} {j : Join}
      (h : c.joinByKey t (d.foreignKey u names).1 = .ok j) : Built j
  | named {c : Catalog} {t target : Table} {name : String} {columns : List String} {j : Join}
      (h : (c.joinAs t name target columns).1 = .ok j) : Built j
  | made {p : Expr} {j : Join} (hp : ∀ leaf ∈ p.leaves, leaf.isPinned = false) (h : MadeFrom p j) : Built j

/-- A plain leaf is pinned to the source or stays plain. -/
theorem MadeFrom.sided (h : MadeFrom p j) (hp : ∀ leaf ∈ p.leaves, leaf.isPinned = false) : j.Sided := by
  intro leaf hleaf
  rw [h.leaves] at hleaf
  obtain ⟨l, hl, rfl⟩ := List.mem_map.mp hleaf
  have hleaf := Expr.isLeaf_of_mem_leaves hl
  rcases Expr.pinned_or_owned hleaf with ⟨e, v, rfl⟩ | ⟨v, hv, -⟩
  · cases hp _ hl
  · rw [attachLeaf_of_owner hv]
    split
    · exact .pinned hleaf (hp l hl)
    · exact .plain hleaf (hp l hl)

theorem sided_of_joinByKey {c d : Catalog} {t u : Table} {names : List String}
    (h : c.joinByKey t (d.foreignKey u names).1 = .ok j) : j.Sided := by
  unfold Catalog.joinByKey at h
  split at h
  case h_1 => cases h
  case h_2 key =>
    obtain ⟨p, hp, hmake⟩ := bind_eq_ok.mp h
    refine MadeFrom.sided (.make hmake) fun leaf hleaf => ?_
    obtain ⟨e, he, hleaf⟩ := Expr.mem_leaves_equalsAll hp hleaf
    -- both lists are columns
    have hcolumn : ∃ k : Column, e = .column k := by
      rcases List.mem_append.mp he with he | he
      · obtain ⟨k, -, rfl⟩ := List.mem_map.mp he
        exact ⟨k, rfl⟩
      · obtain ⟨k, -, rfl⟩ := List.mem_map.mp he
        exact ⟨k, rfl⟩
    obtain ⟨k, rfl⟩ := hcolumn
    rw [List.mem_singleton.mp hleaf]
    rfl

theorem sided_of_joinAs {c : Catalog} {t target : Table} {name : String} {columns : List String}
    (h : (c.joinAs t name target columns).1 = .ok j) : j.Sided := by
  by_cases hkey : c.keyColumns target = []
  · rw [Catalog.joinAs_of_no_key hkey] at h
    cases h
  · by_cases hlength : columns.length = (c.keyColumns target).length
    · obtain ⟨p, hp, hjoin⟩ := Catalog.joinAs_of_length_eq t name hkey hlength
      rw [hjoin] at h
      obtain rfl := Except.ok.inj h
      intro leaf hleaf
      rw [Expr.leaves_conjunction hp] at hleaf
      rcases Expr.mem_leaves_keyEqualities hleaf with ⟨f, -, rfl⟩ | ⟨k, -, rfl⟩
      · exact .pinned rfl rfl
      · exact .plain rfl rfl
    · rw [Catalog.joinAs_of_length_ne hkey hlength] at h
      cases h

theorem Built.sided (h : j.Built) : j.Sided := by
  cases h with
  | byKey h => exact sided_of_joinByKey h
  | named h => exact sided_of_joinAs h
  | made hp h => exact h.sided hp

/-- The other way round, a join has its sides swapped, and exactly the leaves that were plain are pinned, each
of them to the new source. Walked backwards twice it is itself but for its name. So it prints the same in
every scope, as a value and as a source, and every statement makes the same predicate of it. -/
theorem Built.opposite_opposite (h : j.Built) :
    j.opposite.source = j.target ∧ j.opposite.target = j.source
      ∧ List.Forall₂ (Expr.Flipped j.target) j.predicate.leaves j.opposite.predicate.leaves
      ∧ j.opposite.predicate.mapLeaves Expr.unpinned = j.predicate.mapLeaves Expr.unpinned
      ∧ j.opposite.opposite = { j with name := none }
      ∧ ∀ i k : Nat, (∀ c sc, (View.join i j.opposite.opposite).pieces c sc = (View.join k j).pieces c sc)
        ∧ (∀ c a sc on, Source.pieces c ⟨.join i j.opposite.opposite, a, sc, on⟩
            = Source.pieces c ⟨.join k j, a, sc, on⟩)
        ∧ ∀ s : Select, s.acceptView (.join i j.opposite.opposite) = s.acceptView (.join k j) := by
  have hself := h.sided.opposite_twice
  refine ⟨rfl, rfl, h.sided.flipped, h.sided.unpinned_opposite, hself, fun i k => ?_⟩
  rw [hself]
  obtain ⟨n, v, t, p⟩ := j
  refine ⟨fun c sc => by rw [View.pieces, View.pieces], fun c a sc on => ?_, fun s => rfl⟩
  cases on with
  | none =>
      simp only [Source.pieces, View.asSource, View.precedence, View.pieces]
      rfl
  | some e => rw [Source.pieces, Source.pieces]

open Select (managers managers_eq)

/-- The managers of people are people, too, and the other way round the key of the manager is pinned. -/
theorem managers_walked_back : managers.Built
    ∧ managers.opposite.predicate.leaves = [.ofPeople "MANAGER_ID", .pinned (.ofPeople "ID") (.table people),
        .ofPeople "COUNTRY", .pinned (.ofPeople "COUNTRY") (.table people)]
    ∧ managers.opposite.opposite = { managers with name := none } := by
  have hbuilt : managers.Built := .named managers_eq
  obtain ⟨-, -, -, -, hself, -⟩ := Built.opposite_opposite hbuilt
  exact ⟨hbuilt, rfl, hself⟩

end Join

end SqlCompose
