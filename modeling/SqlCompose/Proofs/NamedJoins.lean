import SqlCompose.Proofs.Leaves
import SqlCompose.Query.Join

/-!
Named joins through a foreign key. The predicate equates the columns of the foreign key, pinned to the table
they are columns of, with the columns of the primary key of the target. So the join can be made whenever the
two lists have the same length, also between two instances of one table, and nothing but the lengths can be
wrong with a target that has a key.
-/

namespace SqlCompose

namespace Expr

/-- The equality of a column pinned to a view with a column that is not pinned. -/
def keyEquality (w : View) (f k : Column) : Expr := equals (.pinned (.column f) w) (.column k)

/-- The equalities of a foreign key pinned to a view with a primary key. -/
def keyEqualities (w : View) (fs ks : List Column) : List Expr := List.zipWith (keyEquality w) fs ks

variable {es : List Expr} {p : Expr}

theorem conjunction_eq_ok : conjunction es = .ok p ↔ es = [p] ∨ 2 ≤ es.length ∧ p = .apply .and es := by
  match es with
  | [] => simp [conjunction]
  | [q] => simp [conjunction]
  | q :: r :: rest => simp [conjunction, eq_comm]

theorem exists_conjunction (h : es ≠ []) : ∃ p, conjunction es = .ok p := by
  match es, h with
  | [q], _ => exact ⟨q, rfl⟩
  | q :: r :: rest, _ => exact ⟨.apply .and (q :: r :: rest), rfl⟩

theorem leaves_conjunction (h : conjunction es = .ok p) : p.leaves = es.flatMap leaves := by
  rcases conjunction_eq_ok.mp h with rfl | ⟨-, rfl⟩
  · rw [List.flatMap_singleton]
  · rw [leaves, leavesAll_eq]

theorem mapLeaves_conjunction (f : Expr → Expr) (h : conjunction es = .ok p) :
    conjunction (es.map (mapLeaves f)) = .ok (p.mapLeaves f) := by
  rcases conjunction_eq_ok.mp h with rfl | ⟨hlength, rfl⟩
  · rfl
  · rw [conjunction_eq_ok]
    refine Or.inr ⟨?_, ?_⟩
    · rwa [List.length_map]
    · rw [mapLeaves, mapLeavesAll_eq]

/-! The leaves and the views of the predicate. -/

variable {w u : View} {fs ks : List Column}

theorem leaves_keyEquality (w : View) (f k : Column) :
    (keyEquality w f k).leaves = [.pinned (.column f) w, .column k] := by
  simp [keyEquality, equals, leaves, leavesAll]

theorem mapLeaves_keyEquality {g : Expr → Expr} {f k : Column}
    (hf : g (.pinned (.column f) w) = .pinned (.column f) u) (hk : g (.column k) = .column k) :
    (keyEquality w f k).mapLeaves g = keyEquality u f k := by
  simp [keyEquality, equals, mapLeaves, mapLeavesAll, hf, hk]

theorem map_keyEqualities {g : Expr → Expr} (hf : ∀ f, g (.pinned (.column f) w) = .pinned (.column f) u)
    (hk : ∀ k ∈ ks, g (.column k) = .column k) :
    (keyEqualities w fs ks).map (mapLeaves g) = keyEqualities u fs ks := by
  induction fs generalizing ks with
  | nil => rfl
  | cons f fs ih =>
      cases ks with
      | nil => rfl
      | cons k ks =>
          rw [List.forall_mem_cons] at hk
          rw [keyEqualities, List.zipWith_cons_cons, List.map_cons, ← keyEqualities, ih hk.2,
            mapLeaves_keyEquality (hf f) hk.1]
          rfl

theorem mem_keyEqualities {e : Expr} (h : e ∈ keyEqualities w fs ks) :
    ∃ f ∈ fs, ∃ k ∈ ks, e = keyEquality w f k := by
  obtain ⟨i, hi, rfl⟩ := List.mem_iff_getElem.mp h
  rw [keyEqualities, List.length_zipWith] at hi
  refine ⟨fs[i], List.getElem_mem _, ks[i], List.getElem_mem _, ?_⟩
  exact List.getElem_zipWith

theorem mem_leaves_keyEqualities {leaf : Expr} (h : leaf ∈ (keyEqualities w fs ks).flatMap leaves) :
    (∃ f ∈ fs, leaf = .pinned (.column f) w) ∨ ∃ k ∈ ks, leaf = .column k := by
  obtain ⟨e, he, hleaf⟩ := List.mem_flatMap.mp h
  obtain ⟨f, hf, k, hk, rfl⟩ := mem_keyEqualities he
  rw [leaves_keyEquality, List.mem_cons, List.mem_singleton] at hleaf
  exact hleaf.imp (fun hl => ⟨f, hf, hl⟩) fun hl => ⟨k, hk, hl⟩

/-- Arguments that all depend on the same views depend on these together. -/
theorem viewsAll_eq {V : ViewSet} (hV : V.union V = V) : ∀ {es : List Expr}, (∀ e ∈ es, e.views = V) →
    viewsAll es V = V
  | [], _ => rfl
  | e :: es, h => by
      rw [List.forall_mem_cons] at h
      rw [viewsAll, h.1, hV, viewsAll_eq hV h.2]

theorem views_conjunction {V : ViewSet} (hempty : ViewSet.empty.union V = V) (hV : V.union V = V)
    (h : conjunction es = .ok p) (hes : ∀ e ∈ es, e.views = V) : p.views = V := by
  rcases conjunction_eq_ok.mp h with rfl | ⟨hlength, rfl⟩
  · exact hes p List.mem_cons_self
  · match es with
    | e :: es =>
      rw [List.forall_mem_cons] at hes
      rw [views, viewsAll, hes.1, hempty, viewsAll_eq hV hes.2]

end Expr

/-! Making the join. -/

variable {c : Catalog} {t target : Table} {name : String} {columns : List String}

theorem View.table_beq (t u : Table) : (View.table t == View.table u) = (t.name == u.name) := by
  show (View.table t).beq (.table u) = _
  rw [View.beq]
  rfl

/-- A view equals itself, since its node does. -/
theorem View.beq_self (v : View) : (v == v) = true := by
  show v.beq v = true
  cases v with
  | table t => rw [View.beq]; exact beq_self_eq_true t.name
  | concrete m => rw [View.beq]; exact beq_self_eq_true m.name
  | join i j => rw [View.beq, beq_self_eq_true i, Bool.true_or]
  | select i q => rw [View.beq, beq_self_eq_true i, Bool.true_or]

namespace ViewSet

/-- The views of two tables, which are one view if the tables have one name. -/
def pair (t u : Table) : ViewSet := (singleton (.table t)).insert (.table u)

theorem pair_eq (t u : Table) :
    pair t u = if t.name == u.name then ⟨[.table t]⟩ else ⟨[.table t, .table u]⟩ := by
  rw [pair, insert, contains, singleton, List.any_cons, List.any_nil, Bool.or_false, View.table_beq]
  rfl

theorem contains_pair (t u : Table) :
    (pair t u).contains (.table t) = true ∧ (pair t u).contains (.table u) = true := by
  rw [pair_eq]
  split
  case isTrue h => simpa [contains, View.table_beq] using h
  case isFalse h => simp [contains, View.table_beq]

theorem insert_of_contains {s : ViewSet} {v : View} (h : s.contains v = true) : s.insert v = s := by
  rw [insert, if_pos h]

theorem union_pair (t u : Table) : empty.union (pair t u) = pair t u := by
  rw [pair_eq, union]
  split
  case isTrue h => rfl
  case isFalse h =>
    show (singleton (.table t)).insert (.table u) = _
    rw [← pair, pair_eq, if_neg h]

theorem pair_union_pair (t u : Table) : (pair t u).union (pair t u) = pair t u := by
  obtain ⟨ht, hu⟩ := contains_pair t u
  have hinsert : ∀ vs : List View, (∀ v ∈ vs, (pair t u).contains v = true) →
      vs.foldl insert (pair t u) = pair t u := by
    intro vs hvs
    induction vs with
    | nil => rfl
    | cons v vs ih =>
        rw [List.forall_mem_cons] at hvs
        rw [List.foldl_cons, insert_of_contains hvs.1, ih hvs.2]
  refine hinsert _ fun v hv => ?_
  rw [pair_eq] at hv
  split at hv
  · exact List.mem_singleton.mp hv ▸ ht
  · rcases List.mem_cons.mp hv with rfl | hv
    · exact ht
    · exact List.mem_singleton.mp hv ▸ hu

end ViewSet

namespace Join

theorem fits_pair (t u : Table) : fits (.table t) (.table u) (ViewSet.pair t u) = true := by
  have hself : ∀ x : Table, (View.table x).compatible (.table x) = true := fun x => by
    rw [View.compatible, View.beq_self, Bool.true_or, Bool.true_or]
  rw [ViewSet.pair_eq]
  split
  case isTrue h =>
    have heq : (View.table t == View.table u) = true := (View.table_beq t u).trans h
    show (View.table t).compatible (.table u) = true
    rw [View.compatible, heq, Bool.true_or, Bool.true_or]
  case isFalse h =>
    show ((ViewSet.mk _).compatible _ && (ViewSet.mk _).compatible _) = true
    simp [ViewSet.compatible, hself]

theorem views_keyEquality {f k : Column} (hk : k.table = target) :
    (Expr.keyEquality (.table t) f k).views = ViewSet.pair t target := by
  subst hk
  rw [Expr.keyEquality, Expr.equals, Expr.views, Expr.viewsAll, Expr.viewsAll, Expr.viewsAll, Expr.views,
    Expr.views]
  rfl

/-- The column of a target stays plain. -/
theorem ofOwner_target (source target : View) : JoinSide.ofOwner source target target = .target := by
  rw [JoinSide.ofOwner, if_pos (View.beq_self target)]

/-- A named join through a foreign key can be made, and its predicate stays as it is. -/
theorem make_keyed {fs ks : List Column} {p : Expr} (hks : ∀ k ∈ ks, k.table = target)
    (hnonempty : Expr.keyEqualities (.table t) fs ks ≠ [])
    (hp : Expr.conjunction (Expr.keyEqualities (.table t) fs ks) = .ok p) :
    make (some name) (.table t) (.table target) p = .ok ⟨some name, .table t, .table target, p⟩ := by
  have hviews : p.views = ViewSet.pair t target := by
    refine Expr.views_conjunction (ViewSet.union_pair t target) (ViewSet.pair_union_pair t target) hp ?_
    intro e he
    obtain ⟨f, -, k, hk, rfl⟩ := Expr.mem_keyEqualities he
    exact views_keyEquality (hks k hk)
  have hforeign : p.leaves.any (isForeignLeaf (.table t) (.table target)) = false := by
    rw [List.any_eq_false]
    intro leaf hleaf
    rw [Expr.leaves_conjunction hp] at hleaf
    rcases Expr.mem_leaves_keyEqualities hleaf with ⟨f, -, rfl⟩ | ⟨k, hk, rfl⟩
    · exact Bool.false_ne_true
    · show ¬ (JoinSide.ofOwner (.table t) (.table target) (.table k.table) == .neither) = true
      rw [hks k hk, ofOwner_target]
      exact Bool.false_ne_true
  have hsource : p.leaves.any (isSourceLeaf (.table t) (.table target)) = true := by
    obtain ⟨e, he⟩ := List.exists_mem_of_ne_nil _ hnonempty
    obtain ⟨f, -, k, -, rfl⟩ := Expr.mem_keyEqualities he
    rw [List.any_eq_true]
    refine ⟨.pinned (.column f) (.table t), ?_, View.beq_self _⟩
    rw [Expr.leaves_conjunction hp]
    exact List.mem_flatMap.mpr ⟨_, he, by simp [Expr.leaves_keyEquality]⟩
  have hattach : p.mapLeaves (attachLeaf (.table t) (.table target)) = p := by
    have hmap : (Expr.keyEqualities (.table t) fs ks).map (Expr.mapLeaves (attachLeaf (.table t) (.table target)))
        = Expr.keyEqualities (.table t) fs ks := by
      refine Expr.map_keyEqualities (fun f => rfl) fun k hk => ?_
      simp only [attachLeaf, Expr.owner?, Column.view, hks k hk, ofOwner_target]
    have hconjunction := Expr.mapLeaves_conjunction (attachLeaf (.table t) (.table target)) hp
    rw [hmap, hp] at hconjunction
    exact (Except.ok.inj hconjunction).symm
  rw [make, hviews, fits_pair, hforeign, hsource, hattach]
  rfl

end Join

namespace Catalog

theorem table_of_mem_keyColumns {k : Column} (h : k ∈ c.keyColumns t) : k.table = t := by
  obtain ⟨n, -, rfl⟩ := List.mem_map.mp h
  rfl

theorem joinAs_of_no_key (h : c.keyColumns target = []) :
    c.joinAs t name target columns = (.error (.missingKey target.name), c) := by
  rw [joinAs, h]

/-- What a named join registers and makes for a target that has a key. -/
theorem joinAs_of_key (h : c.keyColumns target ≠ []) : c.joinAs t name target columns =
    (do
      let p ← Expr.equalsAll (columns.map fun n => .pinned (.column ⟨t, n⟩) (.table t))
        ((c.keyColumns target).map .column)
      Join.make (some name) (.table t) (.table target) p,
    c.update t (·.registerAll columns)) := by
  have hkeys : (c.foreignKey t columns).1.keys.map (Expr.pinLeaf (.table t))
      = columns.map fun n => .pinned (.column ⟨t, n⟩) (.table t) := by
    show (((columns.map (⟨t, ·⟩) : List Column)).map Expr.column).map _ = _
    rw [List.map_map, List.map_map]
    rfl
  rw [joinAs]
  split
  case h_1 hnil => exact absurd hnil h
  case h_2 => rw [← hkeys]; rfl

/-- Lists of different lengths are rejected when the columns have been registered already. -/
theorem joinAs_of_length_ne (h : c.keyColumns target ≠ [])
    (hlength : columns.length ≠ (c.keyColumns target).length) : c.joinAs t name target columns =
      (.error (.sizeMismatch columns.length (c.keyColumns target).length),
        c.update t (·.registerAll columns)) := by
  rw [joinAs_of_key h, Expr.equalsAll, List.length_map, List.length_map, if_pos hlength]
  rfl

/-- Lists of one length make a join on their equalities. -/
theorem joinAs_of_length_eq (t : Table) (name : String) (h : c.keyColumns target ≠ [])
    (hlength : columns.length = (c.keyColumns target).length) :
    ∃ p, Expr.conjunction (Expr.keyEqualities (.table t) (columns.map (⟨t, ·⟩)) (c.keyColumns target)) = .ok p
      ∧ c.joinAs t name target columns
        = (.ok ⟨some name, .table t, .table target, p⟩, c.update t (·.registerAll columns)) := by
  have hnonempty : Expr.keyEqualities (.table t) (columns.map (⟨t, ·⟩)) (c.keyColumns target) ≠ [] := by
    rw [← List.length_pos_iff, Expr.keyEqualities, List.length_zipWith, List.length_map, hlength, Nat.min_self]
    exact List.length_pos_iff.mpr h
  obtain ⟨p, hp⟩ := Expr.exists_conjunction hnonempty
  have hequalities : Expr.equalsAll (columns.map fun n => .pinned (.column ⟨t, n⟩) (.table t))
      ((c.keyColumns target).map .column) = .ok p := by
    rw [Expr.equalsAll, List.length_map, List.length_map, if_neg (not_not_intro hlength), ← hp,
      Expr.keyEqualities, List.zipWith_map, List.zipWith_map_left]
    rfl
  refine ⟨p, hp, ?_⟩
  rw [joinAs_of_key h, hequalities]
  exact Prod.ext (Join.make_keyed (fun k hk => table_of_mem_keyColumns hk) hnonempty hp) rfl

end Catalog

end SqlCompose
