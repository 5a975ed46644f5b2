import SqlCompose.Proofs.Columns
import SqlCompose.Proofs.Composed
import SqlCompose.Proofs.Equality
import SqlCompose.Proofs.NamedJoins

/-!
The order of a set of views. A set keeps the first of several equal views, so it lists the views that were put
into it by their first appearance. As equality is transitive where one mark is one node, it makes no difference
whether views are put in one by one or gathered in sets before, at any level of an expression: what is dropped on
the way is equal to something that is kept. And what is there already is equal to itself, a NaN inside or not.
-/

namespace SqlCompose

/-! What an expression mentions. -/

/-- The views a view stands for, in their order: a join for its source and itself, a statement for the views of
its FROM list. -/
def View.appearances : View → List View
  | join i j => [j.source, join i j]
  | select _ q => q.sources.map (·.view)
  | v => [v]

namespace Expr

mutual

/-- The views at the leaves and in the values of an expression, from left to right, as often as they appear. A
pinned leaf counts as the view it is pinned to. -/
def appearances : Expr → List View
  | literal _ => []
  | apply _ args => appearancesAll args
  | column c => [c.view]
  | star v => [v]
  | projected v _ _ => [v]
  | view v => v.appearances
  | pinned _ v => [v]
  | within _ e => e.appearances

/-- The views of all arguments, as often as they appear. -/
def appearancesAll : List Expr → List View
  | [] => []
  | e :: es => e.appearances ++ appearancesAll es

end

end Expr

theorem View.Throughout.appearances {P : View → Prop} {v : View} (h : v.Throughout P) :
    ∀ w ∈ v.appearances, w.Throughout P := by
  cases v with
  | table t => exact List.forall_mem_singleton.mpr h
  | concrete m => exact List.forall_mem_singleton.mpr h
  | join i j =>
      obtain ⟨-, hsource, -, -⟩ := throughout_join.mp h
      exact List.forall_mem_cons.mpr ⟨hsource, List.forall_mem_singleton.mpr h⟩
  | select i q =>
      intro w hw
      obtain ⟨src, hsrc, rfl⟩ := List.mem_map.mp hw
      exact ((Select.throughout_iff.mp (throughout_select.mp h).2).1 src hsrc).1

namespace Expr.Throughout

variable {P : View → Prop}

mutual

theorem appearances : ∀ {e : Expr}, e.Throughout P → ∀ v ∈ e.appearances, v.Throughout P
  | .literal _, _ => nofun
  | .apply _ _, h => appearancesAll (throughout_apply.mp h)
  | .column _, h => List.forall_mem_singleton.mpr (View.throughout_table.mpr (throughout_column.mp h))
  | .star _, h => List.forall_mem_singleton.mpr h
  | .projected _ _ _, h => List.forall_mem_singleton.mpr (throughout_projected.mp h).1
  | .view v, h => View.Throughout.appearances (v := v) h
  | .pinned _ _, h => List.forall_mem_singleton.mpr (throughout_pinned.mp h).2
  | .within _ e, h => appearances (e := e) h

theorem appearancesAll : ∀ {es : List Expr}, (∀ e ∈ es, e.Throughout P) →
    ∀ v ∈ Expr.appearancesAll es, v.Throughout P
  | [], _ => nofun
  | _ :: _, h => by
      rw [List.forall_mem_cons] at h
      exact List.forall_mem_append.mpr ⟨appearances h.1, appearancesAll h.2⟩

end

end Expr.Throughout

/-! What sets contain. -/

namespace ViewSet

variable {s t u : ViewSet} {v w : View} {vs : List View} {N : Nodes}

/-- All nodes in the views of a set are those behind their marks. -/
def Throughout (N : Nodes) (s : ViewSet) : Prop := ∀ v ∈ s.views, v.Throughout N.Holds

theorem contains_insert : (s.insert v).contains w = (s.contains w || (!s.contains v && (v == w))) := by
  rw [insert]
  split
  case isTrue h => rw [h, Bool.not_true, Bool.false_and, Bool.or_false]
  case isFalse h =>
    rw [Bool.not_eq_true] at h
    rw [h, contains, contains, List.any_append, List.any_cons, List.any_nil, Bool.or_false, Bool.not_false,
      Bool.true_and]

theorem contains_insert_of_contains (h : s.contains w = true) (v : View) : (s.insert v).contains w = true := by
  rw [contains_insert, h, Bool.true_or]

theorem contains_insert_self (s : ViewSet) (v : View) : (s.insert v).contains v = true := by
  rw [contains_insert, v.beq_self, Bool.and_true, Bool.or_not_self]

theorem contains_foldl_of_contains (h : s.contains w = true) : (vs.foldl insert s).contains w = true := by
  induction vs generalizing s with
  | nil => exact h
  | cons v vs ih => exact ih (contains_insert_of_contains h v)

theorem contains_foldl_of_mem (h : w ∈ vs) (s : ViewSet) : (vs.foldl insert s).contains w = true := by
  induction vs generalizing s with
  | nil => cases h
  | cons v vs ih =>
      rcases List.mem_cons.mp h with rfl | h
      · exact contains_foldl_of_contains (s := s.insert w) (contains_insert_self s w)
      · exact ih h (s.insert v)

/-- Views that are there already add nothing. -/
theorem foldl_insert_of_contains (h : ∀ v ∈ vs, s.contains v = true) : vs.foldl insert s = s := by
  induction vs with
  | nil => rfl
  | cons v vs ih =>
      rw [List.forall_mem_cons] at h
      rw [List.foldl_cons, insert_of_contains h.1, ih h.2]

/-- Leaving out views that are there already changes nothing. -/
theorem foldl_insert_filter {p : View → Bool} (h : ∀ v ∈ vs, p v = false → s.contains v = true) :
    (vs.filter p).foldl insert s = vs.foldl insert s := by
  induction vs generalizing s with
  | nil => rfl
  | cons v vs ih =>
      rw [List.forall_mem_cons] at h
      have hvs : ∀ w ∈ vs, p w = false → (s.insert v).contains w = true :=
        fun w hw hp => contains_insert_of_contains (h.2 w hw hp) v
      cases hp : p v with
      | true => rw [List.filter_cons_of_pos hp, List.foldl_cons, List.foldl_cons, ih hvs]
      | false =>
          rw [List.filter_cons_of_neg (by rw [hp]; decide), List.foldl_cons,
            insert_of_contains (h.1 hp), ih h.2]

/-! Distinct views. -/

/-- No two views of a set are equal. -/
def Distinct (s : ViewSet) : Prop := s.views.Pairwise fun v w => (v == w) = false

theorem Distinct.insert (h : s.Distinct) (v : View) : (s.insert v).Distinct := by
  rw [ViewSet.insert]
  split
  case isTrue => exact h
  case isFalse hv =>
    refine List.pairwise_append.mpr ⟨h, List.pairwise_singleton _ v, fun w hw v' hv' => ?_⟩
    rw [List.mem_singleton.mp hv', Bool.eq_false_iff]
    exact fun hequal => hv (List.any_eq_true.mpr ⟨w, hw, hequal⟩)

theorem Distinct.foldl (h : s.Distinct) (vs : List View) : (vs.foldl ViewSet.insert s).Distinct := by
  induction vs generalizing s with
  | nil => exact h
  | cons v vs ih => exact ih (h.insert v)

theorem distinct_empty : empty.Distinct := List.Pairwise.nil

theorem distinct_singleton (v : View) : (singleton v).Distinct := List.pairwise_singleton _ v

theorem distinct_ofList (vs : List View) : (ofList vs).Distinct := distinct_empty.foldl vs

end ViewSet

theorem View.distinct_views (v : View) : v.views.Distinct := by
  cases v with
  | table t => exact ViewSet.distinct_singleton _
  | concrete m => exact ViewSet.distinct_singleton _
  | join i j => exact (ViewSet.distinct_singleton _).insert _
  | select i q => exact ViewSet.distinct_ofList _

namespace Expr

theorem distinct_viewsAll : ∀ (es : List Expr) {s : ViewSet}, s.Distinct → (viewsAll es s).Distinct
  | [], _, h => h
  | e :: es, _, h => distinct_viewsAll es (h.foldl e.views.views)

theorem distinct_views : ∀ e : Expr, e.views.Distinct
  | literal _ => ViewSet.distinct_empty
  | apply _ args => distinct_viewsAll args ViewSet.distinct_empty
  | column _ => ViewSet.distinct_singleton _
  | star _ => ViewSet.distinct_singleton _
  | projected .. => ViewSet.distinct_singleton _
  | view v => v.distinct_views
  | pinned .. => ViewSet.distinct_singleton _
  | within _ e => distinct_views e

end Expr

namespace ViewSet

variable {s t u : ViewSet} {v w : View} {vs : List View} {N : Nodes}

/-- The sets there are: made of nothing or of views, made larger, or the views that something depends on. -/
inductive Made : ViewSet → Prop
  | empty : Made .empty
  | singleton (v : View) : Made (.singleton v)
  | insert {s : ViewSet} (h : Made s) (v : View) : Made (s.insert v)
  | union {s t : ViewSet} (h : Made s) (h' : Made t) : Made (s.union t)
  | ofList (vs : List View) : Made (.ofList vs)
  | ofView (v : View) : Made v.views
  | ofExpr (e : Expr) : Made e.views

theorem Made.distinct (h : s.Made) : s.Distinct := by
  induction h with
  | empty => exact distinct_empty
  | singleton v => exact distinct_singleton v
  | insert h v ih => exact ih.insert v
  | union h h' ih ih' => exact ih.foldl _
  | ofList vs => exact distinct_ofList vs
  | ofView v => exact v.distinct_views
  | ofExpr e => exact e.distinct_views

/-! First appearances. -/

/-- Of the views that are put into a set, those are added that are not there, each by its first appearance. -/
theorem views_foldl_insert : ∀ (vs : List View) (s : ViewSet),
    (vs.foldl insert s).views = s.views ++ (vs.filter fun v => !s.contains v).eraseDups
  | [], s => by rw [List.foldl_nil, List.filter_nil, List.eraseDups_nil, List.append_nil]
  | v :: vs, s => by
      rw [List.foldl_cons, views_foldl_insert vs (s.insert v)]
      cases hv : s.contains v with
      | true =>
          rw [insert_of_contains hv, List.filter_cons_of_neg (by rw [hv]; decide)]
      | false =>
          have hinsert : s.insert v = ⟨s.views ++ [v]⟩ := by rw [insert, hv]; rfl
          have hfilter : vs.filter (fun w => !(s.insert v).contains w)
              = (vs.filter fun w => !s.contains w).filter fun w => !w == v := by
            rw [List.filter_filter]
            refine List.filter_congr fun w _ => ?_
            rw [contains_insert, hv, Bool.not_false, Bool.true_and, Bool.not_or, Bool.and_comm]
            exact congrArg (!· && !s.contains w) (View.beq_comm v w)
          rw [List.filter_cons_of_pos (by rw [hv]; rfl), List.eraseDups_cons, hfilter, hinsert,
            List.append_assoc, List.singleton_append]

theorem views_ofList (vs : List View) : (ofList vs).views = vs.eraseDups := by
  have hall : vs.filter (fun v => !empty.contains v) = vs := List.filter_eq_self.mpr fun _ _ => rfl
  rw [ofList, views_foldl_insert, hall]
  rfl

theorem contains_congr (hs : s.Throughout N) (hv : v.Throughout N.Holds) (hw : w.Throughout N.Holds)
    (hequal : (v == w) = true) (h : s.contains v = true) : s.contains w = true := by
  obtain ⟨x, hx, hxv⟩ := List.any_eq_true.mp h
  exact List.any_eq_true.mpr ⟨x, hx, View.beq_trans (hs x hx) hv hw hxv hequal⟩

theorem Throughout.insert (hs : s.Throughout N) (hv : v.Throughout N.Holds) : (s.insert v).Throughout N := by
  intro w hw
  rcases mem_insert hw with hw | rfl
  · exact hs w hw
  · exact hv

theorem Throughout.foldl (hs : s.Throughout N) (hvs : ∀ v ∈ vs, v.Throughout N.Holds) :
    (vs.foldl ViewSet.insert s).Throughout N := by
  intro w hw
  rcases mem_foldl_insert hw with hw | hw
  · exact hs w hw
  · exact hvs w hw

/-- Views can be put in one by one, without dropping those that appear again first. -/
theorem foldl_insert_eraseDups : ∀ {vs : List View} {s : ViewSet}, s.Throughout N →
    (∀ v ∈ vs, v.Throughout N.Holds) → vs.eraseDups.foldl insert s = vs.foldl insert s
  | [], _, _, _ => rfl
  | v :: vs, s, hs, h => by
      rw [List.forall_mem_cons] at h
      have hlater : ∀ w ∈ vs.filter (fun w => !w == v), w.Throughout N.Holds :=
        fun w hw => h.2 w (List.mem_of_mem_filter hw)
      rw [List.eraseDups_cons, List.foldl_cons, List.foldl_cons,
        foldl_insert_eraseDups (hs.insert h.1) hlater]
      refine foldl_insert_filter fun w hw hdrop => ?_
      have hequal : (v == w) = true := View.beq_symm (by
        rw [Bool.not_eq_false'] at hdrop
        exact hdrop)
      exact contains_congr (hs.insert h.1) h.1 (h.2 w hw) hequal (contains_insert_self s v)
termination_by vs => vs.length
decreasing_by exact Nat.lt_succ_of_le (List.length_filter_le _ _)

theorem union_ofList (hs : s.Throughout N) (hvs : ∀ v ∈ vs, v.Throughout N.Holds) :
    s.union (ofList vs) = vs.foldl insert s := by
  rw [union, views_ofList, foldl_insert_eraseDups hs hvs]

theorem union_assoc (hs : s.Throughout N) (ht : t.Throughout N) (hu : u.Throughout N) :
    (s.union t).union u = s.union (t.union u) := by
  have hst : (s.union t).Throughout N := hs.foldl ht
  have hnew : ∀ v ∈ u.views.filter (fun v => !t.contains v), v.Throughout N.Holds :=
    fun v hv => hu v (List.mem_of_mem_filter hv)
  have hviews : (t.union u).views = t.views ++ (u.views.filter fun v => !t.contains v).eraseDups :=
    views_foldl_insert u.views t
  have hdropped : ∀ v ∈ u.views, (!t.contains v) = false → (s.union t).contains v = true := by
    intro v hv hdrop
    obtain ⟨w, hw, hequal⟩ := List.any_eq_true.mp (show t.contains v = true by simpa using hdrop)
    exact contains_congr hst (ht w hw) (hu v hv) hequal (contains_foldl_of_mem hw s)
  calc (s.union t).union u = (u.views.filter fun v => !t.contains v).foldl insert (s.union t) :=
        (foldl_insert_filter hdropped).symm
    _ = (u.views.filter fun v => !t.contains v).eraseDups.foldl insert (s.union t) :=
        (foldl_insert_eraseDups hst hnew).symm
    _ = s.union (t.union u) := by
        rw [union.eq_def s (t.union u), hviews, List.foldl_append]
        rfl

theorem contains_foldl_union_of_contains {ts : List ViewSet} (h : s.contains v = true) :
    (ts.foldl union s).contains v = true := by
  induction ts generalizing s with
  | nil => exact h
  | cons t ts ih => exact ih (contains_foldl_of_contains h)

theorem contains_foldl_union {ts : List ViewSet} (ht : t ∈ s :: ts) (hv : v ∈ t.views) :
    (ts.foldl union s).contains v = true := by
  induction ts generalizing s with
  | nil =>
      obtain rfl := List.mem_singleton.mp ht
      exact List.any_eq_true.mpr ⟨v, hv, v.beq_self⟩
  | cons t' ts ih =>
      rcases List.mem_cons.mp ht with rfl | ht
      · have hself : t.contains v = true := List.any_eq_true.mpr ⟨v, hv, v.beq_self⟩
        exact contains_foldl_union_of_contains (s := t.union t') (contains_foldl_of_contains hself)
      · rcases List.mem_cons.mp ht with rfl | ht
        · exact contains_foldl_union_of_contains (s := s.union t) (contains_foldl_of_mem hv s)
        · exact ih (List.mem_cons_of_mem _ ht)

/-- A set that has been merged into another one adds nothing to it any more. -/
theorem union_of_merged {ts : List ViewSet} (ht : t ∈ s :: ts) :
    (ts.foldl union s).union t = ts.foldl union s :=
  foldl_insert_of_contains fun _ hv => contains_foldl_union ht hv

end ViewSet

theorem View.views_eq_ofList (v : View) : v.views = .ofList v.appearances := by
  cases v with
  | table t => rfl
  | concrete m => rfl
  | join i j => rfl
  | select i q => rfl

namespace Expr

variable {N : Nodes}

mutual

theorem views_eq_ofList : ∀ {e : Expr}, e.Throughout N.Holds → e.views = .ofList e.appearances
  | literal _, _ => rfl
  | apply _ _, h => viewsAll_eq_foldl (throughout_apply.mp h) (s := .empty) nofun
  | column _, _ => rfl
  | star _, _ => rfl
  | projected .., _ => rfl
  | view v, _ => v.views_eq_ofList
  | pinned .., _ => rfl
  | within _ e, h => views_eq_ofList (e := e) h

theorem viewsAll_eq_foldl : ∀ {es : List Expr}, (∀ e ∈ es, e.Throughout N.Holds) →
    ∀ {s : ViewSet}, s.Throughout N → viewsAll es s = (appearancesAll es).foldl ViewSet.insert s
  | [], _, _, _ => rfl
  | e :: es, h, s, hs => by
      rw [List.forall_mem_cons] at h
      have he := h.1.appearances
      rw [viewsAll, views_eq_ofList h.1, ViewSet.union_ofList hs he, viewsAll_eq_foldl h.2 (hs.foldl he),
        appearancesAll, List.foldl_append]

end

end Expr

/-- A set never holds equal views, and the views of an expression are those it mentions, in the order of their
first appearance. So sets can be merged in any grouping, and merging again what has been merged adds nothing. -/
theorem ViewSet.lists_first_appearances (N : Nodes) :
    (∀ s : ViewSet, s.Made → s.Distinct) ∧ (∀ v : View, v.views.views = v.appearances.eraseDups)
      ∧ (∀ e : Expr, e.Throughout N.Holds → e.views.views = e.appearances.eraseDups)
      ∧ (∀ s t u : ViewSet, s.Throughout N → t.Throughout N → u.Throughout N →
        (s.union t).union u = s.union (t.union u))
      ∧ ∀ (s : ViewSet) (ts : List ViewSet), ∀ t ∈ s :: ts, (ts.foldl union s).union t = ts.foldl union s := by
  refine ⟨fun s hs => hs.distinct, fun v => ?_, fun e he => ?_, fun s t u hs ht hu => union_assoc hs ht hu,
    fun s ts t ht => union_of_merged ht⟩
  · rw [v.views_eq_ofList, views_ofList]
  · rw [Expr.views_eq_ofList he, views_ofList]

open Select (department ofDepartment)

/-- The names of the people of a department, as a predicate that mentions the join twice. -/
def nameInDepartment : Expr := .apply .and [
  .equals (.ofPeople "DEPARTMENT_ID") (.column ⟨department, "ID"⟩), .view (.join 5 ofDepartment),
  .equals (.pinned (.ofPeople "name") (.join 5 ofDepartment)) (.ofPeople "city")]

/-- The people appear three times, and the join twice. -/
theorem nameInDepartment_views : nameInDepartment.appearances = [.table people, .table department, .table people,
      .join 5 ofDepartment, .join 5 ofDepartment, .table people]
    ∧ nameInDepartment.views.views = [.table people, .table department, .join 5 ofDepartment]
    ∧ nameInDepartment.views.union nameInDepartment.views = nameInDepartment.views := by
  let N : Nodes := ⟨fun _ => ofDepartment, fun _ => peopleNames⟩
  have hinside : nameInDepartment.Throughout N.Holds := by
    simp [nameInDepartment, Expr.equals, ofDepartment, Expr.ofPeople, Column.view, Nodes.Holds, N]
  obtain ⟨-, -, hviews, -, hmerged⟩ := ViewSet.lists_first_appearances N
  exact ⟨rfl, (hviews _ hinside).trans (by cbv), hmerged _ [] _ List.mem_cons_self⟩

end SqlCompose
