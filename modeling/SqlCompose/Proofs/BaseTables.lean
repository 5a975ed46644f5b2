import SqlCompose.Proofs.Equality

/-!
Compatibility is sharing a base table. The base tables of a view are where it takes its rows from: those of
the target of a join, those of all sources of a statement. Compatibility peels one view or the other, in
whatever order, and stops where it comes to equal views; equal views have the same base tables, so no order
loses or adds a match. Only between two joins equality alone decides.
-/

namespace SqlCompose

mutual

/-- The names of the tables that a view takes its rows from. -/
def View.baseTables : View → List String
  | .table t => [t.name]
  | .concrete m => [m.name]
  | .join _ ⟨_, _, t, _⟩ => t.baseTables
  | .select _ ⟨_, f, _, _, _, _, _, _⟩ => Source.baseTablesAll f

/-- The base tables of all entries of a FROM list. -/
def Source.baseTablesAll : List Source → List String
  | [] => []
  | ⟨v, _, _, _⟩ :: f => v.baseTables ++ Source.baseTablesAll f

end

/-- Every statement on the way from a view to its base tables has a source. -/
inductive View.Grounded : View → Prop
  | table (t : Table) : View.Grounded (.table t)
  | concrete (m : Table) : View.Grounded (.concrete m)
  | join (i : Nat) {j : Join} (h : View.Grounded j.target) : View.Grounded (.join i j)
  | select (i : Nat) {q : Select} (hf : q.sources ≠ []) (h : ∀ x ∈ q.sources, View.Grounded x.view) :
      View.Grounded (.select i q)

theorem Source.mem_baseTablesAll {n : String} {f : List Source} :
    n ∈ baseTablesAll f ↔ ∃ x ∈ f, n ∈ x.view.baseTables := by
  induction f with
  | nil => simp [baseTablesAll]
  | cons x f ih =>
      obtain ⟨v, a, s, on⟩ := x
      simp [baseTablesAll, ih]

mutual

/-- A view is grounded if all statements inside it, at any depth, have a source. -/
theorem View.grounded_of_inside : ∀ {v : View}, (∀ i q, .select i q ∈ v.inside → q.sources ≠ []) →
    v.Grounded
  | .table t, _ => .table t
  | .concrete m, _ => .concrete m
  | .join i ⟨_, _, t, _⟩, h => .join i <| View.grounded_of_inside (v := t) fun k q hq =>
      h k q (List.mem_cons_of_mem _ (List.mem_append_left _ (List.mem_append_right _ hq)))
  | .select i ⟨_, f, _, _, _, _, _, _⟩, h =>
      .select i (h i _ List.mem_cons_self) <| Source.grounded_of_inside (f := f) fun x hx k q hq =>
        h k q (List.mem_cons_of_mem _ (Select.mem_inside.mpr (.inl ⟨x, hx, .inl hq⟩)))

theorem Source.grounded_of_inside : ∀ {f : List Source},
    (∀ x ∈ f, ∀ i q, .select i q ∈ x.view.inside → q.sources ≠ []) → ∀ x ∈ f, x.view.Grounded
  | [], _ => fun _ hx => nomatch hx
  | ⟨v, _, _, _⟩ :: f, h => by
      rw [List.forall_mem_cons] at h
      exact List.forall_mem_cons.mpr
        ⟨View.grounded_of_inside (v := v) h.1, Source.grounded_of_inside h.2⟩

end

namespace View

theorem mem_baseTables_select {i : Nat} {q : Select} {n : String} :
    n ∈ (select i q).baseTables ↔ ∃ x ∈ q.sources, n ∈ x.view.baseTables := by
  obtain ⟨_, _, _, _, _, _, _, _⟩ := q
  rw [baseTables, Source.mem_baseTablesAll]

theorem Grounded.exists_mem : ∀ {v : View}, v.Grounded → ∃ n, n ∈ v.baseTables
  | _, .table t => ⟨t.name, List.mem_cons_self⟩
  | _, .concrete m => ⟨m.name, List.mem_cons_self⟩
  | .join _ ⟨_, _, _, _⟩, .join _ h => h.exists_mem
  | .select i q, .select _ hf h => by
      obtain ⟨x, hx⟩ := List.exists_mem_of_ne_nil _ hf
      obtain ⟨n, hn⟩ := (h x hx).exists_mem
      exact ⟨n, mem_baseTables_select.mpr ⟨x, hx, hn⟩⟩

end View

mutual

theorem View.baseTables_of_beq {N : Nodes} : ∀ {a b : View}, a.Throughout N.Holds → b.Throughout N.Holds →
    a.beq b = true → a.baseTables = b.baseTables
  | .table t, b, _, _, h => by
      obtain ⟨u, rfl, htu⟩ := View.beq_table.mp h
      exact congrArg ([·]) (eq_of_beq (show (t.name == u.name) = true from htu))
  | .concrete m, b, _, _, h => by
      obtain ⟨n, rfl, hmn⟩ := View.beq_concrete.mp h
      exact congrArg ([·]) (eq_of_beq (show (m.name == n.name) = true from hmn))
  | .join i ⟨n, s, t, p⟩, b, ha, hb, h => by
      obtain ⟨k, l, rfl, rfl | hl⟩ := View.beq_join.mp h
      · rw [← show _ = l from ha.self.symm.trans hb.self]
      · obtain ⟨_, _, t', _⟩ := l
        exact View.baseTables_of_beq (a := t) (b := t') ha.join.target hb.join.target (Join.beq_iff.mp hl).2.2.1
  | .select i ⟨_, f, _, _, _, _, _, _⟩, b, ha, hb, h => by
      obtain ⟨k, r, rfl, rfl | hr⟩ := View.beq_select.mp h
      · rw [← show _ = r from ha.self.symm.trans hb.self]
      · obtain ⟨_, g, _, _, _, _, _, _⟩ := r
        exact Source.baseTablesAll_of_beq (fun x hx => ((Select.throughout_iff.mp ha.select).1 x hx).1)
          (fun x hx => ((Select.throughout_iff.mp hb.select).1 x hx).1) (Select.beq_iff.mp hr).2.1

theorem Source.baseTablesAll_of_beq {N : Nodes} : ∀ {f g : List Source},
    (∀ x ∈ f, x.view.Throughout N.Holds) → (∀ x ∈ g, x.view.Throughout N.Holds) →
      Source.beqAll f g = true → Source.baseTablesAll f = Source.baseTablesAll g
  | [], g, _, _, h => by
      obtain rfl := Source.beqAll_nil.mp h
      rfl
  | ⟨v, _, _, _⟩ :: f, _, hf, hg, h => by
      obtain ⟨⟨w, _, _, _⟩, g, rfl, hvw, -, hfg⟩ := Source.beqAll_cons.mp h
      rw [List.forall_mem_cons] at hf hg
      rw [Source.baseTablesAll, Source.baseTablesAll, View.baseTables_of_beq hf.1 hg.1 hvw,
        Source.baseTablesAll_of_beq hf.2 hg.2 hfg]

end

namespace View

variable {N : Nodes} {a b v w p : View}

/-- Two views have a base table in common. -/
def Shares (a b : View) : Prop := ∃ n ∈ a.baseTables, n ∈ b.baseTables

theorem Shares.symm (h : a.Shares b) : b.Shares a := by
  obtain ⟨n, ha, hb⟩ := h
  exact ⟨n, hb, ha⟩

theorem Grounded.shares_of_beq (hg : a.Grounded) (ha : a.Throughout N.Holds) (hb : b.Throughout N.Holds)
    (h : a.beq b = true) : a.Shares b := by
  obtain ⟨n, hn⟩ := hg.exists_mem
  exact ⟨n, hn, baseTables_of_beq ha hb h ▸ hn⟩

/-- Views of less than a given height together are related as their base tables say. -/
def SharingBelow (N : Nodes) (n : Nat) : Prop :=
  ∀ a b : View, a.height + b.height < n → a.Grounded → b.Grounded → a.Throughout N.Holds →
    b.Throughout N.Holds →
      (a.compatible b = true ↔ a.beq b = true ∨ ¬ (a.isJoin = true ∧ b.isJoin = true) ∧ a.Shares b)

/-- A view that is compatible with another one shares a base table with it. -/
theorem SharingBelow.shares {n : Nat} (ih : SharingBelow N n) (hn : a.height + b.height < n)
    (ga : a.Grounded) (gb : b.Grounded) (ha : a.Throughout N.Holds) (hb : b.Throughout N.Holds)
    (h : a.compatible b = true) : a.Shares b := by
  rcases (ih a b hn ga gb ha hb).mp h with h | ⟨-, h⟩
  · exact ga.shares_of_beq ha hb h
  · exact h

/-- A view inherits from an equal one, or from one that it shares a base table with. -/
theorem shares_of_inherits (ih : SharingBelow N (v.height + p.height)) (gv : v.Grounded)
    (gp : p.Grounded) (hv : v.Throughout N.Holds) (hp : p.Throughout N.Holds)
    (h : v.inherits p = true) :
    v.beq p = true ∨ ¬ (v.isJoin = true ∧ p.isJoin = true) ∧ v.Shares p := by
  cases v with
  | table t =>
      rw [inherits] at h
      exact .inl h
  | concrete m =>
      rw [inherits] at h
      have hm : (table m).Throughout N.Holds := throughout_table.mpr trivial
      exact .inr ⟨fun hj => absurd hj.1 Bool.false_ne_true,
        ih.shares (a := table m) (by simp only [height]; omega) (.table m) gp hm hp h⟩
  | join i j =>
      obtain ⟨_, _, t, _⟩ := j
      cases gv with
      | join _ gt =>
          rw [inherits] at h
          split at h
          case isTrue => exact .inl h
          case isFalse hj =>
              exact .inr ⟨fun h' => hj h'.2,
                ih.shares (a := t) (by simp only [height]; omega) gt gp hv.join.target hp h⟩
  | select i q =>
      cases gv with
      | select _ _ gq =>
          rw [inherits_select] at h
          obtain ⟨x, hx, h⟩ := List.any_eq_true.mp h
          have hlt := height_lt_select (i := i) hx
          obtain ⟨n, hn, hnp⟩ := ih.shares (by omega) (gq x hx) gp
            ((Select.throughout_iff.mp hv.select).1 x hx).1 hp h
          exact .inr ⟨fun hj => absurd hj.1 Bool.false_ne_true, n, mem_baseTables_select.mpr ⟨x, hx, hn⟩, hnp⟩

/-- A view that is no table inherits from whatever it shares a base table with, unless that is a join. -/
theorem inherits_of_shares (ih : SharingBelow N (v.height + p.height)) (gv : v.Grounded)
    (gp : p.Grounded) (hv : v.Throughout N.Holds) (hp : p.Throughout N.Holds)
    (htable : ∀ t, v ≠ table t) (hj : p.isJoin = false) (h : v.Shares p) : v.inherits p = true := by
  have hnone : ∀ {w : View}, ¬ (w.isJoin = true ∧ p.isJoin = true) := by
    rintro w ⟨-, h⟩
    rw [hj] at h
    cases h
  cases v with
  | table t => exact absurd rfl (htable t)
  | concrete m =>
      rw [inherits]
      exact (ih _ _ (by simp only [height]; omega) (.table m) gp (throughout_table.mpr trivial) hp).mpr
        (.inr ⟨hnone, h⟩)
  | join i j =>
      obtain ⟨_, _, t, _⟩ := j
      cases gv with
      | join _ gt =>
          rw [inherits, if_neg (by rw [hj]; exact Bool.false_ne_true)]
          exact (ih t p (by simp only [height]; omega) gt gp hv.join.target hp).mpr (.inr ⟨hnone, h⟩)
  | select i q =>
      cases gv with
      | select _ _ gq =>
          obtain ⟨n, hn, hnp⟩ := h
          obtain ⟨x, hx, hnx⟩ := mem_baseTables_select.mp hn
          have hlt := height_lt_select (i := i) hx
          rw [inherits_select]
          exact List.any_eq_true.mpr ⟨x, hx, (ih _ _ (by omega) (gq x hx) gp
            ((Select.throughout_iff.mp hv.select).1 x hx).1 hp).mpr (.inr ⟨hnone, n, hnx, hnp⟩)⟩

/-- Two views that are not both joins and share a base table are compatible: one of them is no table and
can be peeled, or they are the same table. -/
theorem compatible_of_shares (ih : SharingBelow N (a.height + b.height)) (ga : a.Grounded)
    (gb : b.Grounded) (ha : a.Throughout N.Holds) (hb : b.Throughout N.Holds)
    (hj : ¬ (a.isJoin = true ∧ b.isJoin = true)) (h : a.Shares b) : a.compatible b = true := by
  have ih' : SharingBelow N (b.height + a.height) := Nat.add_comm a.height b.height ▸ ih
  rw [compatible, Bool.or_eq_true, Bool.or_eq_true]
  by_cases hb' : b.isJoin = true
  · have ha' : a.isJoin = false := by simpa [hb'] using hj
    refine .inr (inherits_of_shares ih' gb ga hb ha (fun t ht => ?_) ha' h.symm)
    rw [ht] at hb'
    cases hb'
  · rw [Bool.not_eq_true] at hb'
    cases a with
    | table t =>
        cases b with
        | table u =>
            obtain ⟨n, ht, hu⟩ := h
            rw [baseTables, List.mem_singleton] at ht hu
            have hname : (t.name == u.name) = true := beq_iff_eq.mpr (ht.symm.trans hu)
            exact .inl (.inl (beq_table.mpr ⟨u, rfl, hname⟩))
        | concrete m => exact .inr (inherits_of_shares ih' gb ga hb ha (by simp) rfl h.symm)
        | join k l => cases hb'
        | select k r => exact .inr (inherits_of_shares ih' gb ga hb ha (by simp) rfl h.symm)
    | concrete m => exact .inl (.inr (inherits_of_shares ih ga gb ha hb (by simp) hb' h))
    | join i j => exact .inl (.inr (inherits_of_shares ih ga gb ha hb (by simp) hb' h))
    | select i q => exact .inl (.inr (inherits_of_shares ih ga gb ha hb (by simp) hb' h))

theorem sharingBelow (N : Nodes) : ∀ n, SharingBelow N n
  | 0 => fun _ _ h => absurd h (Nat.not_lt_zero _)
  | n + 1 => by
      intro a b hn ga gb ha hb
      have ih : SharingBelow N (a.height + b.height) := fun a' b' hlt =>
        sharingBelow N n a' b' (by omega)
      have ih' : SharingBelow N (b.height + a.height) := Nat.add_comm a.height b.height ▸ ih
      constructor
      · intro h
        rw [compatible, Bool.or_eq_true, Bool.or_eq_true] at h
        rcases h with (h | h) | h
        · exact .inl h
        · exact shares_of_inherits ih ga gb ha hb h
        · rcases shares_of_inherits ih' gb ga hb ha h with h | ⟨hj, h⟩
          · exact .inl (beq_symm h)
          · exact .inr ⟨fun hj' => hj hj'.symm, h.symm⟩
      · rintro (h | ⟨hj, h⟩)
        · exact compatible_of_beq h
        · exact compatible_of_shares ih ga gb ha hb hj h

/-- Two views are compatible exactly if they are equal, or are not both joins and have a base table in
common. -/
theorem compatible_iff_shares (ga : a.Grounded) (gb : b.Grounded) (ha : a.Throughout N.Holds)
    (hb : b.Throughout N.Holds) : a.compatible b = true ↔
      (a == b) = true ∨ ¬ (a.isJoin = true ∧ b.isJoin = true) ∧ ∃ n ∈ a.baseTables, n ∈ b.baseTables :=
  sharingBelow N _ a b (Nat.lt_succ_self _) ga gb ha hb

/-- A join of a table to a nested statement, and a fixed table over the same model. -/
theorem peopleNames_join_shares : ∃ (N : Nodes) (a b : View), a.Grounded ∧ b.Grounded
    ∧ a.Throughout N.Holds ∧ b.Throughout N.Holds ∧ (a == b) = false ∧ a.compatible b = true := by
  let j : Join := ⟨none, .table ⟨1, "Department", {}⟩, .select 0 peopleNames, .ofPeople "DEPARTMENT_ID"⟩
  let N : Nodes := ⟨fun _ => j, fun _ => peopleNames⟩
  have hnames : (select 0 peopleNames).Throughout N.Holds := peopleNames_holds rfl
  have hjoin : (join 1 j).Throughout N.Holds := throughout_join.mpr
    ⟨rfl, throughout_table.mpr trivial, hnames, Expr.throughout_column.mpr trivial⟩
  have hfixed : (concrete people).Throughout N.Holds := throughout_concrete.mpr trivial
  have hsources : peopleNames.sources ≠ [] :=
    fun h => absurd (congrArg List.length h) (by decide +kernel)
  have hgrounded : (select 0 peopleNames).Grounded := by
    refine grounded_of_inside fun i q hq => ?_
    rcases List.mem_cons.mp hq with heq | hq
    · exact (select.inj heq).2 ▸ hsources
    · exact nomatch mem_inside_peopleNames hq
  refine ⟨N, _, _, .join 1 hgrounded, .concrete people, hjoin, hfixed, by decide +kernel, ?_⟩
  refine (compatible_iff_shares (.join 1 hgrounded) (.concrete people) hjoin hfixed).mpr (.inr ⟨?_, "People", ?_⟩)
  · exact fun h => nomatch h.2
  · decide +kernel

end View

end SqlCompose
