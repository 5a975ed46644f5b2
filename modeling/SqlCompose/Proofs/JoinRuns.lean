import SqlCompose.Proofs.InStep
import SqlCompose.Proofs.Columns

/-!
What the predicate of a join can see. A join binds tighter than the comma of a FROM list, so its predicate sees
the entries of its own run only: the last entry behind a comma, or the first one, and the joins from there on. The
predicate is accepted in a scope that has all entries up to the join, also those in front of the last comma.
-/

namespace SqlCompose

namespace Piece

/-- A qualifier of a piece of a leaf is the alias of a mapping. -/
theorem mem_labels_of_mem_leafPiecesIn {s : Scope} {leaf : Expr} {x : Piece} {a : String}
    (h : x ∈ Expr.leafPiecesIn s leaf) (ha : x.qualifier? = some a) : a ∈ s.map (·.label) := by
  have hfine : x.isFaulty ≠ true := by
    cases x with
    | reference q n d => exact Bool.false_ne_true
    | star q => exact Bool.false_ne_true
    | _ => cases ha
  rw [Expr.leafPiecesIn] at h
  cases hm : s.resolveLeaf leaf with
  | ok m =>
      rw [hm] at h
      have hq := (Expr.qualifier?_of_mem_leafPieces h).resolve_left hfine
      rw [ha, Option.some.injEq] at hq
      exact List.mem_map.mpr ⟨m, Scope.resolveLeaf_mem hm, hq.symm⟩
  | error cause =>
      rw [hm] at h
      rcases List.mem_cons.mp h with rfl | h
      · cases ha
      · have hq := (Expr.qualifier?_of_mem_leafPieces h).resolve_left hfine
        exact absurd (ha.symm.trans hq) (Option.some_ne_none a)

end Piece

namespace Source

variable {c : Catalog} {x : Source} {f : List Source}

/-- The last entry of a FROM list that stands behind a comma, or else the first one, and the joins behind it. -/
def lastRun : List Source → List Source
  | [] => []
  | src :: rest => if rest.all isJoin then src :: rest else lastRun rest

/-- The last run has the entries with nothing but joins behind them. -/
theorem mem_lastRun : ∀ {f : List Source}, x ∈ lastRun f ↔ ∃ (i : Nat) (h : i < f.length), f[i] = x
    ∧ ∀ (k : Nat) (hk : k < f.length), i < k → f[k].isJoin = true
  | [] => by simp [lastRun]
  | src :: f => by
      rw [lastRun]
      split
      case isTrue hjoins =>
          rw [List.mem_iff_getElem]
          refine exists₂_congr fun i _ => (and_iff_left fun k hk hik => ?_).symm
          obtain ⟨k, rfl⟩ := Nat.exists_eq_add_one_of_ne_zero (Nat.ne_zero_of_lt hik)
          exact List.all_eq_true.mp hjoins _ (List.getElem_mem (Nat.lt_of_succ_lt_succ hk))
      case isFalse hplain =>
          rw [mem_lastRun]
          constructor
          · rintro ⟨i, hi, hx, hjoins⟩
            refine ⟨i + 1, Nat.succ_lt_succ hi, hx, fun k hk hik => ?_⟩
            obtain ⟨k, rfl⟩ := Nat.exists_eq_add_one_of_ne_zero (Nat.ne_zero_of_lt hik)
            exact hjoins k (Nat.lt_of_succ_lt_succ hk) (Nat.lt_of_succ_lt_succ hik)
          · rintro ⟨i, hi, hx, hjoins⟩
            cases i with
            | zero =>
                refine absurd (List.all_eq_true.mpr fun y hy => ?_) hplain
                obtain ⟨k, hk, rfl⟩ := List.mem_iff_getElem.mp hy
                exact hjoins (k + 1) (Nat.succ_lt_succ hk) (Nat.succ_pos k)
            | succ i =>
                exact ⟨i, Nat.lt_of_succ_lt_succ hi, hx,
                  fun k hk hik => hjoins (k + 1) (Nat.succ_lt_succ hk) (Nat.succ_lt_succ hik)⟩

theorem lastRun_suffix : ∀ f : List Source, lastRun f <:+ f
  | [] => List.suffix_refl []
  | src :: f => by
      rw [lastRun]
      split
      · exact List.suffix_refl _
      · exact (lastRun_suffix f).trans (List.suffix_cons src f)

/-- A list is one run if nothing but joins stands behind its first entry. -/
theorem joins_of_lastRun_eq (h : lastRun (x :: f) = x :: f) : ∀ y ∈ f, y.isJoin = true := by
  rw [lastRun] at h
  split at h
  case isTrue hjoins => exact List.all_eq_true.mp hjoins
  case isFalse =>
      have hlength := (lastRun_suffix f).length_le
      rw [h, List.length_cons] at hlength
      exact absurd hlength (Nat.not_succ_le_self _)

/-- Entries that are joins print without a comma in front of them. -/
theorem piecesAfter_joins : ∀ {f : List Source}, (∀ y ∈ f, y.isJoin = true) →
    piecesAfter c f = f.flatMap fun y => .word " " :: Source.pieces c y
  | [], _ => rfl
  | ⟨v, a, s, on⟩ :: f, h => by
      rw [List.forall_mem_cons] at h
      have hon : on.isSome = true := h.1
      rw [piecesAfter, piecesAfter_joins h.2, if_pos hon]
      rfl

/-- Behind the first entry, an entry that is no join prints with a comma in front of it. -/
theorem piecesAfter_cons (x : Source) (f : List Source) :
    piecesAfter c (x :: f) = (if x.isJoin then [] else [.word ","]) ++ piecesAll c (x :: f) := by
  obtain ⟨v, a, s, on⟩ := x
  rw [piecesAfter, piecesAll, isJoin]
  cases on <;> rfl

/-- A FROM list prints some entries at its end without a comma between them, and a comma stands in front of them
if they are not the whole list. -/
def EndsInRun (c : Catalog) (f run : List Source) : Prop := ∃ front, f = front ++ run ∧
  piecesAll c f = (if front = [] then [] else piecesAll c front ++ [.word ","])
    ++ run.flatMap fun y => .word " " :: Source.pieces c y

theorem endsInRun_lastRun : ∀ {f : List Source}, f ≠ [] → EndsInRun c f (lastRun f)
  | src :: f, _ => by
      have hall : ∀ g, piecesAll c (src :: g) = .word " " :: Source.pieces c src ++ piecesAfter c g := by
        intro g
        cases src
        rfl
      rw [lastRun]
      split
      case isTrue hjoins =>
          refine ⟨[], rfl, ?_⟩
          rw [hall, piecesAfter_joins (List.all_eq_true.mp hjoins)]
          rfl
      case isFalse hplain =>
          rcases f with - | ⟨y, f⟩
          · exact absurd rfl hplain
          obtain ⟨front, hf, hpieces⟩ := endsInRun_lastRun (f := y :: f) (List.cons_ne_nil y f)
          refine ⟨src :: front, congrArg (src :: ·) hf, ?_⟩
          rw [if_neg (List.cons_ne_nil src front), hall, hall, piecesAfter_cons, hpieces]
          rcases front with - | ⟨z, front⟩
          · have hjoins := joins_of_lastRun_eq hf.symm
            have hy : y.isJoin = false := Bool.eq_false_iff.mpr fun hy =>
              hplain (List.all_eq_true.mpr (List.forall_mem_cons.mpr ⟨hy, hjoins⟩))
            simp [hy, piecesAfter]
          · obtain ⟨rfl, -⟩ := List.cons.inj hf
            rw [if_neg (List.cons_ne_nil y front), piecesAfter_cons]
            simp only [List.append_assoc, List.cons_append]

/-- The aliases that qualify columns in the predicate an entry is joined on. -/
def qualifiers (c : Catalog) (src : Source) : List String :=
  (src.on.map fun e => (e.pieces c src.scope).filterMap Piece.qualifier?).getD []

theorem isJoin_of_mem_qualifiers {src : Source} {a : String} (h : a ∈ src.qualifiers c) : src.isJoin = true := by
  obtain ⟨v, l, s, on⟩ := src
  cases on with
  | none => exact nomatch h
  | some e => rfl

/-- Whether the predicate an entry is joined on prints in the scope of the entry. -/
def Local (src : Source) : Prop :=
  ∀ e, src.on = some e → ∀ s leaf raw, .leaf s leaf raw ∈ e.occurrences false src.scope → s = src.scope

/-- A predicate that prints in the scope of its entry is qualified by aliases of this scope. -/
theorem Local.qualifiers_subset {src : Source} (h : src.Local) : src.qualifiers c ⊆ src.scope.map (·.label) := by
  intro a ha
  obtain ⟨v, l, s, on⟩ := src
  cases on with
  | none => exact nomatch ha
  | some e =>
      obtain ⟨x, hx, ha⟩ := List.mem_filterMap.mp ha
      have hlayout : Piece.Layout fun x => ∀ a, x.qualifier? = some a → a ∈ s.map (·.label) :=
        ⟨(fun _ _ h => nomatch h), (fun _ _ h => nomatch h), (fun _ _ _ h => nomatch h), fun _ _ h => nomatch h⟩
      have hshown : ∀ o ∈ e.occurrences false s, ∀ y ∈ o.pieces c, ∀ b, y.qualifier? = some b →
          b ∈ s.map (·.label) := by
        intro o ho y hy b hb
        cases o with
        | statement q =>
            obtain rfl := List.mem_singleton.mp hy
            exact nomatch hb
        | leaf sc leaf raw =>
            obtain rfl : sc = s := h e rfl sc leaf raw ho
            exact Piece.mem_labels_of_mem_leafPiecesIn hy hb
      exact hlayout.expr hshown x hx a ha

end Source

namespace Select

variable {s : Select}

/-- Every alias that qualifies a column in the predicate of a join is of an entry of the run of the join. -/
def JoinsSeeRun (c : Catalog) (s : Select) : Prop := ∀ j : Fin s.sources.length,
  ∀ a ∈ s.sources[j].qualifiers c, a ∈ (Source.lastRun (s.sources.take (j + 1))).map (·.label)

instance (c : Catalog) (s : Select) : Decidable (s.JoinsSeeRun c) :=
  inferInstanceAs (Decidable (∀ j : Fin s.sources.length, ∀ a ∈ s.sources[j].qualifiers c,
    a ∈ (Source.lastRun (s.sources.take (j + 1))).map (·.label)))

/-- Nothing but joins stands between an entry and a join whose predicate it qualifies. -/
def Adjoining (c : Catalog) (s : Select) : Prop := ∀ i k j : Fin s.sources.length, i < k → k < j →
  s.sources[i].label ∈ s.sources[j].qualifiers c → s.sources[k].isJoin = true

instance (c : Catalog) (s : Select) : Decidable (s.Adjoining c) :=
  inferInstanceAs (Decidable (∀ i k j : Fin s.sources.length, i < k → k < j →
    s.sources[i].label ∈ s.sources[j].qualifiers c → s.sources[k].isJoin = true))

/-- The predicate of every join is qualified by aliases in scope. -/
def JoinsInScope (c : Catalog) (s : Select) : Prop :=
  ∀ src ∈ s.sources, src.qualifiers c ⊆ src.scope.map (·.label)

instance (c : Catalog) (s : Select) : Decidable (s.JoinsInScope c) :=
  inferInstanceAs (Decidable (∀ src ∈ s.sources, ∀ a ∈ src.qualifiers c, a ∈ src.scope.map (·.label)))

namespace InStep

/-- The aliases in the scope of an entry are those of the entries up to it. -/
theorem mem_scope_labels (h : s.InStep) {j : Nat} (hj : j < s.sources.length) {a : String} :
    a ∈ s.sources[j].scope.map (·.label) ↔ a ∈ (s.sources.take (j + 1)).map (·.label) := by
  have hcaptured : s.sources[j].scope = Scope.oldest s.scope (j + 1) := by
    have hscopes := congrArg (·[j]?) h.captured
    simpa [hj] using hscopes
  have hlabels : s.scope.reverse.map (·.label) = s.sources.map (·.label) := by
    have hnames := List.forall₂_map_left_iff.mpr (List.forall₂_map_right_iff.mpr
      (h.mapped.imp fun _ _ hm => hm.label))
    exact List.forall₂_eq_eq_eq ▸ hnames
  have htake : (s.sources[j].scope.map (·.label)).reverse = (s.sources.take (j + 1)).map (·.label) := by
    rw [hcaptured, Scope.oldest, ← List.map_reverse, List.reverse_drop, h.length_eq, Nat.sub_sub_self hj,
      List.map_take, hlabels, List.map_take]
  rw [← List.mem_reverse, htake]

theorem joinsSeeRun_iff (h : s.InStep) (c : Catalog) :
    s.JoinsSeeRun c ↔ s.Adjoining c ∧ s.JoinsInScope c := by
  have hnodup : (s.sources.map (·.label)).Nodup := (List.nodup_append.mp h.distinct).1
  constructor
  · intro hrun
    constructor
    · intro i k j hik hkj hi
      obtain ⟨x, hx, hlabel⟩ := List.mem_map.mp (hrun j _ hi)
      obtain ⟨i', hi', rfl, hjoins⟩ := Source.mem_lastRun.mp hx
      have hlt : i' < s.sources.length := Nat.lt_of_lt_of_le hi' (List.length_take_le' _ _)
      rw [List.getElem_take] at hlabel
      -- The alias tells that this is the same entry.
      have hsame : s.sources[i'] = s.sources[i.val] :=
        List.inj_on_of_nodup_map hnodup (List.getElem_mem hlt) (List.getElem_mem i.isLt) hlabel
      obtain rfl : i' = i.val := ((List.Nodup.of_map _ hnodup).getElem_inj_iff).mp hsame
      have hk : k.val < (s.sources.take (j + 1)).length := by
        rw [List.length_take]
        omega
      have hjoin := hjoins k hk hik
      rwa [List.getElem_take] at hjoin
    · intro src hsrc a ha
      obtain ⟨j, hj, rfl⟩ := List.mem_iff_getElem.mp hsrc
      obtain ⟨x, hx, rfl⟩ := List.mem_map.mp (hrun ⟨j, hj⟩ a ha)
      exact (h.mem_scope_labels hj).mpr (List.mem_map_of_mem ((Source.lastRun_suffix _).subset hx))
  · rintro ⟨hadjoining, hscope⟩ j a ha
    obtain ⟨x, hx, rfl⟩ := List.mem_map.mp ((h.mem_scope_labels j.isLt).mp (hscope _ (List.getElem_mem _) ha))
    obtain ⟨i, hi, rfl⟩ := List.mem_iff_getElem.mp hx
    refine List.mem_map_of_mem (Source.mem_lastRun.mpr ⟨i, hi, rfl, fun k hk hik => ?_⟩)
    rw [List.getElem_take] at ha ⊢
    rw [List.length_take] at hi hk
    rcases Nat.lt_or_ge k j with hkj | hjk
    · exact hadjoining ⟨i, by omega⟩ ⟨k, by omega⟩ j hik hkj ha
    · obtain rfl : k = j := by omega
      exact Source.isJoin_of_mem_qualifiers ha

end InStep

/-- The predicates of all joins see the runs of the joins exactly if no other source stands between a join and an
entry that its predicate refers to, and no part of a predicate prints in a scope of its own with a foreign
alias. -/
theorem Formed.joins_see_run_iff (h : s.Formed) (c : Catalog) :
    (∀ j : Fin s.sources.length,
        Source.EndsInRun c (s.sources.take (j + 1)) (Source.lastRun (s.sources.take (j + 1))))
      ∧ (s.JoinsSeeRun c ↔ s.Adjoining c ∧ s.JoinsInScope c)
      ∧ ((∀ src ∈ s.sources, src.Local) → s.JoinsInScope c) := by
  refine ⟨fun j => Source.endsInRun_lastRun ?_, h.allInStep.1.joinsSeeRun_iff c,
    fun hlocal src hsrc => (hlocal src hsrc).qualifiers_subset⟩
  rw [ne_eq, List.take_eq_nil_iff, not_or]
  exact ⟨Nat.succ_ne_zero j, List.ne_nil_of_length_pos (Nat.zero_lt_of_lt j.isLt)⟩

/-- The people with their departments. -/
def staff : Select :=
  (Call.addSource (.join 5 ofDepartment)).attempt {}
    ((Call.addSource (.table people)).attempt {} (Select.empty 0))

/-- A join right behind its source. -/
theorem staff_sees_run : staff.Formed ∧ staff.sources.map (Source.qualifiers {}) = [[], ["d", "p"]]
    ∧ staff.JoinsSeeRun {} := by
  have hformed : staff.Formed :=
    ((Formed.empty 0).addTable people {}).plainCall (k := .addSource (.join 5 ofDepartment)) rfl {}
  exact ⟨hformed, by decide +kernel, (hformed.joins_see_run_iff {}).2.1.mpr (by decide +kernel)⟩

/-- A table of cities. -/
def city : Table := ⟨2, "City", {}⟩

/-- The people, all cities, and the departments of the people. -/
def staffWithCities : Select :=
  (Call.addSource (.join 5 ofDepartment)).attempt {}
    ((Call.addSource (.table city)).attempt {} ((Call.addSource (.table people)).attempt {} (Select.empty 0)))

/-- A source between a join and its source keeps the predicate from seeing it. -/
theorem staffWithCities_parted : staffWithCities.Formed
    ∧ (staffWithCities.print {}).toOption = some
      "SELECT p.*, c.*, d.* FROM People p, City c INNER JOIN Department d ON d.ID=p.DEPARTMENT_ID"
    ∧ ¬ staffWithCities.JoinsSeeRun {} := by
  have hformed : staffWithCities.Formed :=
    (((Formed.empty 0).addTable people {}).addTable city {}).plainCall
      (k := .addSource (.join 5 ofDepartment)) rfl {}
  exact ⟨hformed, by decide +kernel, by decide +kernel⟩

end Select

end SqlCompose
