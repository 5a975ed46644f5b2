import SqlCompose.Query.Equality
/-!
Which views can stand for each other. A fixed table inherits from what its model is compatible with, a
join from what its target is compatible with, and a statement from what one of its sources is compatible
with; two joins are related only when they are equal. Compatibility is inheritance in either direction.
-/

namespace SqlCompose

mutual

/-- How many steps lead from a view to its farthest base table. -/
def View.height : View → Nat
  | .table _ => 0
  | .concrete _ => 1
  | .join _ ⟨_, _, t, _⟩ => t.height + 1
  | .select _ ⟨_, f, _, _, _, _, _, _⟩ => Source.heightAll f + 1

/-- The greatest height among the entries of a FROM list. -/
def Source.heightAll : List Source → Nat
  | [] => 0
  | ⟨v, _, _, _⟩ :: rest => max v.height (Source.heightAll rest)

end

theorem Source.height_le_heightAll {c : Source} :
    ∀ {f : List Source}, c ∈ f → c.view.height ≤ Source.heightAll f := by
  intro f
  induction f with
  | nil => simp
  | cons d f ih =>
    obtain ⟨v, a, s, o⟩ := d
    intro h
    rw [Source.heightAll]
    rcases List.mem_cons.1 h with rfl | h
    · exact Nat.le_max_left ..
    · exact Nat.le_trans (ih h) (Nat.le_max_right ..)

namespace View

/-- Whether a view is a join. -/
def isJoin : View → Bool
  | join .. => true
  | _ => false

mutual

/-- The is-a relation between views. -/
def inherits (v p : View) : Bool :=
  match v with
  | table t => table t == p
  | concrete m => (table m).compatible p
  | join i ⟨n, s, t, e⟩ =>
    if p.isJoin then join i ⟨n, s, t, e⟩ == p else t.compatible p
  | select _ ⟨_, f, _, _, _, _, _, _⟩ => f.attach.any fun ⟨c, _⟩ => c.view.compatible p
termination_by 2 * (v.height + p.height)
decreasing_by
  · simp only [height]; omega
  · simp only [height]; omega
  · rename_i h
    have := Source.height_le_heightAll h
    simp only [height]; omega

/-- Whether one of two views can stand for the other. -/
def compatible (a b : View) : Bool := a == b || a.inherits b || b.inherits a
termination_by 2 * (a.height + b.height) + 1
decreasing_by all_goals omega

end

/-- Whether a view is a different, more specific instance of another. -/
def extends? (v p : View) : Bool := !(v == p) && v.inherits p

end View

end SqlCompose
