import SqlCompose.Proofs.InPlace
import SqlCompose.Proofs.Runs

/-!
Trying harder. What is not accepted is unwrapped and tried again: a reference gives way to its definition, and
a join to its predicate, everywhere in the operators of the expression at once. What takes their places may be
larger and hold references and joins again, but each step takes one level off all that are nested, so the loop
ends. Every attempt works on a copy of the statement as it was at first.
-/

namespace SqlCompose

namespace Expr

mutual

/-- How deep definitions of references and predicates of joins are nested in an expression. -/
def nesting : Expr → Nat
  | literal _ => 0
  | apply _ args => nestingAll args
  | column _ => 0
  | star _ => 0
  | projected _ _ d => d.nesting + 1
  | view (.join _ ⟨_, _, _, p⟩) => p.nesting + 1
  | view _ => 0
  | pinned e _ => e.nesting
  | within _ e => e.nesting

/-- The greatest nesting among the arguments. -/
def nestingAll : List Expr → Nat
  | [] => 0
  | e :: es => max e.nesting (nestingAll es)

end

/-- What a number of steps of unwrapping make of an expression, each of an expression with something left to
unwrap. -/
inductive UnwrapsTo : Nat → Expr → Expr → Prop
  | refl (e : Expr) : UnwrapsTo 0 e e
  | step {n : Nat} {e b : Expr} (hw : e.isWrapped = true) (h : UnwrapsTo n e.unwrap b) : UnwrapsTo (n + 1) e b

mutual

theorem wrapping_le_nesting : ∀ e : Expr, e.wrapping ≤ e.nesting
  | .literal _ => Nat.le_refl _
  | .apply _ args => wrappingAll_le_nestingAll args
  | .column _ => Nat.le_refl _
  | .star _ => Nat.le_refl _
  | .projected _ _ d => Nat.succ_le_succ (wrapping_le_nesting d)
  | .view (.join _ ⟨_, _, _, p⟩) => Nat.succ_le_succ (wrapping_le_nesting p)
  | .view (.table _) => Nat.le_refl _
  | .view (.concrete _) => Nat.le_refl _
  | .view (.select ..) => Nat.le_refl _
  | .pinned .. => Nat.zero_le _
  | .within .. => Nat.zero_le _

theorem wrappingAll_le_nestingAll (es : List Expr) : wrappingAll es ≤ nestingAll es := by
  cases es with
  | nil => exact Nat.le_refl _
  | cons e es =>
      have he := wrapping_le_nesting e
      have hes := wrappingAll_le_nestingAll es
      rw [wrappingAll, nestingAll]
      omega

end

mutual

/-- What is not wrapped cannot be unwrapped, and the other way round. -/
theorem wrapping_eq_zero : ∀ {e : Expr}, e.wrapping = 0 ↔ e.isWrapped = false
  | .literal _ => by simp [wrapping, isWrapped]
  | .apply _ args => by rw [wrapping, isWrapped]; exact wrappingAll_eq_zero
  | .column _ => by simp [wrapping, isWrapped]
  | .star _ => by simp [wrapping, isWrapped]
  | .projected .. => by simp [wrapping, isWrapped]
  | .view (.join _ ⟨_, _, _, _⟩) => by simp [wrapping, isWrapped]
  | .view (.table _) => by simp [wrapping, isWrapped]
  | .view (.concrete _) => by simp [wrapping, isWrapped]
  | .view (.select ..) => by simp [wrapping, isWrapped]
  | .pinned .. => by simp [wrapping, isWrapped]
  | .within .. => by simp [wrapping, isWrapped]

theorem wrappingAll_eq_zero {es : List Expr} : wrappingAll es = 0 ↔ anyWrapped es = false := by
  cases es with
  | nil => simp [wrappingAll, anyWrapped]
  | cons e es =>
      rw [wrappingAll, anyWrapped, Bool.or_eq_false_iff, Nat.max_eq_zero_iff, wrapping_eq_zero, wrappingAll_eq_zero]

end

mutual

/-- A step of unwrapping takes one level off. -/
theorem wrapping_unwrap : ∀ e : Expr, e.unwrap.wrapping = e.wrapping - 1
  | .literal _ => rfl
  | .apply _ args => wrappingAll_unwrapAll args
  | .column _ => rfl
  | .star _ => rfl
  | .projected .. => rfl
  | .view (.join _ ⟨_, _, _, _⟩) => rfl
  | .view (.table _) => rfl
  | .view (.concrete _) => rfl
  | .view (.select ..) => rfl
  | .pinned .. => rfl
  | .within .. => rfl

theorem wrappingAll_unwrapAll (es : List Expr) : wrappingAll (unwrapAll es) = wrappingAll es - 1 := by
  cases es with
  | nil => rfl
  | cons e es =>
      rw [unwrapAll, wrappingAll, wrappingAll, wrapping_unwrap e, wrappingAll_unwrapAll es, Nat.sub_max_sub_right]

end

namespace UnwrapsTo

variable {e b b' : Expr} {n m : Nat}

/-- Unwrapping goes on from where it is as long as there is something left. -/
theorem le_of_not_wrapped (h : e.UnwrapsTo n b) (hb : b.isWrapped = false) : e.UnwrapsTo m b' → m ≤ n := by
  intro h'
  induction h generalizing m with
  | refl e =>
      cases h' with
      | refl => exact Nat.le_refl 0
      | step hw => rw [hb] at hw; cases hw
  | step hw h ih =>
      cases h' with
      | refl => exact Nat.zero_le _
      | step _ h' => exact Nat.succ_le_succ (ih hb h')

theorem eq (h : e.UnwrapsTo n b) (h' : e.UnwrapsTo n b') : b = b' := by
  induction h with
  | refl e => cases h' with | refl => rfl
  | step hw h ih => cases h' with | step _ h' => exact ih h'

end UnwrapsTo

end Expr

namespace Select

variable {s t u : Select} {e a : Expr} {c d d' : Catalog} {cause : Error} {n m : Nat} {r q : Except Error Expr}

theorem accept_eq (s : Select) (e : Expr) (c : Catalog) :
    s.accept e c = match acceptInPlace e (s, c) with
      | (.ok a, t, d) => .ok ((t, a), d)
      | (.error cause, _) => .error cause := by
  rw [← acceptInPlace_onCopy, InPlace.onCopy]
  rcases acceptInPlace e (s, c) with ⟨cause | a, t, d⟩ <;> rfl

/-- Trying harder is accepting, or else trying harder with what is left after a step of unwrapping. -/
theorem acceptHarder_eq (s : Select) (e : Expr) (c : Catalog) :
    s.acceptHarder e c = match s.accept e c with
      | .ok r => .ok r
      | .error cause => if e.isWrapped then s.acceptHarder e.unwrap c else .error cause := by
  rw [acceptHarder]
  cases hn : e.wrapping with
  | zero =>
      rw [acceptUnwrapping, Expr.wrapping_eq_zero.mp hn]
      cases s.accept e c with
      | ok r => rfl
      | error cause => rfl
  | succ n =>
      have hleft : e.unwrap.wrapping = n := by rw [Expr.wrapping_unwrap, hn, Nat.add_sub_cancel]
      have hrest : s.acceptUnwrapping n e.unwrap = s.acceptHarder e.unwrap := by rw [acceptHarder, hleft]
      cases hr : s.accept e c with
      | ok r => simp only [acceptUnwrapping, hr]
      | error cause => simp only [acceptUnwrapping, hr, hrest]

/-- The loop at an expression: how many attempts it makes, what it returns, and what the statement and the
catalogue are afterwards. Every attempt works in place on a copy of the statement as it was at first, and only
one that does not fail takes its place. -/
inductive Tries (s : Select) (c : Catalog) : Expr → Nat → Except Error Expr → Select → Catalog → Prop
  | accepted {e a : Expr} {t : Select} {d : Catalog} (h : acceptInPlace e (s, c) = (.ok a, t, d)) :
      Tries s c e 1 (.ok a) t d
  | exhausted {e : Expr} {cause : Error} {copy : Select} {d : Catalog}
      (h : acceptInPlace e (s, c) = (.error cause, copy, d)) (hw : e.isWrapped = false) :
      Tries s c e 1 (.error cause) s c
  | again {e : Expr} {cause : Error} {copy : Select} {d : Catalog} {n : Nat} {r : Except Error Expr}
      {t : Select} {d' : Catalog} (h : acceptInPlace e (s, c) = (.error cause, copy, d))
      (hw : e.isWrapped = true) (hrest : Tries s c e.unwrap n r t d') : Tries s c e (n + 1) r t d'

namespace Tries

/-- There is one way the loop goes. -/
theorem eq (h : s.Tries c e n r t d) (h' : s.Tries c e m q u d') : m = n ∧ q = r ∧ u = t ∧ d' = d := by
  induction h generalizing m with
  | accepted h =>
      cases h' with
      | accepted h' =>
          rw [h] at h'
          cases h'
          exact ⟨rfl, rfl, rfl, rfl⟩
      | exhausted h' hw => rw [h] at h'; cases h'
      | again h' hw hrest => rw [h] at h'; cases h'
  | exhausted h hw =>
      cases h' with
      | accepted h' => rw [h] at h'; cases h'
      | exhausted h' hw =>
          rw [h] at h'
          cases h'
          exact ⟨rfl, rfl, rfl, rfl⟩
      | again h' hw' hrest => rw [hw] at hw'; cases hw'
  | again h hw hrest ih =>
      cases h' with
      | accepted h' => rw [h] at h'; cases h'
      | exhausted h' hw' => rw [hw] at hw'; cases hw'
      | again h' hw' hrest' =>
          obtain ⟨rfl, hsame⟩ := ih hrest'
          exact ⟨rfl, hsame⟩

/-- The loop ends, since every step of unwrapping takes one level off. -/
theorem exists_of_wrapping (s : Select) (c : Catalog) : ∀ (n : Nat) (e : Expr), e.wrapping = n →
    ∃ m ≤ n, ∃ r t d, s.Tries c e (m + 1) r t d := by
  intro n
  induction n with
  | zero =>
      intro e hn
      rcases hr : acceptInPlace e (s, c) with ⟨cause | a, t, d⟩
      · exact ⟨0, Nat.le_refl 0, _, _, _, .exhausted hr (Expr.wrapping_eq_zero.mp hn)⟩
      · exact ⟨0, Nat.le_refl 0, _, _, _, .accepted hr⟩
  | succ n ih =>
      intro e hn
      have hw : e.isWrapped = true := by
        by_contra hw
        rw [Expr.wrapping_eq_zero.mpr (Bool.eq_false_iff.mpr hw)] at hn
        cases hn
      rcases hr : acceptInPlace e (s, c) with ⟨cause | a, t, d⟩
      · obtain ⟨m, hm, r, t, d, h⟩ := ih e.unwrap (by rw [Expr.wrapping_unwrap, hn, Nat.add_sub_cancel])
        exact ⟨m + 1, Nat.succ_le_succ hm, r, t, d, .again hr hw h⟩
      · exact ⟨0, Nat.zero_le _, _, _, _, .accepted hr⟩

theorem acceptHarder (h : s.Tries c e n r t d) : s.acceptHarder e c = r.map fun a => ((t, a), d) := by
  induction h with
  | accepted h =>
      rw [acceptHarder_eq, accept_eq, h]
      rfl
  | exhausted h hw =>
      rw [acceptHarder_eq, accept_eq, h, hw]
      rfl
  | again h hw hrest ih =>
      rw [acceptHarder_eq, accept_eq, h]
      dsimp only
      rw [if_pos hw, ih]

/-- The loop returns what becomes of the last expression it tries. It has failed with all before, and it does
not go on after a failure only if there is nothing left to unwrap. -/
theorem last (h : s.Tries c e n r t d) : ∃ k b, n = k + 1 ∧ e.UnwrapsTo k b
    ∧ s.accept b c = (r.map fun a => ((t, a), d))
    ∧ (∀ i < k, ∀ b', e.UnwrapsTo i b' → (s.accept b' c).isOk = false)
    ∧ (r.isOk = false → b.isWrapped = false ∧ t = s ∧ d = c) := by
  induction h with
  | @accepted e a t d h =>
      refine ⟨0, e, rfl, .refl e, ?_, nofun, nofun⟩
      rw [accept_eq, h]
      rfl
  | @exhausted e cause copy d h hw =>
      refine ⟨0, e, rfl, .refl e, ?_, nofun, fun _ => ⟨hw, rfl, rfl⟩⟩
      rw [accept_eq, h]
      rfl
  | @again e cause copy d n r t d' h hw hrest ih =>
      obtain ⟨k, b, rfl, hb, hlast, hbefore, hfailed⟩ := ih
      refine ⟨k + 1, b, rfl, .step hw hb, hlast, fun i hi b' hb' => ?_, hfailed⟩
      cases hb' with
      | refl =>
          rw [accept_eq, h]
          rfl
      | step _ hb' => exact hbefore _ (Nat.lt_of_succ_lt_succ hi) b' hb'

end Tries

/-- Trying harder ends after at most one attempt more than definitions and predicates are nested, in one way
only. It succeeds exactly if one of the unwrapped forms is accepted. It returns what becomes of the last form
it tries, on the statement as it was at first, when all forms before have failed: the first one that is
accepted, or else the one with nothing left to unwrap, and then the statement is what it was. -/
theorem acceptHarder_complete (s : Select) (e : Expr) (c : Catalog) :
    ∃ (n : Nat) (r : Except Error Expr) (t : Select) (d : Catalog), n ≤ e.nesting
      ∧ (∀ {m q u d'}, s.Tries c e m q u d' ↔ m = n + 1 ∧ q = r ∧ u = t ∧ d' = d)
      ∧ s.acceptHarder e c = (r.map fun a => ((t, a), d))
      ∧ (r.isOk = true ↔ ∃ k b, e.UnwrapsTo k b ∧ (s.accept b c).isOk = true)
      ∧ ∃ b, e.UnwrapsTo n b ∧ s.accept b c = (r.map fun a => ((t, a), d))
        ∧ (∀ i < n, ∀ b', e.UnwrapsTo i b' → (s.accept b' c).isOk = false)
        ∧ (r.isOk = false → b.isWrapped = false ∧ t = s ∧ d = c) := by
  obtain ⟨n, hn, r, t, d, h⟩ := Tries.exists_of_wrapping s c e.wrapping e rfl
  obtain ⟨k, b, hk, hb, hlast, hbefore, hfailed⟩ := h.last
  obtain rfl := Nat.succ.inj hk
  refine ⟨n, r, t, d, Nat.le_trans hn e.wrapping_le_nesting, ⟨h.eq, ?_⟩, h.acceptHarder, ⟨fun hr => ?_, ?_⟩,
    b, hb, hlast, hbefore, hfailed⟩
  · rintro ⟨rfl, rfl, rfl, rfl⟩
    exact h
  · refine ⟨n, b, hb, ?_⟩
    rw [hlast]
    cases r with
    | error cause => cases hr
    | ok a => rfl
  · rintro ⟨i, b', hb', hok⟩
    by_contra hr
    have hr : r.isOk = false := Bool.eq_false_iff.mpr hr
    -- the last form has nothing left to unwrap, so every form is the last one or one before
    have hi : i ≤ n := hb.le_of_not_wrapped (hfailed hr).1 hb'
    rcases Nat.lt_or_eq_of_le hi with hi | rfl
    · rw [hbefore i hi b' hb'] at hok
      cases hok
    · obtain rfl := hb.eq hb'
      rw [hlast] at hok
      cases r with
      | error cause => cases hok
      | ok a => cases hr

/-- How many projections the statements behind the sources have. -/
def projectionCounts (s : Select) : List (Option Nat) :=
  s.sources.map fun src => src.view.statement?.map (·.projections.length)

/-- The revenue is projected before the budget turns out to be unknown. -/
example : (acceptInPlace (.equals (.ofPeople "revenue") (.star (.table ⟨1, "Budget", {}⟩)))
      (peopleNames.over, {})).2.1.projectionCounts = [some 2]
    ∧ peopleNames.over.projectionCounts = [some 1] := by
  decide +kernel

end Select

end SqlCompose
