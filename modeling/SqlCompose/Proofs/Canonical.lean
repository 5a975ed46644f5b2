import Mathlib.Logic.Relation
import SqlCompose.Proofs.Equality
import SqlCompose.Proofs.Leaves

/-!
The canonical form of an expression: its operators with the pins, the scopes and the references taken off at
every level. Equality takes them off lazily, one level at a time, and a NaN differs from itself on both ways,
so two expressions are equal exactly if their canonical forms are. Pinning leaves, moving them to other views
and wrapping parts in scopes leaves the canonical form alone, and so all that an expression is equal to.
-/

namespace SqlCompose.Expr

mutual

/-- Whether no pin, no scope and no reference stands in the operator tree of an expression, at any depth. -/
def isBare : Expr → Bool
  | literal _ => true
  | apply _ args => isBareAll args
  | column _ => true
  | star _ => true
  | projected .. => false
  | view _ => true
  | pinned .. => false
  | within .. => false

/-- Whether no pin, no scope and no reference stands in the operator trees of some arguments. -/
def isBareAll : List Expr → Bool
  | [] => true
  | e :: es => e.isBare && isBareAll es

end

/-! Canonical forms are bare, and nothing can be taken off what is bare. -/

mutual

theorem isBare_canonical : ∀ e : Expr, e.canonical.isBare = true
  | literal _ => rfl
  | view _ => rfl
  | apply _ args => isBareAll_canonicalAll args
  | within _ e => isBare_canonical e
  | column _ => rfl
  | star _ => rfl
  | projected _ _ d => isBare_canonical d
  | pinned e _ => isBare_canonical e

theorem isBareAll_canonicalAll (es : List Expr) : isBareAll (canonicalAll es) = true := by
  cases es with
  | nil => rfl
  | cons e es => exact Bool.and_eq_true_iff.mpr ⟨isBare_canonical e, isBareAll_canonicalAll es⟩

end

mutual

theorem canonical_of_isBare : ∀ {e : Expr}, e.isBare = true → e.canonical = e
  | literal _, _ => rfl
  | apply op _, h => congrArg (apply op) (canonicalAll_of_isBareAll h)
  | column _, _ => rfl
  | star _, _ => rfl
  | view _, _ => rfl

theorem canonicalAll_of_isBareAll : ∀ {es : List Expr}, isBareAll es = true → canonicalAll es = es
  | [], _ => rfl
  | e :: es, h => by
      obtain ⟨he, hes⟩ := Bool.and_eq_true_iff.mp h
      rw [canonicalAll, canonical_of_isBare he, canonicalAll_of_isBareAll hes]

end

theorem canonical_canonical (e : Expr) : e.canonical.canonical = e.canonical :=
  canonical_of_isBare (isBare_canonical e)

/-! Equality looks at nothing but the canonical forms. -/

theorem beq_comm (a b : Expr) : a.beq b = b.beq a := Bool.eq_iff_iff.mpr ⟨beq_symm, beq_symm⟩

mutual

theorem beq_canonical_left : ∀ a b : Expr, a.canonical.beq b = a.beq b
  | literal _, _ => rfl
  | apply op as, b => by
      rw [canonical, Expr.beq, Expr.beq]
      cases b.core with
      | apply op' bs => exact congrArg (op == op' && ·) (beqAll_canonicalAll_left as bs)
      | literal v => rfl
      | column c => rfl
      | star v => rfl
      | projected v n d => rfl
      | view v => rfl
      | pinned e v => rfl
      | within sc e => rfl
  | column _, _ => rfl
  | star _, _ => rfl
  | projected _ _ d, b => by rw [canonical, Expr.beq, beq_canonical_left d b]
  | view _, _ => rfl
  | pinned e _, b => by rw [canonical, Expr.beq, beq_canonical_left e b]
  | within _ e, b => by rw [canonical, Expr.beq, beq_canonical_left e b]

theorem beqAll_canonicalAll_left : ∀ as bs : List Expr, beqAll (canonicalAll as) bs = beqAll as bs
  | [], _ => rfl
  | _ :: _, [] => by simp [canonicalAll, beqAll]
  | a :: as, b :: bs => by
      rw [canonicalAll, beqAll, beqAll, beq_canonical_left a b, beqAll_canonicalAll_left as bs]

end

theorem beq_canonical_right (a b : Expr) : a.beq b.canonical = a.beq b := by
  rw [beq_comm a, beq_canonical_left, beq_comm b]

variable {a a' : Expr}

/-- What has the same canonical form is equal to the same expressions. -/
theorem beq_congr_canonical (h : a'.canonical = a.canonical) (b : Expr) : a'.beq b = a.beq b := by
  rw [← beq_canonical_left a', h, beq_canonical_left]

/-! Rewriting leaves and wrapping parts. -/

variable {f : Expr → Expr}

mutual

/-- A canonical form stays as it is when the leaves keep theirs. -/
theorem canonical_mapLeaves (hf : ∀ leaf, (f leaf).canonical = leaf.canonical) :
    ∀ e : Expr, (e.mapLeaves f).canonical = e.canonical
  | literal _ => rfl
  | view _ => rfl
  | apply op args => congrArg (apply op) (canonicalAll_mapLeavesAll hf args)
  | within _ e => canonical_mapLeaves hf e
  | column _ => hf _
  | star _ => hf _
  | projected .. => hf _
  | pinned .. => hf _

theorem canonicalAll_mapLeavesAll (hf : ∀ leaf, (f leaf).canonical = leaf.canonical) (es : List Expr) :
    canonicalAll (mapLeavesAll f es) = canonicalAll es := by
  cases es with
  | nil => rfl
  | cons e es =>
      rw [mapLeavesAll, canonicalAll, canonicalAll, canonical_mapLeaves hf e, canonicalAll_mapLeavesAll hf es]

end

theorem canonical_unpinned (e : Expr) : e.unpinned.canonical = e.canonical := by
  cases e <;> rfl

theorem canonical_pinLeaf (v : View) (leaf : Expr) : (leaf.pinLeaf v).canonical = leaf.canonical := by
  rw [pinLeaf, canonical, canonical_unpinned]

theorem canonical_relinkLeaf (v : View) (leaf : Expr) : (leaf.relinkLeaf v).canonical = leaf.canonical := by
  have hplain := canonical_unpinned leaf
  rw [relinkLeaf]
  split
  · rfl
  · split
    · exact hplain
    · split
      · rw [canonical, hplain]
      · rfl

theorem canonical_pin (e : Expr) (v : View) : (e.pin v).canonical = e.canonical :=
  canonical_mapLeaves (canonical_pinLeaf v) e

theorem canonical_relink (e : Expr) (v : View) : (e.relink v).canonical = e.canonical :=
  canonical_mapLeaves (canonical_relinkLeaf v) e

theorem canonicalAll_append (as bs : List Expr) :
    canonicalAll (as ++ bs) = canonicalAll as ++ canonicalAll bs := by
  induction as with
  | nil => rfl
  | cons a as ih => rw [List.cons_append, canonicalAll, canonicalAll, List.cons_append, ih]

/-- One place of the operator tree is rewritten: the leaves there are pinned or moved to a view, or the part is
wrapped in a scope. -/
inductive Rewrite : Expr → Expr → Prop
  | pin (e : Expr) (v : View) : Rewrite e (e.pin v)
  | relink (e : Expr) (v : View) : Rewrite e (e.relink v)
  | wrap (sc : Scope) (e : Expr) : Rewrite e (within sc e)
  | within (sc : Scope) {e e' : Expr} (h : Rewrite e e') : Rewrite (within sc e) (within sc e')
  | argument (op : Operator) (before after : List Expr) {e e' : Expr} (h : Rewrite e e') :
      Rewrite (apply op (before ++ e :: after)) (apply op (before ++ e' :: after))

/-- Any number of places are rewritten, one after the other. -/
abbrev Rewrites : Expr → Expr → Prop := Relation.ReflTransGen Rewrite

theorem Rewrite.canonical_eq (h : Rewrite a a') : a'.canonical = a.canonical := by
  induction h with
  | pin e v => exact canonical_pin e v
  | relink e v => exact canonical_relink e v
  | wrap sc e => rfl
  | within sc h ih => exact ih
  | argument op before after h ih =>
      refine congrArg (apply op) ?_
      rw [canonicalAll_append, canonicalAll_append, canonicalAll, canonicalAll, ih]

theorem Rewrites.canonical_eq (h : Rewrites a a') : a'.canonical = a.canonical := by
  induction h with
  | refl => rfl
  | tail _ hstep ih => exact hstep.canonical_eq.trans ih

/-- Taking off once takes off everything, at every depth. Two expressions are equal exactly if their canonical
forms are, and one may stay as it is. Whatever leaves of an expression are pinned or moved, and whatever parts
of it are wrapped, it is equal to the same expressions as before. -/
theorem canonical_decides_equality (a b : Expr) :
    a.canonical.canonical = a.canonical ∧ a.canonical.isBare = true
      ∧ (a == b) = (a.canonical == b.canonical) ∧ (a == b) = (a == b.canonical)
      ∧ ∀ a', Rewrites a a' → (a' == b) = (a == b) ∧ (b == a') = (b == a) := by
  refine ⟨canonical_canonical a, isBare_canonical a, ?_, (beq_canonical_right a b).symm, fun a' h => ?_⟩
  · exact ((beq_canonical_left a _).trans (beq_canonical_right a b)).symm
  · have hleft : a'.beq b = a.beq b := beq_congr_canonical h.canonical_eq b
    exact ⟨hleft, (beq_comm b a').trans (hleft.trans (beq_comm a b))⟩

/-- The revenue of people, or what is not a number. -/
def revenueOrNaN : Expr := .apply (.function "COALESCE") [.ofPeople "revenue", .literal (.double ⟨0x7ff8000000000000⟩)]

/-- Pinned in one argument and wrapped as a whole, an expression with a NaN still differs from itself. -/
theorem revenueOrNaN_rewritten : ∃ e, Rewrites revenueOrNaN e ∧ e.isBare = false ∧ e.canonical = revenueOrNaN
    ∧ (e == revenueOrNaN) = (revenueOrNaN == revenueOrNaN) ∧ (revenueOrNaN == revenueOrNaN) = false := by
  have hpin : Rewrite revenueOrNaN (revenueOrNaN.pin (.concrete people)) := .pin _ _
  have hrewrites := (Relation.ReflTransGen.single hpin).tail (.wrap [] _)
  obtain ⟨-, -, -, -, hequal⟩ := canonical_decides_equality revenueOrNaN revenueOrNaN
  exact ⟨_, hrewrites, rfl, rfl, (hequal _ hrewrites).1, by decide +kernel⟩

end SqlCompose.Expr
