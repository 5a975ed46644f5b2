import Mathlib.Algebra.Field.Rat
import Mathlib.Tactic.FieldSimp
import Mathlib.Tactic.Ring
import SqlCompose.Proofs.Reading.Printed

/-!
The value of printed arithmetic. Sums, differences, products and quotients of natural numbers are read by the
usual conventions: parentheses first, products and quotients before sums and differences, and operations of one
level from left to right. An operand that binds as tightly as its operation prints without parentheses, so the
text of a tree has the value of the tree with such operands regrouped to the left. A sum or a product does not
mind. Behind a minus or a division sign an operand of the same level does: a shape of trees keeps its values,
whatever the numbers in it, exactly if it has none there.
-/

namespace SqlCompose

open Piece (textAll)

/-- An operation on numbers. -/
inductive Operation
  | add
  | subtract
  | multiply
  | divide
deriving DecidableEq

namespace Operation

/-- The operator that an operation is printed with. -/
def operator : Operation → Operator
  | add => .add
  | subtract => .subtract
  | multiply => .multiply
  | divide => .divide

/-- Products and quotients go before sums and differences. -/
def isMultiplicative : Operation → Bool
  | multiply | divide => true
  | add | subtract => false

/-- Whether the second operand may be regrouped to the left. -/
def isAssociative : Operation → Bool
  | add | multiply => true
  | subtract | divide => false

/-- The result of an operation. A division by zero has none. -/
def perform : Operation → ℚ → ℚ → Option ℚ
  | add, x, y => some (x + y)
  | subtract, x, y => some (x - y)
  | multiply, x, y => some (x * y)
  | divide, x, y => if y = 0 then none else some (x / y)

/-- The result of an operation on the results of its operands, if these have any. -/
def combine (op : Operation) (x y : Option ℚ) : Option ℚ := x.bind fun x => y.bind (op.perform x)

/-- The number that changes nothing as a second operand. -/
def neutral : Operation → Nat
  | multiply | divide => 1
  | add | subtract => 0

theorem combine_some (op : Operation) (x y : ℚ) : op.combine (some x) (some y) = op.perform x y := rfl

theorem combine_neutral (op : Operation) (x : Option ℚ) : op.combine x (some op.neutral) = x := by
  cases x with
  | none => rfl
  | some x => cases op <;> simp [combine, perform, neutral]

/-- Sums and products take the operations of their level out of their second operand. -/
theorem combine_assoc {op o : Operation} (hop : op.isAssociative = true)
    (h : o.isMultiplicative = op.isMultiplicative) (x y z : Option ℚ) :
    o.combine (op.combine x y) z = op.combine x (o.combine y z) := by
  cases x with
  | none => rfl
  | some x =>
      cases y with
      | none => rfl
      | some y =>
          cases z with
          | none => cases op <;> first | rfl | cases hop
          | some z =>
              cases op with
              | subtract | divide => cases hop
              | add =>
                  cases o with
                  | add => exact congrArg some (add_assoc x y z)
                  | subtract => exact congrArg some (add_sub_assoc x y z)
                  | multiply | divide => cases h
              | multiply =>
                  cases o with
                  | add | subtract => cases h
                  | multiply => exact congrArg some (mul_assoc x y z)
                  | divide =>
                      simp only [combine, perform, Option.bind_some]
                      split
                      · rfl
                      · exact congrArg some (mul_div_assoc x y z)

end Operation

/-- A tree of operations on natural numbers. -/
inductive Arithmetic
  | number (n : Nat)
  | apply (op : Operation) (left right : Arithmetic)
deriving DecidableEq

namespace Arithmetic

/-- The expression that a tree is. -/
def expr : Arithmetic → Expr
  | number n => .literal (.integer n)
  | apply op l r => .apply op.operator [l.expr, r.expr]

/-- The value of a tree. It has none when it divides by zero. -/
def value : Arithmetic → Option ℚ
  | number n => some n
  | apply op l r => op.combine l.value r.value

/-- The levels of the usual conventions. -/
inductive Level
  | factor
  | term
  | sum

/-- The loosest band of the operators on a level. -/
def Level.band : Level → Nat
  | factor => Precedence.atom
  | term => Precedence.multiplicative
  | sum => Precedence.additive

/-- What tokens read as by the usual conventions: a factor is a number or stands in parentheses, a term
multiplies and divides factors from left to right, and a sum adds and subtracts terms from left to right. -/
inductive Reads : Level → List Token → Arithmetic → Prop
  | number (n : Nat) : Reads .factor [.number n] (.number n)
  | parentheses {ts : List Token} {t : Arithmetic} (h : Reads .sum ts t) :
      Reads .factor (.opening :: (ts ++ [.closing])) t
  | factor {ts : List Token} {t : Arithmetic} (h : Reads .factor ts t) : Reads .term ts t
  | term {ts : List Token} {t : Arithmetic} (h : Reads .term ts t) : Reads .sum ts t
  | multiplicative {op : Operation} {ts ts' : List Token} {t t' : Arithmetic}
      (hop : op.isMultiplicative = true) (h : Reads .term ts t) (h' : Reads .factor ts' t') :
      Reads .term (ts ++ .operator op.operator :: ts') (.apply op t t')
  | additive {op : Operation} {ts ts' : List Token} {t t' : Arithmetic}
      (hop : op.isMultiplicative = false) (h : Reads .sum ts t) (h' : Reads .term ts' t') :
      Reads .sum (ts ++ .operator op.operator :: ts') (.apply op t t')

/-- A text has a value if it reads as a tree that has it. -/
def TextValue (text : String) (v : Option ℚ) : Prop :=
  ∃ ts t, Token.lex text = some ts ∧ Reads .sum ts t ∧ t.value = v

/-! Regrouping. -/

/-- Whether an operation of the level of another is at the root of a tree. -/
def isAt (op : Operation) : Arithmetic → Bool
  | number _ => false
  | apply o _ _ => o.isMultiplicative == op.isMultiplicative

/-- An operation on two trees, of which the second is taken apart as long as its root is of the same
level. -/
def graft (x : Arithmetic) (op : Operation) : Arithmetic → Arithmetic
  | number n => apply op x (number n)
  | apply o l r =>
    if o.isMultiplicative = op.isMultiplicative then apply o (graft x op l) r
    else apply op x (apply o l r)

/-- The tree with the operations of each level from left to right. -/
def regrouped : Arithmetic → Arithmetic
  | number n => number n
  | apply op l r => graft l.regrouped op r.regrouped

/-- The tree with all its numbers replaced by zero. -/
def shape : Arithmetic → Arithmetic
  | number _ => number 0
  | apply op l r => apply op l.shape r.shape

/-- No minus or division sign has an operation of its own level behind it. -/
def Faithful : Arithmetic → Prop
  | number _ => True
  | apply op l r => l.Faithful ∧ r.Faithful ∧ (op.isAssociative = true ∨ r.isAt op = false)

variable {t x y z : Arithmetic} {op o : Operation}

theorem graft_graft (h : o.isMultiplicative = op.isMultiplicative) :
    graft x op (graft y o z) = graft (graft x op y) o z := by
  induction z with
  | number n => simp [graft, h]
  | apply p l r ihl _ =>
      by_cases hp : p.isMultiplicative = op.isMultiplicative
      · simp [graft, hp, h, ihl]
      · simp [graft, hp, h]

theorem graft_of_isAt (h : z.isAt op = false) : graft x op z = apply op x z := by
  cases z with
  | number n => rfl
  | apply o l r =>
      have hne : ¬ o.isMultiplicative = op.isMultiplicative := by simpa [isAt] using h
      rw [graft, if_neg hne]

theorem isAt_graft : (graft x o z).isAt op = (o.isMultiplicative == op.isMultiplicative) := by
  cases z with
  | number n => rfl
  | apply p l r =>
      rw [graft]
      split
      case isTrue h => rw [isAt, h]
      case isFalse => rfl

theorem isAt_regrouped : t.regrouped.isAt op = t.isAt op := by
  cases t with
  | number n => rfl
  | apply o l r => exact isAt_graft

/-- A sum or a product has the value of its operands, however it is regrouped. -/
theorem value_graft (h : op.isAssociative = true ∨ z.isAt op = false) :
    (graft x op z).value = op.combine x.value z.value := by
  induction z with
  | number n => rfl
  | apply o l r ihl _ =>
      by_cases ho : o.isMultiplicative = op.isMultiplicative
      · have hop : op.isAssociative = true := h.resolve_right (by simp [isAt, ho])
        rw [graft, if_pos ho, value, ihl (.inl hop)]
        exact Operation.combine_assoc hop ho ..
      · rw [graft, if_neg ho, value]

theorem Faithful.value_regrouped : ∀ {t : Arithmetic}, t.Faithful → t.regrouped.value = t.value
  | number _, _ => rfl
  | apply op l r, ⟨hl, hr, hroot⟩ => by
      rw [regrouped, value_graft (by rwa [isAt_regrouped]), hl.value_regrouped, hr.value_regrouped, value]

/-! Trees of one shape. -/

theorem isAt_shape : t.shape.isAt op = t.isAt op := by
  cases t <;> rfl

theorem faithful_shape : t.shape.Faithful ↔ t.Faithful := by
  induction t with
  | number n => exact Iff.rfl
  | apply op l r ihl ihr => rw [shape, Faithful, Faithful, ihl, ihr, isAt_shape]

/-- The tree with numbers that make it a given number: this one comes first, and every second operand changes
nothing. -/
def filled (n : Nat) : Arithmetic → Arithmetic
  | number _ => number n
  | apply op l r => apply op (l.filled n) (r.filled op.neutral)

theorem shape_filled : ∀ (t : Arithmetic) (n : Nat), (t.filled n).shape = t.shape
  | number _, _ => rfl
  | apply op l r, n => by rw [filled, shape, shape_filled l, shape_filled r, shape]

theorem value_filled : ∀ (t : Arithmetic) (n : Nat), (t.filled n).value = some (n : ℚ)
  | number _, _ => rfl
  | apply op l r, n => by
      rw [filled, value, value_filled l, value_filled r, Operation.combine_neutral]

/-- Such a tree has its value also when it is regrouped, by itself and behind any operation. -/
theorem value_regrouped_filled (t : Arithmetic) : ∀ n : Nat, (t.filled n).regrouped.value = some (n : ℚ) ∧
    ∀ (x : Arithmetic) (op : Operation),
      (graft x op (t.filled n).regrouped).value = op.combine x.value (some (n : ℚ)) := by
  induction t with
  | number m => exact fun n => ⟨rfl, fun x op => rfl⟩
  | apply o l r ihl ihr =>
      intro n
      have hself : ((apply o l r).filled n).regrouped.value = some (n : ℚ) := by
        rw [filled, regrouped, (ihr _).2, Operation.combine_neutral, (ihl n).1]
      refine ⟨hself, fun x op => ?_⟩
      by_cases h : o.isMultiplicative = op.isMultiplicative
      · rw [filled, regrouped, graft_graft h, (ihr _).2, Operation.combine_neutral, (ihl n).2]
      · have hat : ((apply o l r).filled n).regrouped.isAt op = false := by
          rw [isAt_regrouped, filled, isAt]
          simpa using h
        rw [graft_of_isAt hat, value, hself]

/-- Some numbers make a tree and its regrouped form two different numbers, neither of them zero. -/
def Misread (t : Arithmetic) : Prop :=
  ∃ u : Arithmetic, u.shape = t.shape ∧ ∃ p q : ℚ, u.value = some p ∧ u.regrouped.value = some q ∧
    p ≠ q ∧ p ≠ 0 ∧ q ≠ 0

end Arithmetic

/-- An operation on the number that changes nothing tells its second operands apart. -/
theorem Operation.perform_neutral {p q : ℚ} (op : Operation) (hpq : p ≠ q) (hp : p ≠ 0) (hq : q ≠ 0) :
    ∃ p' q' : ℚ, op.perform op.neutral p = some p' ∧ op.perform op.neutral q = some q' ∧
      p' ≠ q' ∧ p' ≠ 0 ∧ q' ≠ 0 := by
  cases op with
  | add => exact ⟨p, q, by simp [perform, neutral], by simp [perform, neutral], hpq, hp, hq⟩
  | subtract =>
      exact ⟨-p, -q, by simp [perform, neutral], by simp [perform, neutral], by simpa using hpq,
        by simpa using hp, by simpa using hq⟩
  | multiply => exact ⟨p, q, by simp [perform, neutral], by simp [perform, neutral], hpq, hp, hq⟩
  | divide =>
      exact ⟨p⁻¹, q⁻¹, by simp [perform, neutral, hp], by simp [perform, neutral, hq], by simpa using hpq,
        by simpa using hp, by simpa using hq⟩

/-- What is added to nothing behind a minus sign is subtracted, what multiplies one behind a division sign
divides, and the other way round; regrouped it is not. -/
theorem Operation.exists_regrouped_ne {op o : Operation} (hop : op.isAssociative = false)
    (ho : o.isMultiplicative = op.isMultiplicative) :
    ∃ p q : ℚ, op.combine (some op.neutral) (o.combine (some op.neutral) (some (op.neutral + 1 : Nat))) = some p ∧
      o.combine (some op.neutral) (some (op.neutral + 1 : Nat)) = some q ∧ p ≠ q ∧ p ≠ 0 ∧ q ≠ 0 := by
  cases op with
  | add | multiply => cases hop
  | subtract =>
      cases o with
      | add => exact ⟨-1, 1, by decide +kernel⟩
      | subtract => exact ⟨1, -1, by decide +kernel⟩
      | multiply | divide => cases ho
  | divide =>
      cases o with
      | add | subtract => cases ho
      | multiply => exact ⟨1 / 2, 2, by decide +kernel⟩
      | divide => exact ⟨2, 1 / 2, by decide +kernel⟩

namespace Arithmetic

variable {t l r a b : Arithmetic} {op o : Operation}

theorem Misread.left (h : l.Misread) (op : Operation) (r : Arithmetic) : (apply op l r).Misread := by
  obtain ⟨u, hu, p, q, hp, hq, hne⟩ := h
  refine ⟨apply op u (r.filled op.neutral), by rw [shape, hu, shape_filled, shape], p, q, ?_, ?_, hne⟩
  · rw [value, hp, value_filled, Operation.combine_neutral]
  · rw [regrouped, (value_regrouped_filled r _).2, hq, Operation.combine_neutral]

theorem Misread.right (h : r.Misread) (hroot : op.isAssociative = true ∨ r.isAt op = false)
    (l : Arithmetic) : (apply op l r).Misread := by
  obtain ⟨u, hu, p, q, hp, hq, hpq, hp0, hq0⟩ := h
  obtain ⟨p', q', hp', hq', hne⟩ := op.perform_neutral hpq hp0 hq0
  refine ⟨apply op (l.filled op.neutral) u, by rw [shape, hu, shape_filled, shape], p', q', ?_, ?_, hne⟩
  · rw [value, hp, value_filled, Operation.combine_some, hp']
  · have hat : op.isAssociative = true ∨ u.regrouped.isAt op = false := by
      rwa [isAt_regrouped, ← isAt_shape, hu, isAt_shape]
    rw [regrouped, value_graft hat, (value_regrouped_filled l _).1, hq, Operation.combine_some, hq']

/-- An operation of the same level behind a minus or a division sign gives something else when it is regrouped. -/
theorem Misread.root (hop : op.isAssociative = false) (ho : o.isMultiplicative = op.isMultiplicative)
    (l a b : Arithmetic) : (apply op l (apply o a b)).Misread := by
  obtain ⟨p, q, hp, hq, hne⟩ := Operation.exists_regrouped_ne hop ho
  refine ⟨apply op (l.filled op.neutral) (apply o (a.filled op.neutral) (b.filled (op.neutral + 1))), ?_, p, q,
    ?_, ?_, hne⟩
  · rw [shape, shape, shape_filled, shape_filled, shape_filled, shape, shape]
  · rw [value, value, value_filled, value_filled, value_filled, hp]
  · rw [regrouped, regrouped, graft_graft ho, (value_regrouped_filled b _).2, (value_regrouped_filled a _).2,
      Operation.combine_neutral, (value_regrouped_filled l _).1, hq]

theorem misread_of_not_faithful (h : ¬ t.Faithful) : t.Misread := by
  induction t with
  | number n => exact absurd trivial h
  | apply op l r ihl ihr =>
      by_cases hroot : op.isAssociative = true ∨ r.isAt op = false
      · by_cases hl : l.Faithful
        · exact (ihr fun hr => h ⟨hl, hr, hroot⟩).right hroot l
        · exact (ihl hl).left op r
      · rw [not_or, Bool.not_eq_true, Bool.not_eq_false] at hroot
        cases r with
        | number n => exact absurd hroot.2 Bool.false_ne_true
        | apply o a b => exact Misread.root hroot.1 (by simpa [isAt] using hroot.2) l a b

/-! What is printed. -/

/-- Whether a sum or a difference is at the root of a tree. -/
def isSum : Arithmetic → Bool
  | number _ => false
  | apply o _ _ => !o.isMultiplicative

/-- The tokens of an operand: in parentheses if its operation goes before sums and it is one. -/
def enclosed (op : Operation) (t : Arithmetic) (ts : List Token) : List Token :=
  if op.isMultiplicative && t.isSum then .opening :: (ts ++ [.closing]) else ts

/-- The tokens that a tree is printed in. -/
def tokens : Arithmetic → List Token
  | number n => [.number n]
  | apply op l r => enclosed op l l.tokens ++ .operator op.operator :: enclosed op r r.tokens

variable {c : Catalog} {s : Scope} {ts ts' : List Token}

theorem isBetween_operator (op : Operation) : op.operator.isBetween = true := by
  cases op <;> rfl

theorem enclosed_iff (op : Operation) (t : Arithmetic) :
    op.operator.precedence < t.expr.precedence ↔ (op.isMultiplicative && t.isSum) = true := by
  cases t with
  | number n =>
      show op.operator.precedence < Precedence.atom ↔ (op.isMultiplicative && false) = true
      cases op <;> decide
  | apply o l r =>
      show op.operator.precedence < o.operator.precedence ↔ (op.isMultiplicative && !o.isMultiplicative) = true
      cases op <;> cases o <;> decide

theorem lexes_enclosed {ps : List Piece} (h : Lexes (textAll ps).toList ts) (op : Operation) (t : Arithmetic) :
    Lexes (textAll (Piece.enclosed op.operator.precedence t.expr.precedence ps)).toList (enclosed op t ts) := by
  rw [Piece.enclosed, enclosed]
  simp only [enclosed_iff op t]
  split
  · have htext : (textAll (Piece.parenthesised ps)).toList = '(' :: ((textAll ps).toList ++ [')']) := by
      simp [Piece.parenthesised, Piece.textAll_append, textAll, Piece.text]
    rw [htext]
    exact h.parenthesised
  · exact h

/-- The text of a tree has the tokens of the tree. -/
theorem lexes_tokens : ∀ t : Arithmetic, Lexes (textAll (t.expr.pieces c s)).toList t.tokens
  | number n => by
      rw [expr, Expr.pieces, textAll, textAll, String.append_empty]
      exact lexes_number n
  | apply op l r => by
      have hsep := Piece.separates_operator (isBetween_operator op)
      have h := hsep.append (lexes_enclosed (lexes_tokens l) op l) (lexes_enclosed (lexes_tokens r) op r)
      rw [expr, Expr.pieces, Operator.arrange_of_isBetween (isBetween_operator op), tokens]
      simpa [Expr.piecesAll, Piece.textAll_append] using h

/-! What the tokens read as. -/

/-- The level of an operation: at this level its first operand is read. -/
def levelOf (op : Operation) : Level := if op.isMultiplicative then .term else .sum

/-- The level at which the second operand of an operation is read. -/
def tighterLevel (op : Operation) : Level := if op.isMultiplicative then .factor else .term

/-- The level of the root of a tree. -/
def level : Arithmetic → Level
  | number _ => .factor
  | apply op _ _ => levelOf op

namespace Reads

theorem between (h : Reads (levelOf op) ts x) (h' : Reads (tighterLevel op) ts' y) :
    Reads (levelOf op) (ts ++ .operator op.operator :: ts') (.apply op x y) := by
  cases op with
  | add | subtract => exact .additive rfl h h'
  | multiply | divide => exact .multiplicative rfl h h'

theorem sum {l : Level} (h : Reads l ts x) : Reads .sum ts x := by
  cases l with
  | factor => exact h.factor.term
  | term => exact h.term
  | sum => exact h

/-- A factor is an operand of every operation. -/
theorem operand (h : Reads .factor ts x) : Reads (levelOf op) ts x ∧ Reads (tighterLevel op) ts x := by
  cases op with
  | add | subtract => exact ⟨h.factor.term, h.factor⟩
  | multiply | divide => exact ⟨h.factor, h⟩

/-- What is printed in front of an operation is read as its first operand. -/
theorem first (h : Reads t.level ts x) : Reads (levelOf op) (enclosed op t ts) x := by
  rw [enclosed]
  split
  case isTrue => exact h.sum.parentheses.operand.1
  case isFalse hloose =>
      cases t with
      | number n => exact h.operand.1
      | apply o l r =>
          cases op with
          | add | subtract => exact h.sum
          | multiply | divide =>
              cases o with
              | add | subtract => exact absurd rfl hloose
              | multiply | divide => exact h

/-- What is printed behind an operation is read as its second operand, unless it is of the same level. -/
theorem second (h : Reads t.level ts x) (hat : t.isAt op = false) :
    Reads (tighterLevel op) (enclosed op t ts) x := by
  rw [enclosed]
  split
  case isTrue => exact h.sum.parentheses.operand.2
  case isFalse hloose =>
      cases t with
      | number n => exact h.operand.2
      | apply o l r =>
          cases op with
          | add | subtract =>
              cases o with
              | add | subtract => cases hat
              | multiply | divide => exact h
          | multiply | divide =>
              cases o with
              | add | subtract => exact absurd rfl hloose
              | multiply | divide => cases hat

end Reads

/-- A tree reads as its regrouped form, by itself and behind any operation. -/
theorem reads_regrouped (t : Arithmetic) : Reads t.level t.tokens t.regrouped ∧
    ∀ {op : Operation} {ts : List Token} {x : Arithmetic}, Reads (levelOf op) ts x →
      Reads (levelOf op) (ts ++ .operator op.operator :: enclosed op t t.tokens) (graft x op t.regrouped) := by
  induction t with
  | number n =>
      have hn : Reads .factor [.number n] (.number n) := .number n
      refine ⟨hn, fun {op ts x} h => ?_⟩
      exact h.between (hn.second (t := number n) rfl)
  | apply o l r ihl ihr =>
      have hself : Reads (levelOf o) (apply o l r).tokens (apply o l r).regrouped := ihr.2 ihl.1.first
      refine ⟨hself, fun {op ts x} h => ?_⟩
      by_cases ho : o.isMultiplicative = op.isMultiplicative
      -- The operands follow one by one: the first behind the operation in front, then the second.
      · have hlevel : levelOf o = levelOf op := by rw [levelOf, levelOf, ho]
        have hopen : enclosed op (apply o l r) (apply o l r).tokens = (apply o l r).tokens := by
          rw [enclosed, isSum, ho, Bool.and_not_self]
          rfl
        have hfirst : enclosed op l l.tokens = enclosed o l l.tokens := by rw [enclosed, enclosed, ho]
        have hl := ihl.2 h
        rw [hfirst, ← hlevel] at hl
        have hr := ihr.2 hl
        rw [List.append_assoc, hlevel, ← graft_graft ho] at hr
        rw [hopen]
        exact hr
      · have hat : (apply o l r).isAt op = false := by simpa [isAt] using ho
        rw [graft_of_isAt (by rw [isAt_regrouped, hat])]
        exact h.between (Reads.second (t := apply o l r) hself hat)

/-! Only one tree can be read. -/

/-- What a tree reads as among all expressions. -/
def reading : Arithmetic → Reading
  | number n => .number n
  | apply op l r => .apply op.operator [l.reading, r.reading]

theorem reading_inj : ∀ {t u : Arithmetic}, t.reading = u.reading → t = u
  | number n, number m, h => by
      cases h
      rfl
  | number n, apply op l r, h => nomatch h
  | apply op l r, number n, h => nomatch h
  | apply op l r, apply o a b, h => by
      obtain ⟨hop, hargs⟩ := Reading.apply.inj h
      obtain ⟨hl, hr⟩ := List.cons_eq_cons.mp hargs
      have hop : op = o := by cases op <;> cases o <;> first | rfl | cases hop
      rw [hop, reading_inj hl, reading_inj (List.cons_eq_cons.mp hr).1]

theorem band_levelOf (op : Operation) : (levelOf op).band = op.operator.precedence := by
  cases op <;> rfl

theorem band_tighterLevel (op : Operation) : (tighterLevel op).band < op.operator.precedence := by
  cases op <;> decide

/-- Tokens read as a tree among all expressions, in a band of some level. -/
def Banded (l : Level) (ts : List Token) (t : Arithmetic) : Prop :=
  ∃ b ≤ l.band, SqlCompose.Reads b ts t.reading

theorem Banded.between (h : Banded (levelOf op) ts x) (h' : Banded (tighterLevel op) ts' y) :
    Banded (levelOf op) (ts ++ .operator op.operator :: ts') (apply op x y) := by
  obtain ⟨b, hle, hb⟩ := h
  obtain ⟨b', hle', hb'⟩ := h'
  rw [band_levelOf] at hle
  exact ⟨_, Nat.le_of_eq (band_levelOf op).symm, .between (isBetween_operator op) hb hle hb'
    (Nat.lt_of_le_of_lt hle' (band_tighterLevel op))⟩

/-- The usual conventions agree with the bands of the operators. -/
theorem Reads.banded {l : Level} (h : Reads l ts t) : Banded l ts t := by
  induction h with
  | number n => exact ⟨_, Nat.le_refl _, .atom rfl⟩
  | parentheses h ih =>
      obtain ⟨b, -, hb⟩ := ih
      exact ⟨_, Nat.le_refl _, .enclosed hb⟩
  | factor h ih =>
      obtain ⟨b, hle, hb⟩ := ih
      exact ⟨b, Nat.le_trans hle (by decide), hb⟩
  | term h ih =>
      obtain ⟨b, hle, hb⟩ := ih
      exact ⟨b, Nat.le_trans hle (by decide), hb⟩
  | @multiplicative op ts ts' t t' hop h h' ih ih' =>
      have hlevel : levelOf op = .term := if_pos hop
      have htighter : tighterLevel op = .factor := if_pos hop
      rw [← hlevel] at ih ⊢
      exact ih.between (htighter ▸ ih')
  | @additive op ts ts' t t' hop h h' ih ih' =>
      have hlevel : levelOf op = .sum := if_neg (hop ▸ Bool.false_ne_true)
      have htighter : tighterLevel op = .term := if_neg (hop ▸ Bool.false_ne_true)
      rw [← hlevel] at ih ⊢
      exact ih.between (htighter ▸ ih')

theorem Reads.eq (h : Reads .sum ts x) (h' : Reads .sum ts y) : x = y := by
  obtain ⟨b, -, hb⟩ := h.banded
  obtain ⟨b', -, hb'⟩ := h'.banded
  exact reading_inj (hb.unique hb')

/-! The value of a text. -/

theorem outlines : ∀ t : Arithmetic, t.expr.Outlines s t.reading
  | number n => .number n
  | apply op l r => .between (isBetween_operator op) (.cons l.outlines (.cons r.outlines .nil))

/-- A tree prints, and its text has the value of the regrouped tree and no other. -/
theorem exists_textValue (c : Catalog) (s : Scope) (t : Arithmetic) : ∃ text, t.expr.print c s = .ok text ∧
    ∀ v, TextValue text v ↔ v = t.regrouped.value := by
  have hreads : Reads .sum t.tokens t.regrouped := t.reads_regrouped.1.sum
  have hlex := (lexes_tokens (c := c) (s := s) t).lex_eq
  refine ⟨_, t.outlines.print_eq, fun v => ⟨?_, ?_⟩⟩
  · rintro ⟨ts, u, hts, hu, rfl⟩
    obtain rfl := Option.some.inj (hlex.symm.trans hts)
    rw [hu.eq hreads]
  · rintro rfl
    exact ⟨_, _, hlex, hreads, rfl⟩

/-- A tree prints, and its text has the value of the tree. -/
def Prints (c : Catalog) (s : Scope) (t : Arithmetic) : Prop :=
  ∃ text, t.expr.print c s = .ok text ∧ ∀ v, TextValue text v ↔ v = t.value

theorem prints_iff {c : Catalog} {s : Scope} : t.Prints c s ↔ t.regrouped.value = t.value := by
  obtain ⟨text, htext, hvalue⟩ := exists_textValue c s t
  constructor
  · rintro ⟨text', htext', hvalue'⟩
    obtain rfl := Except.ok.inj (htext.symm.trans htext')
    exact (hvalue' _).mp ((hvalue _).mpr rfl)
  · intro heq
    exact ⟨text, htext, by simpa [heq] using hvalue⟩

/-- The text of a tree has the value of the tree regrouped to the left; and the text of every tree of a shape
has the value of the tree, or none exactly when the tree has none, if and only if no minus or division sign of
the shape has an operation of its own level behind it. -/
theorem value_kept_iff (c : Catalog) (s : Scope) (t : Arithmetic) :
    (∃ text, t.expr.print c s = .ok text ∧ ∀ v, TextValue text v ↔ v = t.regrouped.value) ∧
      ((∀ u : Arithmetic, u.shape = t.shape → u.Prints c s) ↔ t.Faithful) := by
  refine ⟨exists_textValue c s t, fun h => ?_, fun h u hu => ?_⟩
  · by_contra hnot
    obtain ⟨u, hu, p, q, hp, hq, hne, -⟩ := misread_of_not_faithful hnot
    have heq := prints_iff.mp (h u hu)
    rw [hp, hq] at heq
    exact hne (Option.some.inj heq).symm
  · have hfaithful : u.Faithful := by rwa [← faithful_shape, hu, faithful_shape]
    exact prints_iff.mpr hfaithful.value_regrouped

/-- Ten less the difference of five and three is eight, but it prints as what has the value two. -/
theorem nested_difference_changed : ∃ t : Arithmetic, t.value = some 8 ∧
    t.expr.print {} [] = .ok "10-5-3" ∧ TextValue "10-5-3" (some 2) ∧ ¬ TextValue "10-5-3" (some 8) := by
  refine ⟨.apply .subtract (.number 10) (.apply .subtract (.number 5) (.number 3)), by decide +kernel, ?_⟩
  have hprint : (expr (.apply .subtract (.number 10) (.apply .subtract (.number 5) (.number 3)))).print {} [] =
      .ok "10-5-3" := by cbv
  obtain ⟨text, htext, hvalue⟩ := exists_textValue {} []
    (.apply .subtract (.number 10) (.apply .subtract (.number 5) (.number 3)))
  obtain rfl := Except.ok.inj (hprint.symm.trans htext)
  exact ⟨hprint, (hvalue _).mpr (by decide +kernel), fun h => absurd ((hvalue _).mp h) (by decide +kernel)⟩

end Arithmetic

end SqlCompose
