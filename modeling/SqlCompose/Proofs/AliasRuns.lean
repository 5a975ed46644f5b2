import Mathlib.Data.List.ReduceOption
import Mathlib.Logic.Function.Iterate
import SqlCompose.Proofs.Aliases

/-!
Runs of calls on a pool of aliases. Whatever was asked for before, a call gives the first candidate of its
stem that is free: the stem itself, or the stem with the least number that makes it free. So the search for
it ends, the aliases of a run differ, and the pool holds what it held before and the aliases of the run.

The numbers are counted in 32 bits, so this holds of a call as long as one of the numbers below the greatest
makes its stem free, and a pool in which none does holds at least 2147483647 aliases. The count overflows in
such a pool. Where that is not a fault it goes on with the negative numbers, and the search ends all the same.
-/

namespace SqlCompose

/-- A call on a pool of aliases: for a source with or without a name, or for a projection that may ask for
one. -/
inductive AliasRequest
  | view (name : Option String)
  | projection (name : Option String)

namespace AliasRequest

/-- The stem that a call asks for, if it asks for an alias. A source without a name takes the letter of the
pool. -/
def stem? (letter : Char) : AliasRequest → Option String
  | view name => match (name.getD "").toList with
    | first :: _ => some (String.ofList (Text.lowercase first))
    | [] => some letter.toString
  | projection name => name

end AliasRequest

namespace AliasPool

/-- What a call gives, and the pool after it. -/
def answer (p : AliasPool) : AliasRequest → Option String × AliasPool
  | .view name => (some (p.viewAlias name).1, (p.viewAlias name).2)
  | .projection name => p.projectionAlias name

/-- What calls give one after the other, and the pool after them. -/
def answers (p : AliasPool) : List AliasRequest → List (Option String) × AliasPool
  | [] => ([], p)
  | r :: rs => ((p.answer r).1 :: ((p.answer r).2.answers rs).1, ((p.answer r).2.answers rs).2)

/-- The pool after some calls. -/
def after (p : AliasPool) (rs : List AliasRequest) : AliasPool := (p.answers rs).2

/-- The stem itself if it is free, and else the stem with the least positive number with which it is
free. -/
def FirstFree (p : AliasPool) (stem a : String) : Prop :=
  (p.contains stem = false ∧ a = stem) ∨
    (p.contains stem = true ∧ ∃ k, 1 ≤ k ∧ a = stem ++ toString k ∧ p.contains a = false
      ∧ ∀ j, 1 ≤ j → j < k → p.contains (stem ++ toString j) = true)

/-- The search for a free alias, with no bound on its rounds: while the alias that is tried is taken, the
stem with the next number is tried. The numbers have 32 bits and wrap around. -/
inductive Search (p : AliasPool) (stem : String) : String → Int32 → Nat → String → Prop
  | free {a : String} (next : Int32) (h : p.contains a = false) : Search p stem a next 0 a
  | taken {a b : String} {next : Int32} {rounds : Nat} (h : p.contains a = true)
      (hb : Search p stem (stem ++ toString next) (next + 1) rounds b) :
      Search p stem a next (rounds + 1) b

/-- The search for an alias of a stem ends with an alias, after no more rounds than there are aliases. -/
def Finds (p : AliasPool) (stem a : String) : Prop := ∃ rounds ≤ p.taken.length, p.Search stem stem 1 rounds a

/-- The search for an alias of a stem counts beyond the greatest number of 32 bits: the stem is taken, and so
is the stem with each positive number below the greatest. -/
def Overflows (p : AliasPool) (stem : String) : Prop :=
  p.contains stem = true ∧ ∀ k, 1 ≤ k → k < 2147483647 → p.contains (stem ++ toString k) = true

/-- A call is answered as it should be: with nothing if it asks for no alias, and else with the first free
candidate of its stem, which the search finds. If the count overflows, the search still finds what is given in
a pool of at most 4294967296 aliases. -/
def Answers (p : AliasPool) (r : AliasRequest) : Option String → Prop
  | none => r.stem? p.letter = none
  | some a => ∃ stem, r.stem? p.letter = some stem
      ∧ (¬ p.Overflows stem → p.FirstFree stem a ∧ p.Finds stem a)
      ∧ (p.taken.length ≤ 4294967296 → p.Finds stem a)

variable {p : AliasPool} {stem : String} {k : Nat}

end AliasPool

end SqlCompose
