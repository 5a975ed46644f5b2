import SqlCompose.Text.Lowercase
/-!
Aliases that are unique within one statement. Views and projections draw from the same pool. A view is
called after the first letter of its name, or after a rotating letter when it has none, and a taken stem
gets the first free number behind it. Numbers have 32 bits and are counted from one on.
-/

namespace SqlCompose

/-- The aliases handed out so far, in order, and the next rotating letter. -/
structure AliasPool where
  letter : Char := 'a'
  taken : List String := []

namespace AliasPool

/-- The number that is tried after `k` others. It has 32 bits and wraps around: behind the greatest number come
the negative ones and zero. A search that has tried them all would begin again and never end; here it goes on
with greater numbers, so that every stem has a free alias. -/
def number (k : Nat) : Int := if k < 4294967296 then (Int32.ofNat (k + 1)).toInt else k + 1

/-- The alias tried at step `k`: the stem itself, then the stem with a number. -/
def candidate (stem : String) : Nat → String
  | 0 => stem
  | k + 1 => stem ++ toString (number k)

/-- The first free candidate. One more candidate than there are taken aliases is enough, since the
candidates of one stem differ. -/
def fresh (p : AliasPool) (stem : String) : String :=
  let candidates := (List.range (p.taken.length + 1)).map (candidate stem)
  (candidates.find? fun a => !p.taken.contains a).getD stem

/-- Take the first free alias of a stem. -/
def allocate (p : AliasPool) (stem : String) : String × AliasPool :=
  let a := p.fresh stem
  (a, { p with taken := p.taken ++ [a] })

/-- The letter after another one, back to `a` after `z`. -/
def letterAfter (c : Char) : Char := if c = 'z' then 'a' else Char.ofNat (c.toNat + 1)

/-- Take an alias for a source with or without a name. -/
def viewAlias (p : AliasPool) (name : Option String) : String × AliasPool :=
  match (name.getD "").toList with
  | first :: _ => p.allocate (String.ofList (Text.lowercase first))
  | [] => { p with letter := letterAfter p.letter }.allocate p.letter.toString

/-- Take an alias for a projection, if it asks for one. -/
def projectionAlias (p : AliasPool) : Option String → Option String × AliasPool
  | some name => (p.allocate name).map some id
  | none => (none, p)

/-- Whether an alias has been handed out. -/
def contains (p : AliasPool) (a : String) : Bool := p.taken.contains a

/-- Pools are equal when they rotate to the same letter and the same aliases are taken. -/
protected def beq (p q : AliasPool) : Bool :=
  p.letter == q.letter && p.taken.length == q.taken.length && p.taken.all q.taken.contains

instance : BEq AliasPool := ⟨AliasPool.beq⟩

end AliasPool

end SqlCompose
