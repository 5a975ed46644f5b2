import SqlCompose.Json.Cursor
/-!
Numbers of a JSON text: reading them, and skipping them. A number without point and exponent that fits is an
integer, and any other is a double. The significand keeps as many digits as fit in 64 bits and the rest
counts as a power of ten, which is then applied with one rounding at each step.
-/

namespace SqlCompose.Json

/-- A number as it is read. -/
inductive Number
  | integer (value : Int)
  | double (value : Double)

namespace Number

/-- What a number is found to be. -/
def found : Number → Found
  | integer n => .integer n
  | double x => .double x

/-- The greatest significand: the greatest whole number of 64 bits. -/
def significandLimit : Nat := 0xffffffffffffffff

/-- The greatest exponent that is counted: the greatest whole number of 31 bits. -/
def exponentLimit : Nat := 0x7fffffff

/-- The greatest magnitude of a negative integer. -/
def negativeLimit : Nat := 0x8000000000000000

/-- A number extended by digits up to a limit, and how many digits are left from the first that does not
fit. -/
def extend (limit : Nat) : Nat → List Char → Nat × Nat
  | n, [] => (n, 0)
  | n, c :: cs =>
    let m := n * 10 + digitValue c
    if limit < m then (n, cs.length + 1) else extend limit m cs

/-- The double nearest to `significand * 10 ^ exponent`, up to a rounding at each step; none if it is
infinite. Powers of ten go up to `308`, and two divisions by the greatest leave nothing of a significand. -/
def scaled? (significand : Nat) (exponent : Int) : Option Double :=
  let x := Double.nearest significand 1
  if significand = 0 then some x
  else if 308 < exponent then none
  else if 0 ≤ exponent then
    let y := x.timesPowerOfTen exponent.toNat
    if y.isInfinite then none else some y
  else if -308 ≤ exponent then some (x.overPowerOfTen (-exponent).toNat)
  else if -616 ≤ exponent then
    some ((x.overPowerOfTen 308).overPowerOfTen (-exponent - 308).toNat)
  else some (Double.nearest 0 1)

end Number

namespace Reader

/-- A double from its sign, significand and power of ten. -/
def scaledNumber (negative : Bool) (significand : Nat) (exponent : Int) : Reader Number :=
  match Number.scaled? significand exponent with
  | some x => return .double (x.withSign negative)
  | none => failHere .numberOutOfRange

/-- Read the digits of an exponent, the first of which has been passed. An exponent beyond the limit makes
the number too great or zero. -/
def exponentDigits (negative : Bool) (significand : Nat) (exponent : Int) (down : Bool) (first : Nat) :
    Reader Number := do
  let k ← get
  let ds ← digits
  let (e, left) := Number.extend Number.exponentLimit first ds
  if left = 0 then
    scaledNumber negative significand (if down then exponent - e else exponent + e)
  else if significand ≠ 0 ∧ !down then
    throw ⟨.numberOutOfRange, k.offset + (ds.length - left) + 1⟩
  else return .double ((Double.nearest 0 1).withSign negative)

/-- Read an exponent from its letter on. -/
def exponentPart (negative : Bool) (significand : Nat) (exponent : Int) : Reader Number := do
  pass
  let down ← match ← peek with
    | some '+' => do
      pass
      pure false
    | some '-' => do
      pass
      pure true
    | _ => pure false
  match ← peek with
  | none => failHere .endInValue
  | some c =>
    if isDigit c then do
      pass
      exponentDigits negative significand exponent down (digitValue c)
    else failAhead .invalidNumber

/-- Read an exponent if there is one. -/
def exponentPart? (negative : Bool) (significand : Nat) (exponent : Int) : Reader Number := do
  match ← peek with
  | some 'e' | some 'E' => exponentPart negative significand exponent
  | _ => scaledNumber negative significand exponent

/-- Read a fraction from its point on. Digits that no longer fit are passed over. -/
def fractionPart (negative : Bool) (significand : Nat) (exponent : Int) : Reader Number := do
  pass
  let ds ← digits
  if ds.isEmpty then
    match ← peek with
    | none => failAhead .endInValue
    | some _ => failAhead .invalidNumber
  else
    let (n, left) := Number.extend Number.significandLimit significand ds
    exponentPart? negative n (exponent - (ds.length - left : Nat))

/-- The number without point and exponent. A negative zero, and an integer below the range of 64 bits, is a
double. -/
def wholeNumber (negative : Bool) (n : Nat) : Number :=
  if !negative then .integer n
  else if n = 0 ∨ Number.negativeLimit < n then .double ((Double.nearest n 1).withSign true)
  else .integer (-n)

/-- Read a number from its first digit on. -/
def unsignedNumber (negative : Bool) : Reader Number := do
  match ← peek with
  | none => failHere .endInValue
  | some c =>
    if !isDigit c then failAhead .invalidNumber
    else do
      let ds ← if c = '0' then do
          pass
          match ← peek with
          | some d => if isDigit d then failAhead .invalidNumber else pure ['0']
          | none => pure ['0']
        else digits
      let (n, left) := Number.extend Number.significandLimit 0 ds
      match ← peek with
      | some '.' => fractionPart negative n left
      | some 'e' | some 'E' => exponentPart negative n left
      | _ => if left = 0 then return wholeNumber negative n else scaledNumber negative n left

/-- Read a number from its sign or first digit on. -/
def number : Reader Number := do
  if (← peek) = some '-' then do
    pass
    unsignedNumber true
  else unsignedNumber false

/-- Skip an exponent from its letter on. -/
def skipExponent : Reader Unit := do
  pass
  match ← peek with
  | some '+' | some '-' => pass
  | _ => pure ()
  let ds ← digits
  if ds.isEmpty then failAhead .invalidNumber

/-- Skip an exponent if there is one. -/
def skipExponent? : Reader Unit := do
  match ← peek with
  | some 'e' | some 'E' => skipExponent
  | _ => return

/-- Skip a number from its sign or first digit on. -/
def skipNumber : Reader Unit := do
  if (← peek) = some '-' then pass
  match ← peek with
  | some '0' => do
    pass
    if (← peek).any isDigit then failAhead .invalidNumber
  | _ => do
    let ds ← digits
    if ds.isEmpty then failAhead .invalidNumber
  match ← peek with
  | some '.' => do
    pass
    let ds ← digits
    if ds.isEmpty then failAhead .invalidNumber
    skipExponent?
  | _ => skipExponent?

end Reader

end SqlCompose.Json
