/-!
Double-precision numbers as their 64 bits: sign, magnitude `mantissa * 2 ^ exponent`, comparison, and
the nearest double of a ratio. Nothing here computes with machine floats, so every value can be
reasoned about in `Nat`.
-/

namespace SqlCompose

/-- A double-precision number, given by its 64 bits. -/
structure Double where
  bits : UInt64
deriving DecidableEq

namespace Double

/-- The weight of the sign bit: two to the power of 63. -/
def signWeight : Nat := 0x8000000000000000

/-- The weight of the lowest exponent bit: two to the power of 52. -/
def exponentWeight : Nat := 0x10000000000000

/-- The sign bit. -/
def isNegative (x : Double) : Bool := decide (signWeight ≤ x.bits.toNat)

/-- The bits below the sign: they order the magnitudes. -/
def magnitudeBits (x : Double) : Nat := x.bits.toNat % signWeight

/-- The magnitude bits of infinity; above them lie the NaNs. -/
def infinityBits : Nat := 0x7ff * exponentWeight

def isNaN (x : Double) : Bool := decide (infinityBits < x.magnitudeBits)

def isInfinite (x : Double) : Bool := decide (x.magnitudeBits = infinityBits)

def isZero (x : Double) : Bool := decide (x.magnitudeBits = 0)

/-- The biased exponent field. -/
def exponentField (x : Double) : Nat := x.magnitudeBits / exponentWeight

/-- The fraction field. -/
def fraction (x : Double) : Nat := x.magnitudeBits % exponentWeight

/-- The integer `m` of a finite magnitude `m * 2 ^ q`. -/
def mantissa (x : Double) : Nat :=
  if x.exponentField = 0 then x.fraction else exponentWeight + x.fraction

/-- The exponent `q` of a finite magnitude `m * 2 ^ q`. -/
def exponent (x : Double) : Int := (max x.exponentField 1 : Nat) - 1075

/-- Numeric equality: a NaN equals nothing and the two zeros are equal. -/
protected def beq (x y : Double) : Bool :=
  !x.isNaN && !y.isNaN && (x.bits == y.bits || x.isZero && y.isZero)

instance : BEq Double := ⟨Double.beq⟩

/-- The double with the given sign and magnitude bits. -/
def ofMagnitude (negative : Bool) (magnitude : Nat) : Double :=
  ⟨((if negative then signWeight else 0) + magnitude).toUInt64⟩

/-- The finite magnitude of a double as a ratio of natural numbers. -/
def ratio (x : Double) : Nat × Nat :=
  match x.exponent with
  | .ofNat up => (x.mantissa * Nat.pow 2 up, 1)
  | .negSucc down => (x.mantissa, Nat.pow 2 (down + 1))

/-- `num / den` rounded to the nearest natural number, a half to the even neighbour. -/
def roundHalfEven (num den : Nat) : Nat :=
  let floor := num / den
  let twice := 2 * (num % den)
  if twice < den then floor
  else if den < twice then floor + 1
  else floor + floor % 2

/-- The greatest `e` with `2 ^ e ≤ num / den`, for positive `num` and `den`. -/
def binaryExponent (num den : Nat) : Int :=
  let guess : Int := (Nat.log2 num : Int) - Nat.log2 den
  let reached := if 0 ≤ guess then decide (den * Nat.pow 2 guess.toNat ≤ num)
    else decide (den ≤ num * Nat.pow 2 (-guess).toNat)
  if reached then guess else guess - 1

/-- The magnitude bits of the double nearest to `num / den`, for a positive `den`. A mantissa that
rounds up to the next power of two carries into the exponent field by itself, and a ratio beyond the
largest finite double becomes infinite. -/
def nearestMagnitude (num den : Nat) : Nat :=
  if num = 0 then 0
  else
    let q := max (binaryExponent num den - 52) (-1074)
    let m := if 0 ≤ q then roundHalfEven num (den * Nat.pow 2 q.toNat)
      else roundHalfEven (num * Nat.pow 2 (-q).toNat) den
    min ((q + 1074).toNat * exponentWeight + m) infinityBits

/-- The double nearest to `num / den`. -/
def nearest (num den : Nat) : Double := ofMagnitude false (nearestMagnitude num den)

/-- The magnitude times a power of ten that is itself first rounded to a double. -/
def timesPowerOfTen (x : Double) (k : Nat) : Double :=
  let power := (nearest (Nat.pow 10 k) 1).ratio
  nearest (x.ratio.1 * power.1) (x.ratio.2 * power.2)

/-- The magnitude divided by a power of ten that is itself first rounded to a double. -/
def overPowerOfTen (x : Double) (k : Nat) : Double :=
  let power := (nearest (Nat.pow 10 k) 1).ratio
  nearest (x.ratio.1 * power.2) (x.ratio.2 * power.1)

/-- The same magnitude with the sign set as given. -/
def withSign (x : Double) (negative : Bool) : Double := ofMagnitude negative x.magnitudeBits

end Double

end SqlCompose
