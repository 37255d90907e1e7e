/-!
Floating-point numbers of 64 bits, kept as their bits: their exact value, and the number nearest
to a decimal.
-/

namespace NodeWeave

/-- A binary floating-point number in the interchange format of 64 bits. -/
structure Binary64 where
  bits : UInt64
  deriving DecidableEq, Repr, Inhabited

namespace Binary64

def signBit : Nat := Nat.pow 2 63

def isNegative (x : Binary64) : Bool :=
  signBit ≤ x.bits.toNat

def magnitude (x : Binary64) : Nat :=
  x.bits.toNat % signBit

def exponentField (x : Binary64) : Nat :=
  x.magnitude / Nat.pow 2 52

def fraction (x : Binary64) : Nat :=
  x.magnitude % Nat.pow 2 52

def isNaN (x : Binary64) : Bool :=
  x.exponentField == 2047 && x.fraction != 0

def isInfinite (x : Binary64) : Bool :=
  x.exponentField == 2047 && x.fraction == 0

def isZero (x : Binary64) : Bool :=
  x.magnitude == 0

/-- The significand and the power of two whose product is the magnitude of a finite number. -/
def parts (x : Binary64) : Nat × Int :=
  if x.exponentField = 0 then (x.fraction, -1074)
  else (x.fraction + Nat.pow 2 52, x.exponentField - 1075)

def withSign (negative : Bool) (magnitude : Nat) : Binary64 :=
  ⟨UInt64.ofNat (magnitude + if negative then signBit else 0)⟩

def infinity (negative : Bool) : Binary64 :=
  withSign negative (2047 * Nat.pow 2 52)

def notANumber : Binary64 :=
  withSign false (2047 * Nat.pow 2 52 + Nat.pow 2 51)

/-- The quotient rounded to the nearest integer, a half to the even one. -/
def roundDiv (a b : Nat) : Nat :=
  let quotient := a / b
  let twice := 2 * (a % b)
  if twice < b then quotient
  else if b < twice then quotient + 1
  else quotient + quotient % 2

def scaled (a b : Nat) (shift : Int) : Nat × Nat :=
  if 0 ≤ shift then (a, b * Nat.pow 2 shift.toNat) else (a * Nat.pow 2 (-shift).toNat, b)

/-- The number nearest to a positive quotient, without a sign. Between two numbers it takes the
one with the even significand. -/
def nearestMagnitude (a b : Nat) : Nat :=
  let estimate : Int := (a.log2 : Int) - b.log2 - 53
  let fitted : Int :=
    let (n, d) := scaled a b estimate
    if Nat.pow 2 53 ≤ n / d then estimate + 1 else estimate
  let power := max fitted (-1074)
  let (n, d) := scaled a b power
  let significand := roundDiv n d
  if significand < Nat.pow 2 52 then significand
  else
    let code := (power + 1074).toNat * Nat.pow 2 52 + significand
    min code (2047 * Nat.pow 2 52)

def ofDecimal (negative : Bool) (digits : Nat) (exponent : Int) : Binary64 :=
  if digits = 0 then withSign negative 0
  else
    let size : Int := (Nat.toDigits 10 digits).length + exponent
    if 310 < size then infinity negative
    else if size < -330 then withSign negative 0
    else if 0 ≤ exponent then
      withSign negative (nearestMagnitude (digits * Nat.pow 10 exponent.toNat) 1)
    else withSign negative (nearestMagnitude digits (Nat.pow 10 (-exponent).toNat))

end Binary64

end NodeWeave
