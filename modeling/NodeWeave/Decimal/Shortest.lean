import NodeWeave.Decimal.Binary

/-!
The shortest decimal that reads back as a floating-point number, and its text. Of the decimals with
the fewest digits the nearest one is taken.
-/

namespace NodeWeave.Decimal

open Binary64

/-- A positive quotient and the quotients halfway to its two neighbours. -/
structure Neighbourhood where
  low : Nat
  value : Nat
  high : Nat
  denominator : Nat
  /-- Whether the halfway points read back as the value. -/
  closed : Bool

/-- The reals that round to the magnitude of a finite number other than zero. -/
def neighbourhood (x : Binary64) : Neighbourhood :=
  let (significand, power) := x.parts
  let gap := if x.fraction = 0 ∧ 1 < x.exponentField then 1 else 2
  let shift := power - 2
  let up := Nat.pow 2 shift.toNat
  { low := (4 * significand - gap) * up
    value := 4 * significand * up
    high := (4 * significand + 2) * up
    denominator := Nat.pow 2 (-shift).toNat
    closed := significand % 2 = 0 }

namespace Neighbourhood

def contains (n : Neighbourhood) (digits : Nat) (exponent : Int) : Bool :=
  let left := digits * Nat.pow 10 exponent.toNat * n.denominator
  let down := Nat.pow 10 (-exponent).toNat
  if n.closed then n.low * down ≤ left && left ≤ n.high * down
  else n.low * down < left && left < n.high * down

/-- How many times `10 ^ exponent` goes into the value, and whether what remains is more than half
of it. A half exactly goes to the even neighbour. -/
def grid (n : Neighbourhood) (exponent : Int) : Nat × Bool :=
  let a := n.value * Nat.pow 10 (-exponent).toNat
  let b := n.denominator * Nat.pow 10 exponent.toNat
  let quotient := a / b
  let twice := 2 * (a % b)
  (quotient, b < twice || (b == twice && quotient % 2 == 1))

/-- The decimal place of the first digit of the value: it is at least `10 ^ place`. -/
def place (n : Neighbourhood) : Int :=
  if n.denominator ≤ n.value then
    (Nat.toDigits 10 (n.value / n.denominator)).length - 1
  else
    let steps := (List.range 330).find? fun k => n.denominator ≤ n.value * Nat.pow 10 (k + 1)
    Int.negSucc (steps.getD 0)

/-- The decimal on a grid that lies in the neighbourhood, the nearer one of two. -/
def onGrid? (n : Neighbourhood) (exponent : Int) : Option (Nat × Int) :=
  let (below, nearerAbove) := n.grid exponent
  let fitsBelow := n.contains below exponent && below != 0
  let fitsAbove := n.contains (below + 1) exponent
  if fitsAbove && (nearerAbove || !fitsBelow) then some (below + 1, exponent)
  else if fitsBelow then some (below, exponent)
  else none

end Neighbourhood

def dropZeros : Nat → Nat × Int → Nat × Int
  | 0, decimal => decimal
  | bound + 1, (digits, exponent) =>
      if digits % 10 = 0 ∧ digits ≠ 0 then dropZeros bound (digits / 10, exponent + 1)
      else (digits, exponent)

/-- The digits and the exponent of the shortest decimal of a finite number other than zero. -/
def shortest (x : Binary64) : Nat × Int :=
  let n := neighbourhood x
  let place := n.place
  let found := (List.range 17).findSome? fun (k : Nat) => n.onGrid? (place - k)
  dropZeros 20 (found.getD (0, 0))

/-- How a floating-point number is written. Between the two bounds on the place of the point it is
written without an exponent. -/
structure Style where
  plusSign : Bool
  notANumber : String
  infinity : String
  leastPoint : Int := -4
  mostPoint : Int := 16

def Style.magnitude (style : Style) (x : Binary64) : String :=
  if x.isZero then "0.0"
  else
    let (digits, exponent) := shortest x
    let written := Nat.toDigits 10 digits
    let point := written.length + exponent
    if 0 ≤ exponent ∧ point ≤ style.mostPoint then
      String.ofList (written ++ List.replicate exponent.toNat '0') ++ ".0"
    else if 0 < point ∧ point ≤ style.mostPoint then
      String.ofList (written.take point.toNat ++ '.' :: written.drop point.toNat)
    else if style.leastPoint ≤ point ∧ point ≤ 0 then
      String.ofList ('0' :: '.' :: List.replicate (-point).toNat '0' ++ written)
    else
      let power := point - 1
      let sign := if style.plusSign ∧ 0 ≤ power then "+" else ""
      let fraction := if written.length = 1 then [] else '.' :: written.drop 1
      String.ofList (written.take 1 ++ fraction) ++ "e" ++ sign ++ toString power

def Style.write (style : Style) (x : Binary64) : String :=
  if x.isNaN then style.notANumber
  else
    let text := if x.isInfinite then style.infinity else style.magnitude x
    if x.isNegative then "-" ++ text else text

@[simp] theorem dropZeros_zero (decimal : Nat × Int) : dropZeros 0 decimal = decimal := rfl

end NodeWeave.Decimal
