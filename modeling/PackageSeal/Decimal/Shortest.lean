/-!
# Shortest decimals

A floating-point number is shown with the fewest digits that read back as the same number. Exact
arithmetic on naturals decides it: the number stands for all reals that round to it, and of the
decimals with one digit, two digits, and so on, the first that lies among them is taken, the nearer
one where there are two.
-/

namespace PackageSeal.Decimal

/-- A positive decimal `digits * 10 ^ exponent`. -/
structure Numeral where
  digits : Nat
  exponent : Int
deriving DecidableEq

/-- A positive number and the reals that round to it, all over one denominator. -/
structure Rounding where
  value : Nat
  low : Nat
  high : Nat
  denominator : Nat
  /-- Whether the ends of the interval round to the number too. -/
  closed : Bool

namespace Rounding

/-- The rounding of `mantissa * 2 ^ exponent`. Below a power of two the numbers lie closer, which
`atPower` tells. -/
def ofBinary (mantissa : Nat) (exponent : Int) (atPower : Bool) : Rounding :=
  let scale := 1 <<< (exponent - 2).toNat
  ⟨4 * mantissa * scale, (4 * mantissa - (if atPower then 1 else 2)) * scale,
    (4 * mantissa + 2) * scale, 1 <<< (2 - exponent).toNat, mantissa % 2 = 0⟩

/-- The number of digits before the decimal point; zero or less for numbers below one tenth. -/
def magnitude (r : Rounding) : Int :=
  if r.denominator ≤ r.value then ((Nat.toDigits 10 (r.value / r.denominator)).length : Int)
  else
    match (List.range 400).find? fun zeros => r.denominator ≤ r.value * Nat.pow 10 zeros with
    | some zeros => 1 - (zeros : Int)
    | none => 0

/-- The decimal that ends at `10 ^ position` and rounds to the number, if there is one: the nearer
where there are two, the upper at equal distance. -/
def decimalAt? (r : Rounding) (position : Int) : Option Nat :=
  let up := Nat.pow 10 (-position).toNat
  let unit := r.denominator * Nat.pow 10 position.toNat
  let below := r.value * up / unit
  let rounds (n : Nat) : Bool :=
    if r.closed then r.low * up ≤ n * unit && n * unit ≤ r.high * up
    else r.low * up < n * unit && n * unit < r.high * up
  let nearer := r.value * up - below * unit < (below + 1) * unit - r.value * up
  if rounds below && (nearer || !rounds (below + 1)) then some below
  else if rounds (below + 1) then some (below + 1)
  else none

/-- The shortest decimal that rounds to the number. -/
def shortest (r : Rounding) : Numeral :=
  let top := r.magnitude
  let found := (List.range 17).findSome? fun n =>
    let position := top - (Int.ofNat n + 1)
    (r.decimalAt? position).map fun digits => ⟨digits, position⟩
  found.getD ⟨r.value / r.denominator, 0⟩

end Rounding

/-- The digits of a decimal written out, with a point before the fraction and at least one digit on
either side of it. -/
def Numeral.positional (d : Numeral) : String :=
  let digits := Nat.toDigits 10 d.digits
  if 0 ≤ d.exponent then
    String.ofList (digits ++ List.replicate d.exponent.toNat '0' ++ ['.', '0'])
  else
    let places := (-d.exponent).toNat
    let padded := List.replicate (places + 1 - digits.length) '0' ++ digits
    let fraction := (padded.drop (padded.length - places)).reverse.dropWhile (· = '0') |>.reverse
    String.ofList (padded.take (padded.length - places) ++ '.' ::
      (if fraction.isEmpty then ['0'] else fraction))

/-- A floating-point number in positional notation. -/
def ofFloat (x : Float) : String :=
  let bits := x.toBits.toNat
  let negative := bits >>> 63 = 1
  let biased := (bits >>> 52) % 2048
  let fraction := bits % (1 <<< 52)
  let magnitude :=
    if biased = 2047 then "inf"
    else if biased = 0 && fraction = 0 then "0.0"
    else if biased = 0 then (Rounding.ofBinary fraction (-1074) false).shortest.positional
    else
      let r := Rounding.ofBinary ((1 <<< 52) + fraction) (Int.ofNat biased - 1075)
        (fraction = 0 && biased > 1)
      r.shortest.positional
  if biased = 2047 && fraction ≠ 0 then "NaN"
  else if negative then "-" ++ magnitude
  else magnitude

end PackageSeal.Decimal
