import Lineage.Text.Ranges

/-!
# Floating-point numbers in the fewest digits

A double stands for all reals that round to it. `shortest` finds the decimal with the fewest digits
among them, and of those the one nearest to the double. Between two that are equally near the
last digit is even.

The text of a number is positional while the decimal point falls within or near the digits:
`12.34`, `0.001234`, `12340000000.0`. Beyond that it has an exponent with its sign: `1e+30`,
`1.234e-33`.
-/

namespace Lineage.Text

/-! ## 1. Digits -/

/-- A positive double, in units of a fraction `num / den`: its value and the ends of the interval of
    the reals that round to it. The ends count when `closed`. -/
structure Rounding where
  value : Nat
  low : Nat
  high : Nat
  num : Nat
  den : Nat
  closed : Bool

/-- The interval of the double with the given bits, sign left out. -/
def Rounding.ofBits (bits : Nat) : Rounding :=
  let unit := Nat.pow 2 52
  let exponent := bits / unit % 2048
  let fraction := bits % unit
  let m := if exponent = 0 then fraction else fraction + unit
  -- the value is `m * 2 ^ (e - 1075)`; quarters of a unit make all ends whole
  let e := max exponent 1
  let below := if fraction = 0 ∧ 1 < exponent then 1 else 2
  { value := 4 * m
    low := 4 * m - below
    high := 4 * m + 2
    num := Nat.pow 2 (e - 1077)
    den := Nat.pow 2 (1077 - e)
    closed := m % 2 = 0 }

/-- Whether `digits * 10 ^ exponent` rounds to the double. -/
def Rounding.holds (r : Rounding) (digits : Nat) (exponent : Int) : Bool :=
  let x := digits * Nat.pow 10 exponent.toNat * r.den
  let scale := Nat.pow 10 (-exponent).toNat * r.num
  if r.closed then r.low * scale ≤ x && x ≤ r.high * scale
  else r.low * scale < x && x < r.high * scale

/-- The value divided by `10 ^ exponent`, rounded down, and whether the next number is nearer. At
    equal distance the even one counts as nearer. -/
def Rounding.divide (r : Rounding) (exponent : Int) : Nat × Bool :=
  let num := r.value * r.num * Nat.pow 10 (-exponent).toNat
  let den := r.den * Nat.pow 10 exponent.toNat
  let down := num / den
  let twice := 2 * (num % den)
  (down, den < twice || (den == twice && down % 2 == 1))

/-- The greatest power of ten that is not above the value. -/
def Rounding.magnitude (r : Rounding) : Int :=
  let exponents := (List.range 633).map fun (i : Nat) => (308 : Int) - i
  (exponents.find? fun e => 0 < (r.divide e).1).getD (-324)

/-- The decimal of `count` digits that rounds to the double and is nearest to it. -/
def Rounding.decimal? (r : Rounding) (magnitude : Int) (count : Nat) : Option (Nat × Int) :=
  let exponent := magnitude - (count : Int) + 1
  let (down, upNearer) := r.divide exponent
  let near := if upNearer then [down + 1, down] else [down, down + 1]
  (near.find? (r.holds · exponent)).map (·, exponent)

/-- Digits without trailing zeros, and the exponent of ten that goes with them. -/
def trimZeros : (fuel : Nat) → Nat → Int → Nat × Int
  | 0, digits, exponent => (digits, exponent)
  | fuel + 1, digits, exponent =>
      if digits % 10 = 0 then trimZeros fuel (digits / 10) (exponent + 1) else (digits, exponent)

/-- The decimal with the fewest digits that rounds to the double, and is nearest to it. Seventeen
    digits always suffice. -/
def shortest (bits : Nat) : Nat × Int :=
  let r := Rounding.ofBits bits
  let magnitude := r.magnitude
  let (digits, exponent) :=
    ((List.range 17).findSome? fun i => r.decimal? magnitude (i + 1)).getD (0, 0)
  trimZeros 20 digits exponent

/-! ## 2. Text -/

/-- Zeros in a row. -/
def zeros (n : Nat) : String := String.ofList (List.replicate n '0')

/-- The text of `digits * 10 ^ exponent`. -/
def scientific (digits : Nat) (exponent : Int) : String :=
  let ds := Nat.toDigits 10 digits
  let point := (ds.length : Int) + exponent
  if 0 ≤ exponent ∧ point ≤ 16 then
    String.ofList ds ++ zeros exponent.toNat ++ ".0"
  else if 0 < point ∧ point ≤ 16 then
    String.ofList (ds.take point.toNat) ++ "." ++ String.ofList (ds.drop point.toNat)
  else if -5 < point ∧ point ≤ 0 then
    "0." ++ zeros (-point).toNat ++ String.ofList ds
  else
    let mantissa :=
      match ds with
      | [d] => d.toString
      | ds => String.ofList (ds.take 1) ++ "." ++ String.ofList (ds.drop 1)
    let sign := if 0 < point then "+" else ""
    s!"{mantissa}e{sign}{point - 1}"

/-- The text of a finite double. -/
def floatText (x : Float) : String :=
  let bits := x.toBits.toNat
  let half := Nat.pow 2 63
  let sign := if bits / half = 1 then "-" else ""
  let magnitude := bits % half
  if magnitude = 0 then sign ++ "0.0"
  else
    let (digits, exponent) := shortest magnitude
    sign ++ scientific digits exponent

end Lineage.Text
