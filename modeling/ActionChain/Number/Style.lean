import ActionChain.Number.Decimal

/-!
Texts of numbers. The digits are always the shortest that read back; a `NumberStyle` says how they
are laid out. The library writes numbers in two styles, `plain` in expressions and `json` in JSON.
-/
namespace ActionChain

/-- How the digits `d.ddd` and the exponent of the first of them are written. -/
structure NumberStyle where
  /-- The exponents written out with zeros instead of an exponent part. -/
  positional : Int → Bool
  point : Bool
  zeroSign : Bool
  tie : Decimal.Tie
  infinity : String
  minusInfinity : String
  noNumber : String

namespace NumberStyle

/-- Never an exponent, whole numbers without a point, one zero; of two nearest texts the upper. -/
def plain : NumberStyle where
  positional _ := true
  point := false
  zeroSign := false
  tie := .up
  infinity := "inf"
  minusInfinity := "-inf"
  noNumber := "NaN"

/-- Positional from `10 ^ -5` to below `10 ^ 16`, always with a point; JSON has no infinities. -/
def json : NumberStyle where
  positional e := -5 ≤ e && e < 16
  point := true
  zeroSign := true
  tie := .even
  infinity := "null"
  minusInfinity := "null"
  noNumber := "null"

def zeros (n : Nat) : List Char := List.replicate n '0'

/-- Digits without trailing zeros, the first of which stands for `10 ^ e`, written out in full. -/
def writePositional (point : Bool) (ds : List Char) (e : Int) : List Char :=
  if e < 0 then '0' :: '.' :: zeros (-e - 1).toNat ++ ds
  else
    let whole := e.toNat + 1
    if whole < ds.length then ds.take whole ++ '.' :: ds.drop whole
    else ds ++ zeros (whole - ds.length) ++ (if point then ['.', '0'] else [])

def writeExponent (ds : List Char) (e : Int) : List Char :=
  ds.take 1 ++ (if 1 < ds.length then '.' :: ds.drop 1 else []) ++
    'e' :: (if e < 0 then '-' else '+') :: Nat.toDigits 10 e.natAbs

/-- The digits of a positive whole number without its trailing zeros. -/
def significant (n : Nat) : List Char :=
  ((Nat.toDigits 10 n).reverse.dropWhile (· == '0')).reverse

def writeFinite (style : NumberStyle) (m : Nat) : List Char :=
  let d := Decimal.shortest style.tie m
  let ds := if m = 0 then ['0'] else significant d.digits
  let e := if m = 0 then 0 else digitCount d.digits - 1 + d.exponent
  if style.positional e then writePositional style.point ds e else writeExponent ds e

def write (style : NumberStyle) (x : Binary64) : List Char :=
  if x.isNaN then style.noNumber.toList
  else if !x.isFinite then (if x.negative then style.minusInfinity else style.infinity).toList
  else
    let sign := x.negative && (style.zeroSign || x.magnitude != 0)
    (if sign then ['-'] else []) ++ style.writeFinite x.magnitude

def text (style : NumberStyle) (x : Binary64) : String := String.ofList (style.write x)

end NumberStyle

end ActionChain
