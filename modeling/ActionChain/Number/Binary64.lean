/-!
Doubles of IEEE 754, kept as their 64 bits. A finite one is a whole multiple of `2 ^ -1074`, its
`units`. Every operation works on that exact multiple and rounds once, to the nearest, ties to even.
-/
namespace ActionChain

-- Powers are those of core, whatever others are in scope; so literal exponents show their type.
attribute [local instance (high)] instPowNat

/-- The quotient rounded to the nearest whole number, a half to the even neighbour. -/
def roundHalfEven (num den : Nat) : Nat :=
  let q := num / den
  let r := num % den
  if 2 * r < den then q else if den < 2 * r then q + 1 else q + q % 2

/-- A double by its bits: a sign, eleven bits of exponent, fifty-two of fraction. -/
structure Binary64 where
  bits : UInt64
  deriving DecidableEq, Repr, Inhabited

namespace Binary64

/-- The magnitude of infinity. Smaller magnitudes are finite numbers, larger ones are no numbers. -/
def infinite : Nat := 2047 * 2 ^ (52 : Nat)

def negative (x : Binary64) : Bool := 2 ^ (63 : Nat) ≤ x.bits.toNat

/-- The bits without the sign. They order the numbers by absolute value. -/
def magnitude (x : Binary64) : Nat := x.bits.toNat % 2 ^ (63 : Nat)

def ofMagnitude (negative : Bool) (m : Nat) : Binary64 :=
  ⟨UInt64.ofNat ((if negative then 2 ^ (63 : Nat) else 0) + m)⟩

def isFinite (x : Binary64) : Bool := x.magnitude < infinite
def isNaN (x : Binary64) : Bool := infinite < x.magnitude

/-- The absolute value of a finite magnitude, in units of `2 ^ -1074`. -/
def units (m : Nat) : Nat :=
  let k := m / 2 ^ (52 : Nat) - 1
  (m - k * 2 ^ (52 : Nat)) * 2 ^ k

/-- The magnitude nearest to `num / den` units. The leading 53 bits of the quotient are kept, and a
carry out of them lands on the next exponent by itself. -/
def nearest (num den : Nat) : Nat :=
  let k := (num / den).log2 - 52
  min (k * 2 ^ (52 : Nat) + roundHalfEven num (den * 2 ^ k)) infinite

def ofRatio (negative : Bool) (num den : Nat) : Binary64 :=
  ofMagnitude negative (nearest (num * 2 ^ (1074 : Nat)) den)

def ofNat (n : Nat) : Binary64 := ofRatio false n 1
def ofInt (n : Int) : Binary64 := ofRatio (n < 0) n.natAbs 1

def mul (x y : Binary64) : Binary64 :=
  ofRatio (x.negative != y.negative) (units x.magnitude * units y.magnitude) (2 ^ (2148 : Nat))

def div (x y : Binary64) : Binary64 :=
  ofRatio (x.negative != y.negative) (units x.magnitude) (units y.magnitude)

/-- Equality of numbers: the two zeros are one, and what is no number equals nothing. -/
def same (x y : Binary64) : Bool :=
  !x.isNaN && !y.isNaN && (x.bits == y.bits || x.magnitude == 0 && y.magnitude == 0)

def nonnegative (x : Binary64) : Bool := !x.isNaN && (!x.negative || x.magnitude == 0)

/-- The absolute value of a finite double as a whole number, a half going up. -/
def roundHalfUp (x : Binary64) : Nat :=
  (2 * units x.magnitude + 2 ^ (1074 : Nat)) / 2 ^ (1075 : Nat)

end Binary64

end ActionChain
