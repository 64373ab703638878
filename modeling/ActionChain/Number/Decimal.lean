import ActionChain.Number.Binary64

/-!
Decimals and doubles. `Decimal.magnitude` reads a decimal as the nearest double; `Decimal.shortest`
writes a double with as few digits as read back to it. The second is defined by the first: for one,
two, three, ... digits it looks at the two decimals around the number and takes the first that reads
back, so no fast printing algorithm has to be trusted.
-/
namespace ActionChain

-- Powers are those of core, whatever others are in scope; so literal exponents show their type.
attribute [local instance (high)] instPowNat

def digitCount (n : Nat) : Nat := (Nat.toDigits 10 n).length

/-- The number `digits * 10 ^ exponent`. -/
structure Decimal where
  digits : Nat
  exponent : Int
  deriving DecidableEq, Repr

namespace Decimal

/-- The magnitude of the nearest double. A number of 311 digits or more before the point is beyond
every double, one that starts more than 330 places after it is below half of the least; the powers
of ten stay small that way. -/
def magnitude (d : Decimal) : Nat :=
  let top := digitCount d.digits + d.exponent
  if d.digits = 0 then 0
  else if 310 < top then Binary64.infinite
  else if top < -330 then 0
  else
    Binary64.nearest (d.digits * 10 ^ d.exponent.toNat * 2 ^ (1074 : Nat))
      (10 ^ (-d.exponent).toNat)

def toBinary64 (negative : Bool) (d : Decimal) : Binary64 :=
  Binary64.ofMagnitude negative d.magnitude

inductive Tie
  | up
  | even
  deriving DecidableEq, Repr

/-- The exponent `e` with `10 ^ e ≤ v < 10 ^ (e + 1)`, for `v` of `units` units above zero. -/
def leading (units : Nat) : Int := digitCount (units * 10 ^ (400 : Nat) / 2 ^ (1074 : Nat)) - 401

/-- The nearer of two neighbours, for a number that is `r / den` of the way from one to the other. -/
def nearer (tie : Tie) (low high : Decimal) (r den : Nat) : Decimal :=
  if 2 * r < den then low
  else if den < 2 * r then high
  else match tie with
    | .up => high
    | .even => if low.digits % 2 = 0 then low else high

/-- Of two decimals that one which reads back to the magnitude `m`, or a third if both do. -/
def readingBack? (m : Nat) (low high both : Decimal) : Option Decimal :=
  match low.magnitude == m, high.magnitude == m with
  | true, true => some both
  | true, false => some low
  | false, true => some high
  | false, false => none

/-- The best decimal of `n` digits that reads back to the magnitude `m`. -/
def withDigits? (tie : Tie) (m n : Nat) : Option Decimal :=
  let units := Binary64.units m
  let scale : Int := n - 1 - leading units
  let num := units * 10 ^ scale.toNat
  let den := 2 ^ (1074 : Nat) * 10 ^ (-scale).toNat
  let c := num / den
  let low : Decimal := ⟨c, -scale⟩
  let high : Decimal := ⟨c + 1, -scale⟩
  readingBack? m low high (nearer tie low high (num % den) den)

/-- A finite magnitude in full: every double is a finite decimal. -/
def exact (m : Nat) : Decimal := ⟨Binary64.units m * 5 ^ (1074 : Nat), -1074⟩

/-- The shortest decimal that reads back to the finite magnitude `m`, and of those the nearest. -/
def shortest (tie : Tie) (m : Nat) : Decimal :=
  if m = 0 then ⟨0, 0⟩
  else ((List.range 17).findSome? fun n => withDigits? tie m (n + 1)).getD (exact m)

end Decimal

end ActionChain
