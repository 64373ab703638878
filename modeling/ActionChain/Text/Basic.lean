/-!
Characters as digits, and texts cut at a character.
-/
namespace ActionChain.Text

def digit (c : Char) : Nat := c.toNat - '0'.toNat

def decimal (cs : List Char) : Nat := cs.foldl (fun n c => 10 * n + digit c) 0

def hexDigit? (c : Char) : Option Nat :=
  if c.isDigit then some (digit c)
  else if 'a' ≤ c ∧ c ≤ 'f' then some (c.toNat - 'a'.toNat + 10)
  else if 'A' ≤ c ∧ c ≤ 'F' then some (c.toNat - 'A'.toNat + 10)
  else none

def hexadecimal (cs : List Char) : Nat := cs.foldl (fun n c => 16 * n + (hexDigit? c).getD 0) 0

/-- A number in four digits of base sixteen, or in more where four do not hold it. -/
def hex4 (n : Nat) : List Char :=
  let ds := Nat.toDigits 16 n
  List.replicate (4 - ds.length) '0' ++ ds

/-- The parts of a text between the separators; there is always one more than there are separators. -/
def split (sep : Char) : List Char → List (List Char)
  | [] => [[]]
  | c :: cs =>
    if c = sep then [] :: split sep cs
    else match split sep cs with
      | part :: parts => (c :: part) :: parts
      | [] => [[c]]

def join (sep : List Char) : List (List Char) → List Char
  | [] => []
  | [piece] => piece
  | piece :: rest => piece ++ sep ++ join sep rest

end ActionChain.Text
