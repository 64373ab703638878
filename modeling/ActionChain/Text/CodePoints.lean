import ActionChain.Text.Basic

/-!
Sets of characters, written as in the Unicode data files: code points in hexadecimal, ranges with
a dash, separated by blanks.
-/
namespace ActionChain

structure CodePoints where
  ranges : List (Nat × Nat)

namespace CodePoints

def range (cs : List Char) : Nat × Nat :=
  match Text.split '-' cs with
  | [first, last] => (Text.hexadecimal first, Text.hexadecimal last)
  | _ => (Text.hexadecimal cs, Text.hexadecimal cs)

def ofLines (lines : List String) : CodePoints :=
  ⟨lines.flatMap fun line => (Text.split ' ' line.toList).map range⟩

def contains (s : CodePoints) (c : Char) : Bool :=
  s.ranges.any fun (first, last) => first ≤ c.toNat && c.toNat ≤ last

end CodePoints

end ActionChain
