import ActionChain.Text.CodePoints

/-!
White space in the sense of Unicode: what separates the words of a class attribute and is trimmed
around a word.
-/
namespace ActionChain.Text

/-- The characters with the property `White_Space`. -/
def whiteSpace : CodePoints :=
  .ofLines ["9-d 20 85 a0 1680 2000-200a 2028-2029 202f 205f 3000"]

def isBlank (c : Char) : Bool := whiteSpace.contains c

/-- The words of a text: its longest pieces without white space, in order. -/
def words (cs : List Char) : List (List Char) :=
  match cs with
  | [] => []
  | c :: rest =>
    if isBlank c then words rest
    else match rest with
      | [] => [[c]]
      | d :: _ =>
        if isBlank d then [c] :: words rest
        else match words rest with
          | w :: ws => (c :: w) :: ws
          | [] => [[c]]

def trim (cs : List Char) : List Char :=
  ((cs.dropWhile isBlank).reverse.dropWhile isBlank).reverse

end ActionChain.Text
