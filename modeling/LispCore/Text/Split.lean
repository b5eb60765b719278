/-!
Texts cut at a separator.
-/

namespace LispCore.Text

/-- The pieces of a text between the separators; there is always one piece more than separators. -/
def splitOn (sep : Char) : List Char → List (List Char)
  | [] => [[]]
  | c :: cs =>
    if c = sep then [] :: splitOn sep cs
    else
      match splitOn sep cs with
      | [] => [[c]]
      | piece :: pieces => (c :: piece) :: pieces

end LispCore.Text
