import LispCore.Number.Radix
import LispCore.Number.Shortest
import LispCore.Token.Literal
import LispCore.Text.Quoted
import LispCore.Value

/-!
The texts of values. `print` writes a value the way the reader takes it; `display` is how a value
stands in a message, strings without their quotes; `inspect` names the variant where the printed
text does not show it.
-/

namespace LispCore.Value

/-! ### Printed text -/

/-- The printed text of a value that holds no other. -/
def leafChars : Value → List Char
  | .null => ['(', ')']
  | .endMark => ['E', 'n', 'd']
  | .bool true => "true".toList
  | .bool false => "false".toList
  | .int n => intText n
  | .float x => x.text
  | .str s => StringLiteral.encode s.toList
  | .char c => characterLiteral c
  | .symbol s => s.name.toList
  | .builtin _ name => "<builtin ".toList ++ name.toList ++ ['>']
  | .channel _ _ => "[chan]".toList
  | .coroutine _ => "[coroutine]".toList
  | .pair .. | .array _ => []

mutual

/-- The printed text. -/
def chars : Value → List Char
  | .pair _ head tail => '(' :: (chars head ++ tailChars tail)
  | .array items => '[' :: (itemChars items ++ [']'])
  | v => leafChars v

/-- The printed text of the rest of a list after an element, up to the closing bracket. -/
def tailChars : Value → List Char
  | .null => [')']
  | .pair _ head tail => ' ' :: (chars head ++ tailChars tail)
  | .array items => ' ' :: '.' :: ' ' :: '[' :: (itemChars items ++ [']', ')'])
  | v => ' ' :: '.' :: ' ' :: (leafChars v ++ [')'])

/-- The printed texts of the items of an array, with a space between two. -/
def itemChars : List Value → List Char
  | [] => []
  | [x] => chars x
  | x :: xs => chars x ++ ' ' :: itemChars xs

end

/-- The printed text. -/
def print (v : Value) : String := String.ofList v.chars

/-! ### Texts for people -/

/-- How messages and listings write truth values. -/
def boolName (b : Bool) : String := if b then "True" else "False"

/-- A value as it stands in a message. -/
def display : Value → String
  | .bool b => boolName b
  | .str s => s
  | v => v.print

mutual

/-- A value with its variant named. -/
def inspect : Value → String
  | .null => "Null"
  | .endMark => "End"
  | .bool b => boolName b
  | .str s => Text.quoted s
  | .char c => "Char(" ++ Text.quoted (String.ofList [c]) ++ ")"
  | .symbol s => "Symbol(" ++ Text.quoted s.name ++ ", " ++ toString s.id ++ ")"
  | .array items => "Array([" ++ ", ".intercalate (inspectItems items) ++ "])"
  | .builtin _ name => "Builtin(" ++ Text.quoted name ++ ")"
  | .channel _ capacity => "<Channel maxsize=" ++ toString capacity ++ ">"
  | v => v.print

/-- The items of an array with their variants named. -/
def inspectItems : List Value → List String
  | [] => []
  | x :: xs => inspect x :: inspectItems xs

end

end LispCore.Value
