import LispCore.Number.Binary64
import LispCore.Symbol

/-!
Values: what is read from a text and what programs compute with.

A list is a chain of pairs that ends in `null`. A pair that is kept where it can be mentioned twice
carries the label of its cell, which tells it from another pair with the same contents; a pair that
was just made has none. Functions of the host, channels and coroutines are known by an identity.

Equality is structural and keeps the variants apart. Two pairs with one label are the same pair and
equal without a look into them; everywhere else NaN differs from itself.

Values are finite trees of any depth and never change. A host that goes through them by recursion
stops at the depth that its stack allows; that limit is left out here.
-/

namespace LispCore

/-- A value. `endMark` is the mark of an exhausted text and no form of any. -/
inductive Value where
  | null
  | endMark
  | bool (b : Bool)
  | int (n : Int)
  | float (x : Binary64)
  | str (s : String)
  | char (c : Char)
  | symbol (s : Symbol)
  | pair (cell : Option Nat) (head tail : Value)
  | array (items : List Value)
  | builtin (id : Nat) (name : String)
  | channel (id : Nat) (capacity : Nat)
  | coroutine (id : Nat)
deriving Inhabited

namespace Value

/-- A new pair. -/
def cons (head tail : Value) : Value := .pair none head tail

/-- Whether two labels say that two pairs are one. -/
def sameCell : Option Nat → Option Nat → Bool
  | some a, some b => a == b
  | _, _ => false

mutual

/-- Structural equality. -/
def equal : Value → Value → Bool
  | .null, .null => true
  | .endMark, .endMark => true
  | .bool a, .bool b => a == b
  | .int m, .int n => m == n
  | .float x, .float y => x.numEq y
  | .str s, .str t => s == t
  | .char c, .char d => c == d
  | .symbol s, .symbol t => s == t
  | .pair cell head tail, .pair cell' head' tail' =>
    sameCell cell cell' || (equal head head' && equal tail tail')
  | .array xs, .array ys => equalItems xs ys
  | .builtin id _, .builtin id' _ => id == id'
  | .channel id _, .channel id' _ => id == id'
  | .coroutine id, .coroutine id' => id == id'
  | _, _ => false

/-- Equality of the items of arrays, one by one. -/
def equalItems : List Value → List Value → Bool
  | [], [] => true
  | x :: xs, y :: ys => equal x y && equalItems xs ys
  | _, _ => false

end

/-- What the operators say of two values: a pair is only ever equal to a pair, an array to an array,
and then structure decides. -/
def operatorEqual (a b : Value) : Bool :=
  match a with
  | .pair .. => (b matches .pair ..) && equal a b
  | .array _ => (b matches .array _) && equal a b
  | _ => equal a b

instance : BEq Value := ⟨operatorEqual⟩

/-- Whether a test takes a value as true. -/
def isTruthy : Value → Bool
  | .null => false
  | .bool b => b
  | .int n => n != 0
  | .float x => !x.numEq default
  | .str s => s != ""
  | .array items => !items.isEmpty
  | _ => true

/-- Whether a value can be the key of a binding at all; what a pair or an array holds may change. -/
def isHashable : Value → Bool
  | .pair .. | .array _ => false
  | _ => true

/-! ### Labels -/

mutual

/-- Gives a label to every pair of a value that has none, counting up from `next`, and returns the
first label that is still free. -/
def label (next : Nat) : Value → Value × Nat
  | .pair cell head tail =>
    let (head, next) := label next head
    let (tail, next) := label next tail
    match cell with
    | some c => (.pair (some c) head tail, next)
    | none => (.pair (some next) head tail, next + 1)
  | .array items =>
    let (items, next) := labelItems next items
    (.array items, next)
  | v => (v, next)

/-- Labels the pairs in the items of an array. -/
def labelItems (next : Nat) : List Value → List Value × Nat
  | [] => ([], next)
  | x :: xs =>
    let (x, next) := label next x
    let (xs, next) := labelItems next xs
    (x :: xs, next)

end

end Value

end LispCore
