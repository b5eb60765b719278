import LispCore.Proofs.Symbol.Names
import LispCore.Proofs.Token.Atom
import LispCore.Reader.Literal
import LispCore.Value.List

/-!
The values that have a text of their own which can be read back.

`Readable t v` says that `v` is built from what the reader knows: truth values, integers of 64 bits,
finite numbers, strings, characters, symbols of the table `t` that are spelled as one atom, arrays
and pairs. `unlabel` is what of a value its text shows: everything but the labels by which two pairs
with the same contents are told apart.
-/

namespace LispCore

namespace Value

mutual

/-- A value without the labels of its pairs. -/
def unlabel : Value → Value
  | .pair _ head tail => .cons (unlabel head) (unlabel tail)
  | .array items => .array (unlabelItems items)
  | v => v

/-- Removes the labels of the pairs in the items of an array. -/
def unlabelItems : List Value → List Value
  | [] => []
  | x :: xs => unlabel x :: unlabelItems xs

end

theorem unlabelItems_eq_map (items : List Value) : unlabelItems items = items.map unlabel := by
  induction items with
  | nil => rfl
  | cons x xs ih => rw [unlabelItems, ih, List.map_cons]

/-- A value whose text can be read where the symbols of a table are known. -/
inductive Readable (t : SymbolTable) : Value → Prop where
  | null : Readable t .null
  | bool {b} : Readable t (.bool b)
  | int {n} : minInt ≤ n → n ≤ maxInt → Readable t (.int n)
  | float {negative rank} : Readable t (.float (.finite negative rank))
  | str {s} : Readable t (.str s)
  | char {c} : Readable t (.char c)
  | symbol {s} : t.find? s.name = some s → IsAtom s.name.toList →
      (classifyAtom s.name.toList).1 = .symbol → Readable t (.symbol s)
  | array {items} : (∀ v ∈ items, Readable t v) → Readable t (.array items)
  | pair {cell head tail} : Readable t head → Readable t tail → Readable t (.pair cell head tail)

end Value

end LispCore
