import LispCore.Value.List

/-!
Values with their symbols told by name only.

The identity of a symbol depends on which names were interned before it, its name does not. `byName`
forgets the one and keeps the other, so `v.byName = w.byName` says that two values differ in nothing
else.
-/

namespace LispCore.Value

mutual

/-- A value with every symbol replaced by its name. -/
def byName : Value → Value
  | .symbol s => .symbol ⟨s.name, 0⟩
  | .pair cell head tail => .pair cell (byName head) (byName tail)
  | .array items => .array (byNameItems items)
  | v => v

/-- The items of an array with every symbol replaced by its name. -/
def byNameItems : List Value → List Value
  | [] => []
  | x :: xs => byName x :: byNameItems xs

end

theorem byNameItems_eq_map (items : List Value) : byNameItems items = items.map byName := by
  induction items with
  | nil => rfl
  | cons x xs ih => rw [byNameItems, ih, List.map_cons]

@[simp] theorem byName_symbol (s : Symbol) : (Value.symbol s).byName = .symbol ⟨s.name, 0⟩ := by
  rw [byName]

@[simp] theorem byName_array (items : List Value) :
    (Value.array items).byName = .array (items.map byName) := by
  rw [byName, byNameItems_eq_map]

@[simp] theorem byName_null : Value.null.byName = .null := by
  rw [byName] <;> simp

@[simp] theorem byName_cons (head tail : Value) :
    (cons head tail).byName = cons head.byName tail.byName := by
  rw [cons, byName, cons]

@[simp] theorem byName_ofList (items : List Value) (tail : Value) :
    (ofList items tail).byName = ofList (items.map byName) tail.byName := by
  induction items with
  | nil => rfl
  | cons x xs ih => simp [ih]

end LispCore.Value
