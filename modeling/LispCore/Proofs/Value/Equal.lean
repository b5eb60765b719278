import LispCore.Value.List

/-!
Values that differ from themselves.

Equality looks into pairs and arrays and compares numbers as numbers, so a value is equal to itself
unless it holds NaN.
-/

namespace LispCore.Value

/-- NaN stands somewhere in a value. -/
inductive HoldsNan : Value → Prop where
  | nan : HoldsNan (.float .nan)
  | head {cell head tail} : HoldsNan head → HoldsNan (.pair cell head tail)
  | tail {cell head tail} : HoldsNan tail → HoldsNan (.pair cell head tail)
  | item {items v} : v ∈ items → HoldsNan v → HoldsNan (.array items)

mutual

/-- **A value is equal to itself**, or it holds NaN. -/
theorem equal_self_or_holdsNan : (v : Value) → v.equal v = true ∨ v.HoldsNan
  | .float x => by
    by_cases hx : x = .nan
    · rw [hx]
      exact .inr .nan
    · exact .inl (by rw [equal, Binary64.numEq_self]; exact hx)
  | .pair cell head tail => by
    obtain hhead | hhead := equal_self_or_holdsNan head
    · obtain htail | htail := equal_self_or_holdsNan tail
      · exact .inl (by rw [equal, hhead, htail]; simp)
      · exact .inr (.tail htail)
    · exact .inr (.head hhead)
  | .array items => by
    obtain hitems | ⟨v, hmem, hv⟩ := equalItems_self_or_holdsNan items
    · exact .inl (by rw [equal, hitems])
    · exact .inr (.item hmem hv)
  | .null | .endMark => .inl (by rw [equal])
  | .bool _ | .int _ | .str _ | .char _ | .symbol _ | .builtin .. | .channel .. | .coroutine _ =>
    .inl (by rw [equal]; exact beq_self_eq_true _)

theorem equalItems_self_or_holdsNan :
    (items : List Value) → equalItems items items = true ∨ ∃ v ∈ items, v.HoldsNan
  | [] => .inl (by rw [equalItems])
  | x :: xs => by
    obtain hx | hx := equal_self_or_holdsNan x
    · obtain hxs | ⟨v, hmem, hv⟩ := equalItems_self_or_holdsNan xs
      · exact .inl (by rw [equalItems, hx, hxs]; rfl)
      · exact .inr ⟨v, List.mem_cons_of_mem x hmem, hv⟩
    · exact .inr ⟨x, List.mem_cons_self, hx⟩

end

theorem HoldsNan.of_ofList {vs : List Value} {tail : Value} (h : (ofList vs tail).HoldsNan) :
    (∃ v ∈ vs, v.HoldsNan) ∨ tail.HoldsNan := by
  induction vs with
  | nil => exact .inr h
  | cons v vs ih =>
    cases h with
    | head hv => exact .inl ⟨v, List.mem_cons_self, hv⟩
    | tail hvs =>
      obtain ⟨w, hmem, hw⟩ | htail := ih hvs
      · exact .inl ⟨w, List.mem_cons_of_mem v hmem, hw⟩
      · exact .inr htail

theorem not_holdsNan_null : ¬HoldsNan .null := by
  intro h
  cases h

end LispCore.Value
