import LispCore.Symbol

/-!
Bindings: a finite map from symbols that keeps the order in which the symbols were first bound.
`get?_set_self` and `get?_set_of_ne` say that setting a symbol changes what it is bound to and
nothing else.
-/

namespace LispCore

/-- Symbols with what they are bound to, in the order in which they were first bound. -/
structure Bindings (α : Type) where
  entries : List (Symbol × α) := []
  nodup : (entries.map (·.1)).Nodup := by simp

namespace Bindings

variable {α : Type}

instance : EmptyCollection (Bindings α) := ⟨{}⟩

instance : Inhabited (Bindings α) := ⟨∅⟩

/-- The bound symbols, in order. -/
def keys (b : Bindings α) : List Symbol := b.entries.map (·.1)

/-- What a symbol is bound to. -/
def get? (b : Bindings α) (s : Symbol) : Option α := b.entries.lookup s

/-- Whether a symbol is bound. -/
def contains (b : Bindings α) (s : Symbol) : Bool := (b.get? s).isSome

/-- An entry with what its symbol is bound to replaced, if it is the entry of a symbol. -/
def replace (s : Symbol) (a : α) (entry : Symbol × α) : Symbol × α :=
  if entry.1 = s then (s, a) else entry

theorem map_replace (s : Symbol) (a : α) (entries : List (Symbol × α)) :
    (entries.map (replace s a)).map (·.1) = entries.map (·.1) := by
  simp only [List.map_map]
  refine List.map_congr_left fun e _ => ?_
  by_cases h : e.1 = s <;> simp [replace, h]

/-- Binds a symbol. One that is bound already keeps its place. -/
def set (b : Bindings α) (s : Symbol) (a : α) : Bindings α :=
  if h : s ∈ b.keys then
    { entries := b.entries.map (replace s a), nodup := by rw [map_replace]; exact b.nodup }
  else
    { entries := b.entries ++ [(s, a)]
      nodup := by
        rw [List.map_append, List.nodup_append]
        exact ⟨b.nodup, by simp, fun x hx y hy => by
          simp only [List.map_singleton, List.mem_singleton] at hy
          exact fun hxy => h (hy ▸ hxy ▸ hx)⟩ }

theorem lookup_map_replace (s t : Symbol) (a : α) (entries : List (Symbol × α)) :
    (entries.map (replace s a)).lookup t =
      if t = s then (entries.lookup s).map fun _ => a else entries.lookup t := by
  induction entries with
  | nil => simp
  | cons e entries ih =>
    obtain ⟨u, x⟩ := e
    by_cases hu : u = s
    · subst hu
      by_cases ht : t = u
      · subst ht; simp [replace]
      · simp only [List.map_cons, replace, if_true, List.lookup_cons, beq_false_of_ne ht,
          if_neg ht] at ih ⊢
        exact ih
    · by_cases ht : t = s
      · subst ht
        simp only [List.map_cons, replace, if_neg hu, List.lookup_cons, if_true]
        rw [beq_false_of_ne (Ne.symm hu)]
        simpa using ih
      · simp only [List.map_cons, replace, if_neg hu, List.lookup_cons, if_neg ht]
        split
        · rfl
        · simpa [ht] using ih

theorem lookup_isSome_iff (s : Symbol) (entries : List (Symbol × α)) :
    (entries.lookup s).isSome ↔ s ∈ entries.map (·.1) := by
  induction entries with
  | nil => simp
  | cons e entries ih =>
    obtain ⟨u, x⟩ := e
    by_cases h : s = u
    · subst h; simp
    · simp [List.lookup_cons, beq_false_of_ne h, h, ih]

@[simp] theorem get?_set_self (b : Bindings α) (s : Symbol) (a : α) :
    (b.set s a).get? s = some a := by
  by_cases h : s ∈ b.keys
  · obtain ⟨x, hx⟩ := Option.isSome_iff_exists.1 ((lookup_isSome_iff s b.entries).2 h)
    simp [set, get?, h, lookup_map_replace, hx]
  · have hn : b.entries.lookup s = none := by
      rw [← Option.not_isSome_iff_eq_none, lookup_isSome_iff]; exact h
    simp [set, get?, h, List.lookup_append, hn]

theorem get?_set_of_ne (b : Bindings α) {s t : Symbol} (a : α) (h : t ≠ s) :
    (b.set s a).get? t = b.get? t := by
  by_cases hs : s ∈ b.keys
  · simp [set, get?, hs, lookup_map_replace, h]
  · simp [set, get?, hs, List.lookup_append, List.lookup_cons, beq_false_of_ne h]

end Bindings

end LispCore
