/-!
Symbols and the table that hands them out.

A table is a list of distinct names. The symbol of a name is the name with its place in the list,
and a name that is new is put at the end; so equal names have equal symbols, the places are given in
order of first use, and no entry ever changes. `names_isPrefixOf_insert` and `intern_intern` say so.
-/

namespace LispCore

/-- An interned name. The name is part of it, so that symbols of different tables stay apart. -/
structure Symbol where
  name : String
  id : Nat
deriving DecidableEq, Repr, Inhabited

/-- The names interned so far, in order of first use. -/
structure SymbolTable where
  names : List String
  nodup : names.Nodup

namespace SymbolTable

instance : EmptyCollection SymbolTable := ⟨⟨[], List.nodup_nil⟩⟩

instance : Inhabited SymbolTable := ⟨∅⟩

/-- How many names a table holds. -/
def size (t : SymbolTable) : Nat := t.names.length

instance : Membership String SymbolTable := ⟨fun t name => name ∈ t.names⟩

instance (name : String) (t : SymbolTable) : Decidable (name ∈ t) :=
  inferInstanceAs (Decidable (name ∈ t.names))

/-- The symbol of a name that is in the table. -/
def find? (t : SymbolTable) (name : String) : Option Symbol :=
  (t.names.idxOf? name).map (⟨name, ·⟩)

/-- The table with a name in it. -/
def insert (t : SymbolTable) (name : String) : SymbolTable :=
  if h : name ∈ t.names then t
  else
    { names := t.names ++ [name]
      nodup := by
        rw [List.nodup_append]
        exact ⟨t.nodup, by simp, fun a ha b hb => by
          rw [List.mem_singleton] at hb
          exact fun hab => h (hb ▸ hab ▸ ha)⟩ }

/-- The symbol of a name, and the table with that name in it. -/
def intern (t : SymbolTable) (name : String) : Symbol × SymbolTable :=
  (⟨name, t.names.idxOf name⟩, t.insert name)

/-- The symbols of a table, in order. -/
def symbols (t : SymbolTable) : List Symbol :=
  t.names.zipIdx.map fun (name, id) => ⟨name, id⟩

theorem insert_of_mem {t : SymbolTable} {name : String} (h : name ∈ t) :
    t.insert name = t := by
  have h' : name ∈ t.names := h
  simp [insert, h']

theorem names_insert_of_not_mem {t : SymbolTable} {name : String} (h : name ∉ t) :
    (t.insert name).names = t.names ++ [name] := by
  have h' : name ∉ t.names := h
  simp [insert, h']

/-- Interning only ever adds at the end. -/
theorem names_isPrefixOf_insert (t : SymbolTable) (name : String) :
    t.names <+: (t.insert name).names := by
  by_cases h : name ∈ t
  · exact (insert_of_mem h).symm ▸ List.prefix_refl _
  · exact (names_insert_of_not_mem h).symm ▸ List.prefix_append _ _

theorem mem_insert (t : SymbolTable) (name : String) : name ∈ t.insert name := by
  by_cases h : name ∈ t
  · rwa [insert_of_mem h]
  · show name ∈ (t.insert name).names
    rw [names_insert_of_not_mem h]; simp

/-- A symbol that is in the table is handed out again and nothing changes. -/
theorem intern_intern (t : SymbolTable) (name : String) :
    (t.intern name).2.intern name = ((t.intern name).1, (t.intern name).2) := by
  have hm := mem_insert t name
  have hid : (t.insert name).names.idxOf name = t.names.idxOf name := by
    by_cases h : name ∈ t.names
    · rw [insert_of_mem h]
    · rw [names_insert_of_not_mem h, List.idxOf_append, if_neg h, List.idxOf_eq_length h]; simp
  simp only [intern, hid, insert_of_mem hm]

end SymbolTable

end LispCore
