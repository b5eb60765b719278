import LispCore.Symbol

/-!
Tables that grow.

* `find?_intern`, `find?_of_isPrefix` — the symbol of a name is in the table and stays there;
* `insertAll`, `newNames` — a table with more names in it, and which of them are new to it, each at
  its first use;
* `names_insertAll` — the new names are put after the old ones, and no old entry changes;
* `intern_of_isPrefix` — a symbol that was handed out once is handed out by every later table;
* `map_id_symbols`, `symbols_isPrefix`, `eq_iff_of_mem_symbols` — the entries of a table are counted
  from 0, later tables begin with them, and they are told apart by their names.
-/

namespace LispCore.SymbolTable

/-! ### The symbol of a name -/

/-- A symbol that is in a table is handed out again and nothing changes. -/
theorem intern_of_find? {t : SymbolTable} {name : String} {s : Symbol}
    (h : t.find? name = some s) : t.intern name = (s, t) := by
  obtain ⟨i, hi, rfl⟩ := Option.map_eq_some_iff.mp h
  have hmem : name ∈ t.names := List.isSome_idxOf?.mp (by rw [hi]; rfl)
  have hidx : t.names.idxOf name = i := by
    rw [List.idxOf, List.findIdx_eq_getD_findIdx?]
    exact congrArg (·.getD t.names.length) hi
  rw [intern, insert_of_mem hmem, hidx]

/-- A new name does not change the symbols that were handed out before. -/
theorem find?_of_isPrefix {t t' : SymbolTable} {name : String} (h : t.names <+: t'.names)
    {s : Symbol} (hs : t.find? name = some s) : t'.find? name = some s := by
  obtain ⟨i, hi, rfl⟩ := Option.map_eq_some_iff.mp hs
  exact Option.map_eq_some_iff.mpr ⟨i, h.findIdx?_eq_some hi, rfl⟩

theorem names_isPrefixOf_intern (t : SymbolTable) (name : String) :
    t.names <+: (t.intern name).2.names := t.names_isPrefixOf_insert name

/-- The symbol that is handed out for a name is the one the table holds for it then. -/
theorem find?_intern (t : SymbolTable) (name : String) :
    (t.intern name).2.find? name = some (t.intern name).1 := by
  obtain ⟨i, hi⟩ := Option.isSome_iff_exists.mp (List.isSome_idxOf?.mpr (t.mem_insert name))
  have hfind : (t.intern name).2.find? name = some ⟨name, i⟩ :=
    Option.map_eq_some_iff.mpr ⟨i, hi, rfl⟩
  have hagain := intern_of_find? hfind
  rw [intern_intern] at hagain
  rw [hfind, (Prod.mk.inj hagain).1]

/-! ### More names -/

/-- The table with some names in it, added in order. -/
def insertAll (t : SymbolTable) (names : List String) : SymbolTable := names.foldl insert t

/-- The names in a list that a table does not hold, in order of first use. -/
def newNames (t : SymbolTable) (names : List String) : List String :=
  (names.filter (· ∉ t)).eraseDups

@[simp] theorem insertAll_cons (t : SymbolTable) (name : String) (names : List String) :
    t.insertAll (name :: names) = (t.insert name).insertAll names := rfl

theorem insertAll_append (t : SymbolTable) (xs ys : List String) :
    t.insertAll (xs ++ ys) = (t.insertAll xs).insertAll ys := List.foldl_append

theorem ext_names {t t' : SymbolTable} (h : t.names = t'.names) : t = t' := by
  cases t
  cases t'
  cases h
  rfl

theorem mem_insert_iff {t : SymbolTable} {name n : String} :
    n ∈ t.insert name ↔ n ∈ t ∨ n = name := by
  by_cases h : name ∈ t
  · rw [insert_of_mem h]
    constructor
    · intro hn
      exact .inl hn
    · rintro (hn | rfl)
      · exact hn
      · exact h
  · show n ∈ (t.insert name).names ↔ n ∈ t.names ∨ n = name
    rw [names_insert_of_not_mem h, List.mem_append, List.mem_singleton]

theorem mem_insertAll_iff {t : SymbolTable} {names : List String} {n : String} :
    n ∈ t.insertAll names ↔ n ∈ t ∨ n ∈ names := by
  induction names generalizing t with
  | nil => simp [insertAll]
  | cons name names ih => rw [insertAll_cons, ih, mem_insert_iff, List.mem_cons, or_assoc]

/-- **The new names are put after the old ones**, each once and in order of first use. -/
theorem names_insertAll (t : SymbolTable) (names : List String) :
    (t.insertAll names).names = t.names ++ t.newNames names := by
  induction names generalizing t with
  | nil => simp [insertAll, newNames]
  | cons name names ih =>
    rw [insertAll_cons, ih]
    by_cases h : name ∈ t
    · rw [insert_of_mem h, newNames, newNames, List.filter_cons_of_neg (by simpa using h)]
    · -- Behind the name that is new, its later uses are new to the old table but not to this one.
      have hfilter : (t.insert name).newNames names =
          ((names.filter (· ∉ t)).filter fun n => !n == name).eraseDups := by
        rw [newNames, List.filter_filter]
        congr 1
        apply List.filter_congr
        intro n _
        by_cases hn : n = name <;> simp [mem_insert_iff, hn]
      rw [hfilter, names_insert_of_not_mem h, newNames,
        List.filter_cons_of_pos (by simpa using h), List.eraseDups_cons, List.append_assoc,
        List.singleton_append]

theorem names_isPrefixOf_insertAll (t : SymbolTable) (names : List String) :
    t.names <+: (t.insertAll names).names := by
  rw [names_insertAll]
  exact List.prefix_append _ _

/-- A table whose names all stand at the front of another hands out the same symbols. -/
theorem intern_of_isPrefix {t t' : SymbolTable} {name : String} (hname : name ∈ t)
    (h : t.names <+: t'.names) : t'.intern name = ((t.intern name).1, t') := by
  obtain ⟨later, hlater⟩ := h
  have hmem : name ∈ t.names := hname
  have hmem' : name ∈ t' := by
    show name ∈ t'.names
    rw [← hlater]
    exact List.mem_append_left later hmem
  rw [intern, insert_of_mem hmem', ← hlater, List.idxOf_append, if_pos hmem]
  rfl

/-- **A symbol that was handed out once** is handed out by every later table, which does not
change. -/
theorem intern_again {t t' : SymbolTable} {name : String}
    (h : (t.intern name).2.names <+: t'.names) : t'.intern name = ((t.intern name).1, t') := by
  have hagain := intern_of_isPrefix (t.mem_insert name) h
  have hsame := intern_intern t name
  rw [show (t.insert name).intern name = _ from hsame] at hagain
  exact hagain

/-! ### Entries -/

theorem map_name_symbols (t : SymbolTable) : t.symbols.map (·.name) = t.names := by
  rw [symbols, List.map_map]
  exact List.zipIdx_map_fst 0 t.names

/-- The entries of a table are counted from 0 in order. -/
theorem map_id_symbols (t : SymbolTable) : t.symbols.map (·.id) = List.range t.size := by
  rw [symbols, List.map_map, List.range_eq_range']
  exact List.zipIdx_map_snd 0 t.names

theorem mem_symbols_iff {t : SymbolTable} {s : Symbol} :
    s ∈ t.symbols ↔ t.names[s.id]? = some s.name := by
  rw [symbols, List.mem_map]
  constructor
  · rintro ⟨⟨name, id⟩, hmem, rfl⟩
    exact List.mem_zipIdx_iff_getElem?.mp hmem
  · intro h
    exact ⟨(s.name, s.id), List.mem_zipIdx_iff_getElem?.mpr h, rfl⟩

/-- A later table begins with the entries of an earlier one. -/
theorem symbols_isPrefix {t t' : SymbolTable} (h : t.names <+: t'.names) :
    t.symbols <+: t'.symbols := by
  obtain ⟨later, hlater⟩ := h
  rw [symbols, symbols, ← hlater, List.zipIdx_append, List.map_append]
  exact List.prefix_append _ _

/-- Entries of a table at any two times are the same if their names are. -/
theorem eq_iff_of_mem_symbols {t t' : SymbolTable} (h : t.names <+: t'.names) {s s' : Symbol}
    (hs : s ∈ t.symbols) (hs' : s' ∈ t'.symbols) : s = s' ↔ s.name = s'.name := by
  refine ⟨fun heq => congrArg Symbol.name heq, fun hname => ?_⟩
  have hget := mem_symbols_iff.mp ((symbols_isPrefix h).subset hs)
  have hget' := mem_symbols_iff.mp hs'
  rw [← hname, ← hget] at hget'
  have hid : s.id = s'.id :=
    (List.getElem?_inj (List.getElem?_eq_some_iff.mp hget).1 t'.nodup).mp hget'.symm
  cases s
  cases s'
  cases hname
  cases hid
  rfl

/-- A name that is new becomes the last entry. -/
theorem symbols_intern_of_not_mem {t : SymbolTable} {name : String} (h : name ∉ t) :
    (t.intern name).2.symbols = t.symbols ++ [(t.intern name).1] := by
  show (t.insert name).symbols = t.symbols ++ [⟨name, t.names.idxOf name⟩]
  rw [symbols, names_insert_of_not_mem h, List.zipIdx_append, List.map_append,
    List.idxOf_eq_length h]
  simp [symbols]

end LispCore.SymbolTable
