import LispCore.Proofs.Session.Growth

/-!
Bindings by name.

The bindings of a session are keyed by symbols, and those of a `View` by names. `BindsAs` says that
they are the same: each key is the symbol of its name in a table, so the name finds what the symbol
finds (`BindsAs.lookup_eq`), binding the name is binding the symbol (`BindsAs.set`), and both stay
so while tables and registries grow (`BindsAs.mono`).
-/

namespace LispCore

variable {H : Host} {α : Type} {r r' : Registry H} {t t' : SymbolTable}

/-- Bindings look as a list of names with what is seen of the values, and each key is the symbol of
its name in a table. -/
structure BindsAs (r : Registry H) (t : SymbolTable) (value : α → Value) (b : Bindings α)
    (names : List (String × Seen H)) : Prop where
  entries : b.entries.map (fun e => (e.1.name, (value e.2).seen r)) = names
  keys : ∀ e ∈ b.entries, t.find? e.1.name = some e.1
  known : ∀ e ∈ b.entries, (value e.2).Known r

/-- Where each key is the symbol of its name, a symbol and its name find the same. -/
theorem lookup_map_names {entries : List (Symbol × α)} {s : Symbol} {β : Type}
    (hkeys : ∀ e ∈ entries, t.find? e.1.name = some e.1) (hs : t.find? s.name = some s)
    (f : α → β) :
    (entries.map fun e => (e.1.name, f e.2)).lookup s.name = (entries.lookup s).map f := by
  induction entries with
  | nil => rfl
  | cons e entries ih =>
    obtain ⟨he, hkeys⟩ := List.forall_mem_cons.mp hkeys
    by_cases h : s = e.1
    · subst h
      rw [List.map_cons, List.lookup_cons_self, List.lookup_cons_self, Option.map_some]
    · have hname : s.name ≠ e.1.name := by
        intro hname
        rw [hname, he] at hs
        exact h (Option.some.inj hs).symm
      rw [List.map_cons, List.lookup_cons, List.lookup_cons, beq_false_of_ne hname,
        beq_false_of_ne h]
      exact ih hkeys

/-- A name that is bound already keeps its place, as its symbol does. -/
theorem bindName_map_replace {entries : List (Symbol × α)} {s : Symbol} {a : α} {β : Type}
    (hkeys : ∀ e ∈ entries, t.find? e.1.name = some e.1) (hs : t.find? s.name = some s)
    (hnodup : (entries.map (·.1)).Nodup) (hmem : s ∈ entries.map (·.1)) (f : α → β) :
    bindName s.name (f a) (entries.map fun e => (e.1.name, f e.2)) =
      (entries.map (Bindings.replace s a)).map fun e => (e.1.name, f e.2) := by
  induction entries with
  | nil => cases hmem
  | cons e entries ih =>
    obtain ⟨he, hkeys⟩ := List.forall_mem_cons.mp hkeys
    obtain ⟨hnew, hnodup⟩ := List.nodup_cons.mp hnodup
    rw [List.map_cons, List.map_cons, List.map_cons, bindName]
    by_cases h : e.1 = s
    · -- The entry is here, so no later one is changed.
      subst h
      have hrest : entries.map (Bindings.replace e.1 a) = entries := by
        refine (List.map_congr_left fun x hx => ?_).trans (List.map_id entries)
        have hx' : x.1 ≠ e.1 := by
          intro heq
          exact hnew (List.mem_map.mpr ⟨x, hx, heq⟩)
        rw [Bindings.replace, if_neg hx', id]
      rw [if_pos rfl, hrest, Bindings.replace, if_pos rfl]
    · have hname : e.1.name ≠ s.name := by
        intro hname
        rw [hname, hs] at he
        exact h (Option.some.inj he).symm
      have hlater : s ∈ entries.map (·.1) := by
        rw [List.map_cons, List.mem_cons] at hmem
        exact hmem.resolve_left fun heq => h heq.symm
      rw [if_neg hname, Bindings.replace, if_neg h, ih hkeys hnodup hlater]

/-- A name that is new is put at the end, as its symbol is. -/
theorem bindName_map_append {entries : List (Symbol × α)} {s : Symbol} {β : Type} (b : β)
    (hkeys : ∀ e ∈ entries, t.find? e.1.name = some e.1) (hs : t.find? s.name = some s)
    (hnew : s ∉ entries.map (·.1)) (f : α → β) :
    bindName s.name b (entries.map fun e => (e.1.name, f e.2)) =
      (entries.map fun e => (e.1.name, f e.2)) ++ [(s.name, b)] := by
  induction entries with
  | nil => rfl
  | cons e entries ih =>
    obtain ⟨he, hkeys⟩ := List.forall_mem_cons.mp hkeys
    rw [List.map_cons, List.mem_cons, not_or] at hnew
    have hname : e.1.name ≠ s.name := by
      intro hname
      rw [hname, hs] at he
      exact hnew.1 (Option.some.inj he)
    rw [List.map_cons, bindName, if_neg hname, ih hkeys hnew.2, List.cons_append]

namespace BindsAs

variable {value : α → Value} {b : Bindings α} {names : List (String × Seen H)}

theorem empty (r : Registry H) (t : SymbolTable) (value : α → Value) :
    BindsAs r t value ∅ [] where
  entries := rfl
  keys _ he := nomatch he
  known _ he := nomatch he

/-- Bindings look the same when more is known. -/
theorem mono (h : BindsAs r t value b names) (hr : r.Grows r') (ht : t.names <+: t'.names) :
    BindsAs r' t' value b names where
  entries := by
    rw [← h.entries]
    exact List.map_congr_left fun e he => by rw [(h.known e he).seen_eq hr]
  keys e he := SymbolTable.find?_of_isPrefix ht (h.keys e he)
  known e he := (h.known e he).mono hr

/-- A symbol finds what its name finds. -/
theorem lookup_eq (h : BindsAs r t value b names) {s : Symbol} (hs : t.find? s.name = some s) :
    names.lookup s.name = (b.get? s).map fun a => (value a).seen r := by
  rw [← h.entries]
  exact lookup_map_names h.keys hs fun a => (value a).seen r

/-- A symbol is bound as its name is. -/
theorem set (h : BindsAs r t value b names) {s : Symbol} {a : α} (hs : t.find? s.name = some s)
    (ha : (value a).Known r) :
    BindsAs r t value (b.set s a) (bindName s.name ((value a).seen r) names) := by
  by_cases hmem : s ∈ b.keys
  · have hset : (b.set s a).entries = b.entries.map (Bindings.replace s a) := by
      rw [Bindings.set, dif_pos hmem]
    have hreplaced : ∀ e ∈ (b.set s a).entries, e = (s, a) ∨ e ∈ b.entries := by
      intro e he
      rw [hset] at he
      obtain ⟨e₀, he₀, rfl⟩ := List.mem_map.mp he
      rw [Bindings.replace]
      split
      · exact .inl rfl
      · exact .inr he₀
    refine ⟨?_, fun e he => ?_, fun e he => ?_⟩
    · rw [hset, ← h.entries]
      exact (bindName_map_replace h.keys hs b.nodup hmem fun a => (value a).seen r).symm
    · rcases hreplaced e he with rfl | he
      · exact hs
      · exact h.keys e he
    · rcases hreplaced e he with rfl | he
      · exact ha
      · exact h.known e he
  · have hset : (b.set s a).entries = b.entries ++ [(s, a)] := by
      rw [Bindings.set, dif_neg hmem]
    refine ⟨?_, ?_, ?_⟩
    · rw [hset, List.map_append, ← h.entries]
      exact (bindName_map_append _ h.keys hs hmem fun a => (value a).seen r).symm
    · rw [hset]
      exact List.forall_mem_append.mpr ⟨h.keys, by simpa using hs⟩
    · rw [hset]
      exact List.forall_mem_append.mpr ⟨h.known, by simpa using ha⟩

end BindsAs

end LispCore
