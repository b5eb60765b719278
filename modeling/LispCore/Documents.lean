import LispCore.Diagnostic

/-!
The documents that an editor has open, each under its name, and what is published about them: every
event of a document publishes the diagnostics of its present text, and closing it publishes none.
The `get?` laws say that an event changes the text of one document only.
-/

namespace LispCore

/-- Texts under distinct names. -/
structure Documents where
  entries : List (String × String) := []
  nodup : (entries.map (·.1)).Nodup := by simp

namespace Documents

instance : EmptyCollection Documents := ⟨{}⟩

instance : Inhabited Documents := ⟨∅⟩

/-- The text of a document. -/
def get? (d : Documents) (name : String) : Option String := d.entries.lookup name

/-- Without a document. -/
def erase (d : Documents) (name : String) : Documents where
  entries := d.entries.filter (·.1 != name)
  nodup := (List.filter_sublist.map _).nodup d.nodup

/-- With a text under a name. -/
def insert (d : Documents) (name text : String) : Documents where
  entries := (d.erase name).entries ++ [(name, text)]
  nodup := by
    rw [List.map_append, List.nodup_append]
    refine ⟨(d.erase name).nodup, by simp, fun x hx y hy => ?_⟩
    simp only [List.map_singleton, List.mem_singleton] at hy
    subst hy
    simp only [erase, List.mem_map, List.mem_filter, bne_iff_ne, ne_eq] at hx
    obtain ⟨e, ⟨-, he⟩, rfl⟩ := hx
    exact he

theorem lookup_filter_ne (name other : String) (entries : List (String × String)) :
    (entries.filter (·.1 != name)).lookup other =
      if other = name then none else entries.lookup other := by
  induction entries with
  | nil => simp
  | cons e entries ih =>
    obtain ⟨n, text⟩ := e
    by_cases hn : n = name
    · subst hn
      by_cases ho : other = n
      · subst ho; simpa using ih
      · simpa [ho, List.lookup_cons, beq_false_of_ne ho] using ih
    · rw [List.filter_cons_of_pos (by simpa using hn), List.lookup_cons, List.lookup_cons]
      split
      · next h => rw [if_neg (by rw [eq_of_beq h]; exact hn)]
      · exact ih

@[simp] theorem get?_erase_self (d : Documents) (name : String) :
    (d.erase name).get? name = none := by
  simp [get?, erase, lookup_filter_ne]

theorem get?_erase_of_ne (d : Documents) {name other : String} (h : other ≠ name) :
    (d.erase name).get? other = d.get? other := by
  simp [get?, erase, lookup_filter_ne, h]

@[simp] theorem get?_insert_self (d : Documents) (name text : String) :
    (d.insert name text).get? name = some text := by
  simp [get?, insert, erase, List.lookup_append, lookup_filter_ne]

theorem get?_insert_of_ne (d : Documents) {name other : String} (text : String)
    (h : other ≠ name) : (d.insert name text).get? other = d.get? other := by
  simp [get?, insert, erase, List.lookup_append, lookup_filter_ne, h, List.lookup_cons,
    beq_false_of_ne h]

/-- The diagnostics of the present text of a document, which is empty where there is none. -/
def diagnostics (d : Documents) (name : String) : Except Failure (List Diagnostic) :=
  Diagnostic.ofText ((d.get? name).getD "")

end Documents

/-- What happens to a document: it is opened with a text, its whole text is changed any number of
times, or it is closed. -/
inductive DocumentEvent where
  | opened (name text : String)
  | changed (name : String) (texts : List String)
  | closed (name : String)

/-- The documents after an event. Of several changes at once the last one counts. -/
def DocumentEvent.applyTo (d : Documents) : DocumentEvent → Documents
  | opened name text => d.insert name text
  | changed name texts =>
    match texts.getLast? with
    | some text => d.insert name text
    | none => d
  | closed name => d.erase name

/-- The document that an event is about. -/
def DocumentEvent.name : DocumentEvent → String
  | opened name _ | changed name _ | closed name => name

/-- The documents after an event, and what is published: the diagnostics of one document, which are
none once it is closed. -/
def Documents.handle (d : Documents) (event : DocumentEvent) :
    Except Failure (String × List Diagnostic) × Documents :=
  let d := event.applyTo d
  match event with
  | .closed name => (.ok (name, []), d)
  | _ => ((d.diagnostics event.name).map (event.name, ·), d)

end LispCore
