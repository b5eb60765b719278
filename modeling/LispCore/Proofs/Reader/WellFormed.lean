import LispCore.Proofs.Reader.Text
import LispCore.Proofs.Value.Readable

/-!
Everything that is read from a text is well formed.

The reader holds values in the forms that are not complete. Each of them is `Value.Readable` with
the names known so far, and stays so while names are added.

* `State.step_readable` — one step over a token of a text keeps this up;
* `State.run_readable`, `State.scan_readable` — so do the steps over all tokens of a form and of a
  program;
* `forms_readable` — every form that is read from a text is readable with the names known after the
  reading, whether the rest of the text could be read or not.
-/

namespace LispCore

namespace Value

variable {t t' : SymbolTable} {v : Value}

/-- A readable value stays one when names are added. -/
theorem Readable.mono (h : v.Readable t) (hle : t.names <+: t'.names) : v.Readable t' := by
  induction h with
  | null => exact .null
  | bool => exact .bool
  | int hmin hmax => exact .int hmin hmax
  | float => exact .float
  | str => exact .str
  | char => exact .char
  | symbol hs hatom hclass => exact .symbol (SymbolTable.find?_of_isPrefix hle hs) hatom hclass
  | array _ ih => exact .array ih
  | pair _ _ hhead htail => exact .pair hhead htail

/-- A chain of readable values that ends in one is readable. -/
theorem Readable.ofList {vs : List Value} {tail : Value} (hvs : ∀ v ∈ vs, v.Readable t)
    (htail : tail.Readable t) : (Value.ofList vs tail).Readable t := by
  induction vs with
  | nil => exact htail
  | cons v vs ih =>
    obtain ⟨hv, hvs⟩ := List.forall_mem_cons.mp hvs
    exact .pair hv (ih hvs)

/-- The symbol of a name that is an atom and no other kind of token is readable. -/
theorem Readable.intern {name : String} (hatom : IsAtom name.toList)
    (hclass : (classifyAtom name.toList).1 = .symbol) (t : SymbolTable) :
    (Value.symbol (t.intern name).1).Readable (t.intern name).2 :=
  .symbol (t.find?_intern name) hatom hclass

end Value

namespace Reader

/-! ### Values under way -/

/-- The values in a form that is not complete. -/
def Frame.values : Frame → List Value
  | .list vs | .dotted vs | .array vs | .hash vs => vs
  | .marked _ => []

/-- The values in the forms that the reader is inside of. -/
def State.values : State → List Value
  | .form stack => stack.flatMap Frame.values
  | .close elements tail stack => elements ++ tail :: stack.flatMap Frame.values

/-- The values that a step leaves behind. -/
def Progress.values : Progress → List Value
  | .more st => st.values
  | .done v => [v]
  | .failed _ => []

/-- `Keeps t x`: what a step leads to from a table has all the names of the table and readable
values only. -/
structure Keeps (t : SymbolTable) (x : Progress × SymbolTable) : Prop where
  names : t.names <+: x.2.names
  readable : ∀ v ∈ x.1.values, v.Readable x.2

variable {t t' : SymbolTable}

theorem Keeps.trans {x : Progress × SymbolTable} (h : t.names <+: t'.names) (h' : Keeps t' x) :
    Keeps t x := ⟨h.trans h'.names, h'.readable⟩

theorem Keeps.refused {t : SymbolTable} {e : Failure} : Keeps t (.failed e, t) :=
  ⟨List.prefix_refl _, by simp [Progress.values]⟩

/-- A step that adds no name keeps what it leaves behind readable. -/
theorem Keeps.more {st : State} (h : ∀ v ∈ st.values, v.Readable t) : Keeps t (.more st, t) :=
  ⟨List.prefix_refl _, h⟩

/-- The name that a marker stands for is a symbol as it is written. -/
theorem isAtom_formName (m : Marker) :
    IsAtom m.formName.toList ∧ (classifyAtom m.formName.toList).1 = .symbol := by
  cases m <;> decide

/-- A readable value that is handed on leaves readable values only. -/
theorem complete_keeps {v : Value} (hv : v.Readable t) {stack : List Frame}
    (hstack : ∀ w ∈ stack.flatMap Frame.values, w.Readable t) : Keeps t (complete v stack t) := by
  induction stack generalizing v t with
  | nil => exact ⟨List.prefix_refl _, List.forall_mem_singleton.mpr hv⟩
  | cons frame stack ih =>
    cases frame with
    | marked m =>
      -- The name of the marker is added, and the call goes to the form around it.
      have hle := t.names_isPrefixOf_intern m.formName
      obtain ⟨hatom, hclass⟩ := isAtom_formName m
      have hcall : ∀ w ∈ [Value.symbol (t.intern m.formName).1, v],
          w.Readable (t.intern m.formName).2 := by
        simpa using ⟨Value.Readable.intern hatom hclass t, hv.mono hle⟩
      exact .trans hle (ih (.ofList hcall .null) fun w hw => (hstack w hw).mono hle)
    | list vs | array vs | hash vs => exact .more (List.forall_mem_cons.mpr ⟨hv, hstack⟩)
    | dotted vs =>
      obtain ⟨hvs, hrest⟩ := List.forall_mem_append.mp hstack
      exact .more (List.forall_mem_append.mpr ⟨hvs, List.forall_mem_cons.mpr ⟨hv, hrest⟩⟩)

/-- An integer that is read has 64 bits. -/
theorem readInteger_range {tok : Token} {r : Radix} {n : Int} (h : tok.readInteger r = .ok n) :
    minInt ≤ n ∧ n ≤ maxInt := by
  unfold Token.readInteger at h
  split at h
  · cases h
  dsimp only at h
  split at h
  · cases h
  split at h
  · next hrange =>
    cases h
    exact hrange
  · cases h

/-- A token of a text where a form may start leaves readable values only. -/
theorem start_keeps {tok : Token} (htok : tok.Spelled) {stack : List Frame}
    (hstack : ∀ w ∈ stack.flatMap Frame.values, w.Readable t) : Keeps t (start tok stack t) := by
  unfold start
  split
  · exact .more hstack
  · exact .more hstack
  · exact .more hstack
  · exact .more hstack
  · next hk =>
    obtain ⟨hatom, hclass⟩ := htok.symbol hk
    have hle := t.names_isPrefixOf_intern tok.text
    exact .trans hle (complete_keeps (.intern hatom hclass t) fun w hw => (hstack w hw).mono hle)
  · exact complete_keeps .bool hstack
  · next r hk =>
    cases hread : tok.readInteger r with
    | error e => exact .refused
    | ok n =>
      obtain ⟨hmin, hmax⟩ := readInteger_range hread
      exact complete_keeps (.int hmin hmax) hstack
  · next hk =>
    cases hread : tok.readFloat with
    | error e => exact .refused
    | ok x =>
      obtain ⟨negative, rank, rfl⟩ := htok.readFloat_finite hk hread
      exact complete_keeps .float hstack
  · exact complete_keeps .str hstack
  · split
    · exact complete_keeps .char hstack
    · exact .refused
  all_goals exact .refused

/-- **One step over a token of a text** keeps every name and leaves readable values only. -/
theorem State.step_readable {st : State} (hst : ∀ v ∈ st.values, v.Readable t) {tok : Token}
    (htok : tok.Spelled) : Keeps t (st.step tok t) := by
  rcases st with (_ | ⟨frame, stack⟩) | ⟨elements, tail, stack⟩
  · exact start_keeps htok hst
  · have hstart := start_keeps htok hst
    obtain ⟨hframe, hstack⟩ := List.forall_mem_append.mp hst
    cases frame with
    | dotted | marked => exact hstart
    | list elements =>
      rw [State.step]
      split
      · exact complete_keeps (.ofList (fun v hv => hframe v (List.mem_reverse.mp hv)) .null) hstack
      · split
        · exact .more (by simpa [State.values, Frame.values] using hst)
        · exact hstart
    | array items =>
      rw [State.step]
      split
      · exact complete_keeps (.array fun v hv => hframe v (List.mem_reverse.mp hv)) hstack
      · exact hstart
    | hash items =>
      rw [State.step]
      split
      · have hle := t.names_isPrefixOf_intern "hash"
        have hname : (Value.symbol (t.intern "hash").1).Readable (t.intern "hash").2 :=
          .intern (by decide) (by decide) t
        have hitems : (Value.ofList items.reverse).Readable (t.intern "hash").2 :=
          .ofList (fun v hv => (hframe v (List.mem_reverse.mp hv)).mono hle) .null
        exact .trans hle (complete_keeps (.pair hname hitems) fun w hw => (hstack w hw).mono hle)
      · exact hstart
  · obtain ⟨helements, hrest⟩ := List.forall_mem_append.mp hst
    obtain ⟨htail, hstack⟩ := List.forall_mem_cons.mp hrest
    rw [State.step]
    split
    · exact complete_keeps (.ofList (fun v hv => helements v (List.mem_reverse.mp hv)) htail) hstack
    · exact .refused

/-! ### Forms and programs -/

/-- **The steps over the tokens of a form** keep every name and leave readable values only. -/
theorem State.run_readable {toks : List Token} (htoks : ∀ tok ∈ toks, tok.Spelled) {st : State}
    (hst : ∀ v ∈ st.values, v.Readable t) :
    Keeps t ((st.run toks t).1, (st.run toks t).2.1) := by
  induction toks generalizing st t with
  | nil => exact .more hst
  | cons tok toks ih =>
    obtain ⟨htok, htoks⟩ := List.forall_mem_cons.mp htoks
    have hstep := State.step_readable hst htok
    rw [State.run_cons]
    generalize st.step tok t = x at hstep
    obtain ⟨st' | v | e, t'⟩ := x
    · exact .trans hstep.names (ih htoks hstep.readable)
    · exact hstep
    · exact hstep

/-- **The steps over the tokens of a program** keep every name and read readable forms only. -/
theorem State.scan_readable {toks : List Token} (htoks : ∀ tok ∈ toks, tok.Spelled) {st : State}
    (hst : ∀ v ∈ st.values, v.Readable t) :
    t.names <+: (st.scan toks t).symbols.names ∧
      ∀ v ∈ (st.scan toks t).forms, v.Readable (st.scan toks t).symbols := by
  induction toks generalizing st t with
  | nil => exact ⟨List.prefix_refl _, by simp [State.scan]⟩
  | cons tok toks ih =>
    obtain ⟨htok, htoks⟩ := List.forall_mem_cons.mp htoks
    have hstep := State.step_readable hst htok
    rw [State.scan]
    generalize st.step tok t = x at hstep
    obtain ⟨st' | v | e, t'⟩ := x
    · obtain ⟨hnames, hforms⟩ := ih htoks hstep.readable
      exact ⟨hstep.names.trans hnames, hforms⟩
    · have hnone : ∀ w ∈ (State.form []).values, w.Readable t' := by simp [State.values]
      obtain ⟨hnames, hforms⟩ := ih htoks hnone
      have hv : v.Readable t' := hstep.readable v (by simp [Progress.values])
      exact ⟨hstep.names.trans hnames, List.forall_mem_cons.mpr ⟨hv.mono hnames, hforms⟩⟩
    · exact ⟨hstep.names, by simp⟩

/-- **Everything that is read from a text is well formed.** The forms of a program, also those
before a failure, and the first form of a text hold nothing but truth values, integers of 64 bits,
finite numbers, strings, characters, arrays, pairs and the symbols that the names have after the
reading, each spelled as a symbol is. -/
theorem forms_readable (text : String) (t : SymbolTable) :
    (∀ p, (ofText text t).parseAll.1 = .ok p →
      ∀ v ∈ p.forms, v.Readable (ofText text t).parseAll.2.symbols) ∧
    (∀ vs, (ofText text t).readAll.1 = .ok vs →
      ∀ v ∈ vs, v.Readable (ofText text t).readAll.2.symbols) ∧
    (∀ v, (ofText text t).form.1 = .ok (some v) → v.Readable (ofText text t).form.2.symbols) := by
  obtain ⟨toks, last, h⟩ := exists_cutInto {} text.toList
  have htoks : ∀ tok ∈ toks, tok.Spelled := fun tok htok => (h.lexed tok htok).spelled
  have hnone : ∀ w ∈ (State.form []).values, w.Readable t := by simp [State.values]
  have hscan := (State.scan_readable htoks hnone).2
  refine ⟨?_, ?_, ?_⟩
  · intro p hp
    rw [parseAll_fst] at hp
    rw [symbols_parseAll, Reading.forms_of_parsed hp, reading_ofText h]
    exact hscan
  · intro vs hvs
    rw [readAll_fst, reading_ofText h] at hvs
    rw [symbols_readAll, reading_ofText h]
    split at hvs
    · cases hvs
      exact hscan
    · cases hvs
  · intro v hv
    have hrun := State.run_readable htoks hnone
    rw [form_ofText h] at hv ⊢
    generalize (State.form []).run toks t = x at hrun hv ⊢
    obtain ⟨st | w | e, t', left⟩ := x
    · exact absurd hv (resume_last_ne_some (isLast_of_endsText h.ends) st t' v)
    · cases hv
      exact hrun.readable v (by simp [Progress.values])
    · cases hv

end Reader

end LispCore
