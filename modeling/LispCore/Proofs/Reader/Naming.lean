import LispCore.Proofs.Reader.Alike
import LispCore.Proofs.Reader.Delivery
import LispCore.Proofs.Reader.Fault
import LispCore.Proofs.Reader.Uses

/-!
What the names that are known do to reading.

* `State.symbols_step_failed` — a token that is refused interns nothing;
* `exists_splits`, `Splits.scan` — where reading stops does not depend on the table, nor do the
  names that are used up to there;
* `parseAll_byName` — in two tables a program is read the same, symbols compared by name;
* `parseAll_named` — and the names that are added are those used before reading stopped.
-/

namespace LispCore.Reader

open TokenSource

/-! ### Where reading stops -/

theorem symbols_start_failed {tok : Token} {stack : List Frame} {t t' : SymbolTable} {e : Failure}
    (h : start tok stack t = (.failed e, t')) : t' = t := by
  have hcomplete (v : Value) (t₁ : SymbolTable) : complete v stack t₁ ≠ (.failed e, t') :=
    complete_ne_failed v stack t₁ e t'
  have hconverted {x : Except Failure Value} (h : completeWith x stack t = (.failed e, t')) :
      t' = t := by
    cases x with
    | ok v => exact absurd h (hcomplete v t)
    | error e' =>
      cases h
      rfl
  unfold start at h
  split at h
  · cases h
  · cases h
  · cases h
  · cases h
  · exact absurd h (hcomplete _ _)
  · exact absurd h (hcomplete _ _)
  · exact hconverted h
  · exact hconverted h
  · exact absurd h (hcomplete _ _)
  · split at h
    · exact absurd h (hcomplete _ _)
    · cases h
      rfl
  all_goals
    cases h
    rfl

/-- **A token that is refused interns nothing.** -/
theorem State.symbols_step_failed {tok : Token} {st : State} {t t' : SymbolTable} {e : Failure}
    (h : st.step tok t = (.failed e, t')) : t' = t := by
  unfold State.step at h
  split at h
  · split at h
    · exact absurd h (complete_ne_failed _ _ _ _ _)
    · cases h
      rfl
  · split at h
    · exact absurd h (complete_ne_failed _ _ _ _ _)
    · split at h
      · cases h
      · exact symbols_start_failed h
  · split at h
    · exact absurd h (complete_ne_failed _ _ _ _ _)
    · exact symbols_start_failed h
  · split at h
    · exact absurd h (complete_ne_failed _ _ _ _ _)
    · exact symbols_start_failed h
  · exact symbols_start_failed h

/-- A token that is refused after others is refused after them in every table, for the same
reason. -/
theorem State.refused_anywhere {before : List Token} {st st' : State} {t₁ t t' t'' : SymbolTable}
    {vs : List Value} (hbefore : ((State.form []).scan before t₁).stop = .ok st)
    (hbefore' : (State.form []).scan before t = ⟨vs, .ok st', t'⟩) {tok : Token} {e : Failure}
    (hstep : st.step tok ((State.form []).scan before t₁).symbols = (.failed e, t'')) :
    st'.step tok t' = (.failed e, t') := by
  have hstop :=
    (State.scan_alike keptByInsert_unrelated before (.refl (.form [])) (unrelated t₁ t)).stop
  rw [hbefore, hbefore'] at hstop
  cases hstop with
  | ok hstates =>
    have hsteps := State.step_alike keptByInsert_unrelated tok hstates
      (unrelated ((State.form []).scan before t₁).symbols t')
    rw [hstep] at hsteps
    generalize hresult : st'.step tok t' = x at hsteps
    cases hsteps with
    | failed => rw [State.symbols_step_failed hresult]

/-- `Splits toks read left e`: scanning tokens reads the first of them, which use names, and then
the tokens run out, or the next one is refused with a failure. -/
inductive Splits : List Token → List Token → List Token → Option Failure → Prop where
  | all {toks used} : (∀ tok ∈ toks, tok.Regular) → ProgramUses toks used → Splits toks toks [] none
  | refused {read tok later used st t t' e} : (∀ tok ∈ read, tok.Regular) → ProgramUses read used →
      ((State.form []).scan read t).stop = .ok st →
      st.step tok ((State.form []).scan read t).symbols = (.failed e, t') →
      Splits (read ++ tok :: later) read (tok :: later) (some e)

theorem exists_splits {toks : List Token} (hend : ∀ tok ∈ toks, tok.kind ≠ .endOfInput) :
    ∃ read left refusal, Splits toks read left refusal := by
  cases hstop : ((State.form []).scan toks ∅).stop with
  | ok st =>
    obtain ⟨used, hused⟩ := State.uses_of_scan_ok hend hstop
    exact ⟨_, _, _, .all (State.regular_of_scan_ok hend hstop) hused⟩
  | error e =>
    obtain ⟨read, tok, later, st, t', rfl, hread, hstep⟩ := State.scan_failed hstop
    have hendRead := (List.forall_mem_append.mp hend).1
    obtain ⟨used, hused⟩ := State.uses_of_scan_ok hendRead hread
    exact ⟨_, _, _, .refused (State.regular_of_scan_ok hendRead hread) hused hread hstep⟩

namespace Splits

variable {toks read left : List Token} {refusal : Option Failure}

theorem tokens_eq (h : Splits toks read left refusal) : toks = read ++ left := by
  cases h with
  | all => rw [List.append_nil]
  | refused => rfl

theorem regular (h : Splits toks read left refusal) : ∀ tok ∈ read, tok.Regular := by
  cases h with
  | all hreg => exact hreg
  | refused hreg => exact hreg

theorem exists_uses (h : Splits toks read left refusal) : ∃ used, ProgramUses read used := by
  cases h with
  | all _ hused => exact ⟨_, hused⟩
  | refused _ hused => exact ⟨_, hused⟩

/-- **In every table the same tokens are read**, and the names they use are interned. -/
theorem scan (h : Splits toks read left refusal) {used : List String}
    (hused : ProgramUses read used) (t : SymbolTable) :
    ∃ vs stop, (State.form []).scan toks t = ⟨vs, stop, t.insertAll used⟩ ∧
      match refusal with
      | none => ∃ st, stop = .ok st
      | some e => stop = .error e := by
  cases h with
  | all hreg _ =>
    obtain ⟨vs, st, hscan⟩ := hused.scan hreg t
    exact ⟨vs, .ok st, hscan, st, rfl⟩
  | @refused _ tok later _ _ _ _ e hreg _ hread hstep =>
    obtain ⟨vs, st', hscan⟩ := hused.scan hreg t
    refine ⟨vs, .error e, ?_, rfl⟩
    rw [State.scan_append_of_ok hscan, State.scan, State.refused_anywhere hread hscan hstep]
    simp [Scan.after]

/-- Nothing is left only if no token is refused. -/
theorem refusal_of_nil (h : Splits toks read [] refusal) : refusal = none := by
  generalize hleft : ([] : List Token) = left at h
  cases h with
  | all => rfl
  | refused => cases hleft

/-- **The token that is left first** does not go on what was read before it, and the failure is
about it. -/
theorem refusal_of_cons {tok : Token} {later : List Token}
    (hend : ∀ tok ∈ toks, tok.kind ≠ .endOfInput) (h : Splits toks read (tok :: later) refusal) :
    (tok.Regular → ∀ used, ¬ProgramUses (read ++ [tok]) used) ∧
      ∃ e, refusal = some e ∧ ((∃ err, e = .read err ∧ err.token? = some tok) ∨
        (¬tok.Regular ∧ e = .integerTooLong (tok.text.toList.countP Radix.decimal.isDigit))) := by
  generalize hleft : tok :: later = left at h
  cases h with
  | all => cases hleft
  | @refused _ tok' _ used st t t' e hregs hread hscan hstep =>
    cases hleft
    constructor
    · intro hreg used' hused
      have hregs' : ∀ tok' ∈ read ++ [tok], tok'.Regular :=
        List.forall_mem_append.mpr ⟨hregs, List.forall_mem_singleton.mpr hreg⟩
      obtain ⟨vs, st', hall⟩ := hused.scan hregs' t
      obtain ⟨ws, st'', hbefore⟩ := hread.scan hregs t
      rw [State.scan_append_of_ok hbefore, State.scan,
        State.refused_anywhere hscan hbefore hstep] at hall
      cases hall
    · have htok : tok.kind ≠ .endOfInput := hend tok (by simp)
      refine ⟨e, rfl, ?_⟩
      obtain herr | ⟨hirregular, he, -⟩ := State.step_failed_cases htok hstep
      · exact .inl herr
      · exact .inr ⟨hirregular, he⟩

end Splits

/-! ### Programs in two tables -/

/-- What was read of a program, with every symbol replaced by its name. -/
def Parsed.byName (p : Parsed) : Parsed := { p with forms := p.forms.map Value.byName }

/-- Reading a program stops with a failure, whether or not it recovers from that. -/
def FailsWith (r : Reader) (e : Failure) : Prop :=
  r.parseAll.1 = .error e ∨ ∃ vs, r.parseAll.1 = .ok ⟨vs, some e⟩

theorem failsWith_iff {r : Reader} {e : Failure} :
    r.FailsWith e ↔ r.reading.failure = some e := by
  rw [FailsWith, parseAll_fst]
  constructor
  · rintro (herror | ⟨vs, hok⟩)
    · exact (Reading.parsed_eq_error_iff.mp herror).1
    · exact (Parsed.mk.inj (Reading.forms_of_parsed hok)).2.symm
  · intro hfailure
    by_cases hrec : e.isRecoverable = true
    · exact .inr ⟨r.reading.forms, by simp [Reading.parsed, hfailure, hrec]⟩
    · exact .inl (Reading.parsed_eq_error_iff.mpr ⟨hfailure, hrec⟩)

/-- What is read of a program depends on its forms and on what stopped it. -/
theorem Reading.byName_parsed {q q' : Reading}
    (hforms : q.forms.map Value.byName = q'.forms.map Value.byName)
    (hfailure : q.failure = q'.failure) :
    q.parsed.map Parsed.byName = q'.parsed.map Parsed.byName := by
  obtain ⟨vs, failure, t⟩ := q
  obtain ⟨ws, failure', t'⟩ := q'
  obtain rfl : failure = failure' := hfailure
  cases failure with
  | none => exact congrArg (fun forms => Except.ok (Parsed.mk forms none)) hforms
  | some e =>
    simp only [Reading.parsed]
    split
    · exact congrArg (fun forms => Except.ok (Parsed.mk forms (some e))) hforms
    · rfl

/-- **What was interned before changes nothing but the identities of symbols.** -/
theorem parseAll_byName (src : TokenSource) (t t' : SymbolTable) :
    (Reader.mk (.ofSource src) t).parseAll.1.map Parsed.byName =
      (Reader.mk (.ofSource src) t').parseAll.1.map Parsed.byName := by
  have halike :=
    State.scan_alike keptByInsert_unrelated (delivered src) (.refl (.form [])) (unrelated t t')
  rw [parseAll_fst, parseAll_fst, reading_source, reading_source]
  exact Reading.byName_parsed halike.forms (halike.failure_eq (ending src))

/-- **Reading knows other names only by their places.** Let a source of tokens, which a text is too,
be read where some names are known.

* Whatever these are, the program is read to its end, up to the same failure, or given up for the
  same failure, and its forms are the same but for the identities of symbols.
* There is a first part of the delivered tokens that is read, the same for all tables. It uses
  names, in an order that its grammar alone says, and afterwards the table is the one before with
  the names at its end that are new to it, in the order of their first uses.
* If all tokens are read, only the end of the source can stop the program: by a failure of its own,
  or by an end inside a form, which the failure shows.
* Otherwise the next token cannot go on the part that is read, and the program fails in every table
  for the same reason: an error that shows at that token, or the number of its digits. -/
theorem parseAll_named (src : TokenSource) :
    (∀ t t', (Reader.mk (.ofSource src) t).parseAll.1.map Parsed.byName =
      (Reader.mk (.ofSource src) t').parseAll.1.map Parsed.byName) ∧
    ∃ read left, delivered src = read ++ left ∧ (∀ tok ∈ read, tok.Regular) ∧
      (∃ used, ProgramUses read used) ∧
      (∀ used, ProgramUses read used → ∀ t,
        (Reader.mk (.ofSource src) t).parseAll.2.symbols.names = t.names ++ t.newNames used) ∧
      (left = [] → ∀ t,
        (∀ e, ending src = .error e → FailsWith ⟨.ofSource src, t⟩ e) ∧
        (∀ e, FailsWith ⟨.ofSource src, t⟩ e →
          ending src = .error e ∨ ∃ tok, ending src = .ok tok ∧ Blames e tok .unexpectedEnd)) ∧
      (∀ tok later, left = tok :: later →
        (tok.Regular → ∀ used, ¬ProgramUses (read ++ [tok]) used) ∧
        ∃ e, (∀ t, FailsWith ⟨.ofSource src, t⟩ e) ∧
          ((∃ err, e = .read err ∧ err.token? = some tok) ∨
            (¬tok.Regular ∧ e = .integerTooLong (tok.text.toList.countP Radix.decimal.isDigit)))) := by
  refine ⟨parseAll_byName src, ?_⟩
  have hend : ∀ tok ∈ delivered src, tok.kind ≠ .endOfInput := not_end_of_mem_delivered
  obtain ⟨read, left, refusal, h⟩ := exists_splits hend
  obtain ⟨used₀, hused₀⟩ := h.exists_uses
  refine ⟨read, left, h.tokens_eq, h.regular, ⟨used₀, hused₀⟩, ?_, ?_, ?_⟩
  · intro used hused t
    obtain ⟨vs, stop, hscan, -⟩ := h.scan hused t
    rw [symbols_parseAll, reading_source, hscan]
    exact t.names_insertAll used
  · rintro rfl t
    obtain ⟨vs, stop, hscan, hstop⟩ := h.scan hused₀ t
    obtain rfl := h.refusal_of_nil
    obtain ⟨st, rfl⟩ := hstop
    have hfails (e : Failure) :
        FailsWith ⟨.ofSource src, t⟩ e ↔ st.failureAt (ending src) = some e := by
      rw [failsWith_iff, reading_source, hscan]
      rfl
    constructor
    · intro e hending
      rw [hfails, hending]
      rfl
    · intro e he
      exact State.failureAt_eq_some ((hfails e).mp he)
  · rintro tok later rfl
    obtain ⟨hnot, e, rfl, he⟩ := h.refusal_of_cons hend
    refine ⟨hnot, e, ?_, he⟩
    intro t
    obtain ⟨vs, stop, hscan, rfl⟩ := h.scan hused₀ t
    rw [failsWith_iff, reading_source, hscan]
    rfl

end LispCore.Reader
