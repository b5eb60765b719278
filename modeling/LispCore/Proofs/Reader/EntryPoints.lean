import LispCore.Proofs.Reader.Delivery

/-!
All ways to read a source agree.

`parseAll` gives forms and what stopped it, `readAll` either of them, and `form` one form a call.
Here they are compared with calling `form` again and again.

* `calls_forms` — the calls give the forms of a program one by one, and then its end or its failure;
* `form_again` — a reader that has come to the end of its input stays there and leaves its source
  alone;
* `entryPoints_agree` — what each way to read gives, in terms of the others.
-/

namespace LispCore.Reader

/-- What a number of calls for the next form give, and the reader after them. -/
def calls : Nat → Reader → List (Except Failure (Option Value)) × Reader
  | 0, r => ([], r)
  | n + 1, r =>
    let (x, r') := r.form
    let (xs, r'') := calls n r'
    (x :: xs, r'')

/-- What the call after the last form gives: the end of the input or a failure. -/
def stop : Option Failure → Except Failure (Option Value)
  | none => .ok none
  | some e => .error e

theorem calls_succ {r r' : Reader} {x : Except Failure (Option Value)} (h : r.form = (x, r'))
    (n : Nat) : r.calls (n + 1) = (x :: (r'.calls n).1, (r'.calls n).2) := by
  rw [calls, h]

/-- More calls go on where the calls before them ended. -/
theorem calls_add (m n : Nat) (r : Reader) :
    r.calls (m + n) =
      ((r.calls m).1 ++ ((r.calls m).2.calls n).1, ((r.calls m).2.calls n).2) := by
  induction m generalizing r with
  | zero => simp [calls]
  | succ m ih =>
    rw [Nat.add_right_comm, calls_succ rfl, calls_succ rfl, ih]
    rfl

/-- The forms of a program are its first form and those that are read after it. -/
theorem forms_eq (r : Reader) :
    r.forms =
      match r.form with
      | (.ok none, r') => ([], none, r')
      | (.error e, r') => ([], some e, r')
      | (.ok (some v), r') => (v :: r'.forms.1, r'.forms.2.1, r'.forms.2.2) := by
  rw [forms]
  split <;> next h => rw [h]

/-- A program with a form starts with it, and goes on as what is read after it. -/
theorem form_of_forms_cons {r r' : Reader} {v : Value} {vs : List Value} {failure : Option Failure}
    (h : r.forms = (v :: vs, failure, r')) :
    ∃ r₁, r.form = (.ok (some v), r₁) ∧ r₁.forms = (vs, failure, r') := by
  rw [forms_eq] at h
  rcases hform : r.form with ⟨_ | _ | w, r₁⟩ <;> rw [hform] at h
  · cases h
  · cases h
  · cases h
    exact ⟨r₁, rfl, rfl⟩

/-- A program without a form is its end or its failure. -/
theorem form_of_forms_nil {r r' : Reader} {failure : Option Failure}
    (h : r.forms = ([], failure, r')) : r.form = (stop failure, r') := by
  rw [forms_eq] at h
  rcases hform : r.form with ⟨_ | _ | w, r₁⟩ <;> rw [hform] at h <;> cases h <;> rfl

/-- **Calls for the next form give the forms of a program one by one**, and then its end or its
failure. They leave the reader as reading the whole program does. -/
theorem calls_forms {r r' : Reader} {vs : List Value} {failure : Option Failure}
    (h : r.forms = (vs, failure, r')) :
    r.calls (vs.length + 1) = (vs.map (fun v => .ok (some v)) ++ [stop failure], r') := by
  induction vs generalizing r with
  | nil => exact calls_succ (form_of_forms_nil h) 0
  | cons v vs ih =>
    obtain ⟨r₁, hform, hforms⟩ := form_of_forms_cons h
    rw [List.length_cons, calls_succ hform, ih hforms]
    rfl

/-! ### After the end -/

/-- A reader that has seen the end of its source does not go back to the source. -/
theorem form_of_ending {s : TokenStream} {tok : Token} (hbuffer : s.buffer = none)
    (hending : s.ending = some tok) (t : SymbolTable) :
    (Reader.mk s t).form = (.ok none, ⟨s, t⟩) := by
  have hnext : s.next = (.ok tok, s) := by
    simp only [TokenStream.next, hbuffer, TokenStream.pull, hending]
  rw [form, resume]
  split
  · next heq => rw [hnext] at heq; cases heq
  · next heq =>
    rw [hnext] at heq
    cases heq
    rw [dif_pos (s.ending_isEnd tok hending)]
    rfl

/-- The end that a source comes to is kept. -/
theorem form_pulled {tok : Token} (htok : tok.kind = .endOfInput) (src rest : TokenSource)
    (t : SymbolTable) :
    (Reader.mk ((TokenStream.ofSource src).pulled tok rest) t).form =
      (.ok none, ⟨(TokenStream.ofSource src).pulled tok rest, t⟩) := by
  have hending : ((TokenStream.ofSource src).pulled tok rest).ending = some tok := by
    rw [TokenStream.pulled, dif_pos htok]
  refine form_of_ending ?_ hending t
  rw [TokenStream.buffer_pulled]
  rfl

/-- Where reading finds the end of the input, it finds it again. -/
theorem resume_ok_none {src : TokenSource} {st : State} {t : SymbolTable} {r : Reader}
    (h : resume st ⟨.ofSource src, t⟩ = (.ok none, r)) : r.form = (.ok none, r) := by
  induction src generalizing st t with
  | nil =>
    rw [resume] at h
    obtain rfl : _ = r := congrArg Prod.snd h
    exact form_pulled rfl [] [] t
  | cons item src ih =>
    cases item with
    | error e =>
      rw [resume] at h
      cases h
    | ok tok =>
      by_cases hend : tok.kind = .endOfInput
      · rw [resume] at h
        simp only [TokenStream.ofSource, TokenStream.next, TokenStream.pull, hend, dif_pos] at h
        obtain rfl : _ = r := congrArg Prod.snd h
        exact form_pulled hend (.ok tok :: src) src t
      · rw [resume_cons hend] at h
        rcases hstep : st.step tok t with ⟨st' | v | e, t'⟩ <;> rw [hstep] at h
        · exact ih h
        · cases h
        · cases h

/-- **At the end of a program there is no form any more**, however often one is asked for, and
nothing is pulled from the source. -/
theorem form_again {src : TokenSource} {t : SymbolTable} {vs : List Value} {r : Reader}
    (h : (Reader.mk (.ofSource src) t).forms = (vs, none, r)) : r.form = (.ok none, r) := by
  induction vs generalizing src t with
  | nil => exact resume_ok_none (form_of_forms_nil h)
  | cons v vs ih =>
    obtain ⟨r₁, hform, hforms⟩ := form_of_forms_cons h
    obtain ⟨-, rest, -, hstream, -⟩ := resume_ok_some hform
    obtain ⟨stream, symbols⟩ := r₁
    obtain rfl : stream = .ofSource rest := hstream
    exact ih hforms

theorem calls_of_form_none {r : Reader} (h : r.form = (.ok none, r)) (n : Nat) :
    r.calls n = (List.replicate n (.ok none), r) := by
  induction n with
  | zero => rfl
  | succ n ih => rw [calls_succ h, ih, List.replicate_succ]

/-! ### Agreement -/

theorem parseAll_snd (r : Reader) : r.parseAll.2 = r.forms.2.2 := by
  unfold parseAll
  rcases r.forms with ⟨vs, _ | e, r'⟩ <;> rfl

theorem readAll_eq (r : Reader) :
    r.readAll = ((stop r.forms.2.1).map fun _ => r.forms.1, r.forms.2.2) := by
  unfold readAll
  rcases r.forms with ⟨vs, _ | e, r'⟩ <;> rfl

/-- **All ways to read a source agree.** Let a source of tokens be read where some names are known.

* If the program is read to its end, reading all forms gives them, and calls for the next form give
  them one by one and then nothing for ever; after the first time the reader does not change, so
  that nothing more is pulled from its source.
* If the program is read up to a failure that it recovers from, reading all forms fails so, and the
  calls give the forms before it one by one and then the failure.
* If reading the program is given up, so is reading all forms, and the calls give the same failure
  after the forms that were read.
* The first form is the first of the program. If there is none, it is the end or the failure.
* The first form is the same whatever stands in the source after its tokens, and is read without
  pulling any of that.
* All of them leave the same reader, so the same names are known after them. -/
theorem entryPoints_agree (src : TokenSource) (t : SymbolTable) :
    let r : Reader := ⟨.ofSource src, t⟩
    (∀ vs, r.parseAll.1 = .ok ⟨vs, none⟩ →
      r.readAll.1 = .ok vs ∧ r.forms.1 = vs ∧ r.forms.2.1 = none ∧
      ∀ n, r.calls (vs.length + 1 + n) = (vs.map (fun v => .ok (some v)) ++
        List.replicate (1 + n) (.ok none), (r.calls (vs.length + 1)).2)) ∧
    (∀ vs e, r.parseAll.1 = .ok ⟨vs, some e⟩ →
      e.isRecoverable = true ∧ r.readAll.1 = .error e ∧ r.forms.1 = vs ∧ r.forms.2.1 = some e ∧
      (r.calls (vs.length + 1)).1 = vs.map (fun v => .ok (some v)) ++ [.error e]) ∧
    (∀ e, r.parseAll.1 = .error e →
      e.isRecoverable = false ∧ r.readAll.1 = .error e ∧ r.forms.2.1 = some e ∧
      (r.calls (r.forms.1.length + 1)).1 = r.forms.1.map (fun v => .ok (some v)) ++ [.error e]) ∧
    (r.form.1 = match r.forms.1 with
      | [] => stop r.forms.2.1
      | v :: _ => .ok (some v)) ∧
    (∀ v r', r.form = (.ok (some v), r') →
      ∃ (used : List Token) (rest : TokenSource), src = used.map .ok ++ rest ∧
        ∀ other : TokenSource, (Reader.mk (.ofSource (used.map .ok ++ other)) t).form =
          (.ok (some v), ⟨.ofSource other, r'.symbols⟩)) ∧
    r.parseAll.2 = r.readAll.2 ∧ r.readAll.2 = (r.calls (r.forms.1.length + 1)).2 := by
  intro r
  have hcalls := calls_forms (r := r) rfl
  have hparsed {p : Parsed} (h : r.parseAll.1 = .ok p) : p = ⟨r.forms.1, r.forms.2.1⟩ :=
    Reading.forms_of_parsed ((parseAll_fst r).symm.trans h)
  refine ⟨?_, ?_, ?_, ?_, ?_, ?_, ?_⟩
  · intro vs hok
    obtain ⟨rfl, hnone⟩ := Parsed.mk.inj (hparsed hok)
    refine ⟨?_, rfl, hnone.symm, ?_⟩
    · rw [readAll_eq, ← hnone]
      rfl
    · intro n
      have hforms : r.forms = (r.forms.1, none, r.forms.2.2) := by rw [hnone]
      have hagain := calls_of_form_none (form_again hforms) n
      rw [calls_add, hcalls, hagain, List.append_assoc, ← hnone, Nat.add_comm 1 n,
        List.replicate_succ]
      rfl
  · intro vs e hok
    obtain ⟨rfl, hsome⟩ := Parsed.mk.inj (hparsed hok)
    refine ⟨?_, ?_, rfl, hsome.symm, ?_⟩
    · refine Decidable.byContradiction fun hfault => ?_
      have herror : r.reading.parsed = .error e :=
        Reading.parsed_eq_error_iff.mpr ⟨hsome.symm, hfault⟩
      rw [parseAll_fst, herror] at hok
      cases hok
    · rw [readAll_eq, ← hsome]
      rfl
    · rw [hcalls, ← hsome]
      rfl
  · intro e herror
    rw [parseAll_fst] at herror
    obtain ⟨hsome, hfault⟩ : r.forms.2.1 = some e ∧ _ := Reading.parsed_eq_error_iff.mp herror
    refine ⟨by simpa using hfault, ?_, hsome, ?_⟩
    · rw [readAll_eq, hsome]
      rfl
    · rw [hcalls, hsome]
      rfl
  · rcases hforms : r.forms with ⟨_ | ⟨v, vs⟩, failure, r'⟩
    · rw [form_of_forms_nil hforms]
    · obtain ⟨r₁, hform, -⟩ := form_of_forms_cons hforms
      rw [hform]
  · intro v r' hform
    obtain ⟨used, rest, hsrc, -, hother⟩ := resume_ok_some hform
    exact ⟨used, rest, hsrc, hother⟩
  · rw [parseAll_snd, readAll_eq]
  · rw [readAll_eq, hcalls]

end LispCore.Reader
