import LispCore.Proofs.Reader.Program
import LispCore.Proofs.Token.Source

/-!
Programs read from a text.

* `reading_ofText` — what is read of a text is what scanning the tokens it is cut into gives, and
  after that what its end or the failure of the lexer says; `form_ofText` says the same of the first
  form;
* `Scan.finish_cases` — a program is stopped by a token that is refused, by an end of the text
  inside a form or by a failure of the lexer;
* `Scan.finish_andThen_of_refused` — once a token is refused, no token after it matters.
-/

namespace LispCore.Reader

variable {toks : List Token} {last : Except Failure Token}

/-! ### The end of the tokens -/

theorem isLast_of_endsText {p : Position} (h : EndsText p last) : IsLast last := by
  rintro tok rfl
  obtain rfl : tok = endAt p := h
  rfl

/-- **What is read of a text** is what scanning its tokens gives, and after that what the last item
says. -/
theorem reading_ofText {text : String} (h : CutInto {} text.toList toks last) (t : SymbolTable) :
    (ofText text t).reading = ((State.form []).scan toks t).finish last := by
  have hsource : tokens text = toks.map .ok ++ [last] := h.tokens_eq
  rw [ofText, TokenStream.ofText, hsource]
  exact reading_ofSource h.not_end (isLast_of_endsText h.ends) t

/-- The first form of a text is what the steps over its tokens complete. -/
theorem form_ofText {text : String} (h : CutInto {} text.toList toks last) (t : SymbolTable) :
    (ofText text t).form = outcome [last] ((State.form []).run toks t) := by
  have hsource : tokens text = toks.map .ok ++ [last] := h.tokens_eq
  rw [ofText, TokenStream.ofText, hsource]
  exact resume_ofSource h.not_end (.form []) t [last]

/-- Where only the last item of a source is left, no form is read. -/
theorem resume_last_ne_some (hlast : IsLast last) (st : State) (t : SymbolTable) (v : Value) :
    (resume st ⟨.ofSource [last], t⟩).1 ≠ .ok (some v) := by
  rw [resume]
  cases last with
  | error e => simp [TokenStream.ofSource, TokenStream.next, TokenStream.pull]
  | ok tok =>
    simpa [TokenStream.ofSource, TokenStream.next, TokenStream.pull, hlast tok rfl]
      using st.atEnd_ne_some tok v

/-- Only between two forms may the input end. -/
theorem State.eq_of_atEnd_ok {st : State} {tok : Token} {o : Option Value}
    (h : st.atEnd tok = .ok o) : st = .form [] := by
  rcases st with (_ | ⟨_ | _ | _ | _ | _, _⟩) | _
  · rfl
  all_goals cases h

/-- An end of the input that is refused came too early. -/
theorem State.family_of_atEnd_error {st : State} {tok : Token} {e : Failure}
    (h : st.atEnd tok = .error e) : Blames e tok .unexpectedEnd := by
  rcases st with (_ | ⟨_ | _ | _ | _ | _, _⟩) | _
  · cases h
  all_goals
    cases h
    exact ⟨_, rfl, rfl, rfl⟩

/-- Nothing is amiss at the end of the tokens only if they are cut to the end of the text and no
form is open. -/
theorem State.failureAt_eq_none {st : State} (h : st.failureAt last = none) :
    st = .form [] ∧ ∃ tok, last = .ok tok := by
  cases last with
  | error e => cases h
  | ok tok =>
    rw [State.failureAt] at h
    cases hend : st.atEnd tok with
    | ok o => exact ⟨State.eq_of_atEnd_ok hend, tok, rfl⟩
    | error e =>
      rw [hend] at h
      cases h

/-- **What stops a program at the end of its tokens** is a failure of their source, or an end inside
a form. -/
theorem State.failureAt_eq_some {st : State} {e : Failure} (h : st.failureAt last = some e) :
    last = .error e ∨ ∃ tok, last = .ok tok ∧ Blames e tok .unexpectedEnd := by
  cases last with
  | error e' =>
    cases h
    exact .inl rfl
  | ok tok =>
    rw [State.failureAt] at h
    cases hend : st.atEnd tok with
    | ok o =>
      rw [hend] at h
      cases h
    | error e' =>
      rw [hend] at h
      cases h
      exact .inr ⟨tok, rfl, State.family_of_atEnd_error hend⟩

/-- In a text the source is the lexer, and its end is the end of the text. -/
theorem State.failureAt_cases {st : State} {p : Position} (hlast : EndsText p last) {e : Failure}
    (h : st.failureAt last = some e) :
    (last = .ok (endAt p) ∧ Blames e (endAt p) .unexpectedEnd) ∨ (last = .error e ∧ e.Lexical) := by
  obtain rfl | ⟨tok, rfl, hblames⟩ := State.failureAt_eq_some h
  · exact .inr ⟨rfl, hlast⟩
  · obtain rfl : tok = endAt p := hlast
    exact .inl ⟨rfl, hblames⟩

/-- Nothing stops a program only if all its tokens are complete forms and the text ends there. -/
theorem Scan.finish_eq_none {s : Scan} (h : (s.finish last).failure = none) :
    s.stop = .ok (.form []) ∧ ∃ tok, last = .ok tok := by
  obtain ⟨forms, stop, t⟩ := s
  cases stop with
  | error e => cases h
  | ok st =>
    obtain ⟨rfl, hlast⟩ := State.failureAt_eq_none h
    exact ⟨rfl, hlast⟩

/-- **What stops a program** is a token that was refused, or what `State.failureAt_cases` says of
the end of its tokens. -/
theorem Scan.finish_cases {s : Scan} {p : Position} (hlast : EndsText p last) {e : Failure}
    (h : (s.finish last).failure = some e) :
    s.stop = .error e ∨ (∃ st, s.stop = .ok st) ∧
      ((last = .ok (endAt p) ∧ Blames e (endAt p) .unexpectedEnd) ∨
        (last = .error e ∧ e.Lexical)) := by
  obtain ⟨forms, stop, t⟩ := s
  cases stop with
  | error e' => exact .inl (congrArg Except.error (Option.some.inj h))
  | ok st => exact .inr ⟨⟨st, rfl⟩, State.failureAt_cases hlast h⟩

/-! ### More tokens -/

/-- More tokens only add forms. -/
theorem Scan.forms_andThen (s : Scan) (toks : List Token) :
    s.forms <+: (s.andThen toks).forms := by
  obtain ⟨forms, stop, t⟩ := s
  cases stop with
  | ok st => exact List.prefix_append _ _
  | error e => exact List.prefix_refl _

/-- Once a token is refused, no token after it matters, nor what ends them. -/
theorem Scan.finish_andThen_of_refused {s : Scan} {e : Failure} (h : s.stop = .error e)
    (toks : List Token) (last last' : Except Failure Token) :
    (s.andThen toks).finish last' = s.finish last := by
  obtain ⟨forms, stop, t⟩ := s
  obtain rfl : stop = .error e := h
  rfl

/-- Where no form is open, the tokens that follow are scanned as a program of their own. -/
theorem Scan.finish_andThen_of_complete {s : Scan} (h : s.stop = .ok (.form []))
    (toks : List Token) (last : Except Failure Token) :
    (s.andThen toks).finish last =
      (((State.form []).scan toks s.symbols).finish last).after s.forms := by
  obtain ⟨forms, stop, t⟩ := s
  obtain rfl : stop = .ok (.form []) := h
  rfl

end LispCore.Reader
