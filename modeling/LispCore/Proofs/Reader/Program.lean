import LispCore.Proofs.Reader.Rejection
import LispCore.Reader.Program

/-!
Whole programs, read from a list of tokens.

`State.scan` takes the reader's steps over tokens, form after form, without a stream. It stops at
the first token that is refused, or in some state when the tokens run out.

* `reading_ofSource` — what is read of a source is what scanning its tokens gives, and after that
  what the last item of the source says;
* `State.scan_append` — tokens after others are scanned from where the others led to;
* `State.scan_scanned` — scanning keeps to the grammar: the tokens are forms and then a viable
  prefix of one more, which the refused token cannot continue.
-/

namespace LispCore.Reader

/-! ### What reading gives -/

/-- What reading a program gives: the forms, the failure that stopped it if one did, and the names
that are known after it. -/
structure Reading where
  forms : List Value
  failure : Option Failure
  symbols : SymbolTable

/-- Forms that were read before others. -/
def Reading.after (vs : List Value) (q : Reading) : Reading := { q with forms := vs ++ q.forms }

/-- What is read of a program, unless nothing recovers from the failure. -/
def Reading.parsed (q : Reading) : Except Failure Parsed :=
  match q.failure with
  | none => .ok ⟨q.forms, none⟩
  | some e => if e.isRecoverable then .ok ⟨q.forms, some e⟩ else .error e

/-- What a reader reads to the end of its input or to a failure. -/
def reading (r : Reader) : Reading := ⟨r.forms.1, r.forms.2.1, r.forms.2.2.symbols⟩

theorem parseAll_fst (r : Reader) : r.parseAll.1 = r.reading.parsed := by
  unfold parseAll reading Reading.parsed
  rcases r.forms with ⟨vs, _ | e, r'⟩ <;> rfl

theorem readAll_fst (r : Reader) :
    r.readAll.1 =
      match r.reading.failure with
      | none => .ok r.reading.forms
      | some e => .error e := by
  unfold readAll reading
  rcases r.forms with ⟨vs, _ | e, r'⟩ <;> rfl

theorem symbols_parseAll (r : Reader) : r.parseAll.2.symbols = r.reading.symbols := by
  unfold parseAll reading
  rcases r.forms with ⟨vs, _ | e, r'⟩ <;> rfl

theorem symbols_readAll (r : Reader) : r.readAll.2.symbols = r.reading.symbols := by
  unfold readAll reading
  rcases r.forms with ⟨vs, _ | e, r'⟩ <;> rfl

theorem Reading.forms_of_parsed {q : Reading} {p : Parsed} (h : q.parsed = .ok p) :
    p = ⟨q.forms, q.failure⟩ := by
  unfold parsed at h
  split at h
  · next hnone => rw [hnone]; exact (Except.ok.inj h).symm
  · next hsome =>
    split at h
    · rw [hsome]; exact (Except.ok.inj h).symm
    · cases h

theorem Reading.parsed_eq_error_iff {q : Reading} {e : Failure} :
    q.parsed = .error e ↔ q.failure = some e ∧ ¬e.isRecoverable = true := by
  obtain ⟨forms, failure, t⟩ := q
  cases failure with
  | none => simp [Reading.parsed]
  | some e' =>
    simp only [Reading.parsed, Option.some.injEq]
    split
    · next hrec =>
      simp only [reduceCtorEq, false_iff, not_and, Decidable.not_not]
      rintro rfl
      exact hrec
    · next hrec =>
      simp only [Except.error.injEq]
      constructor
      · rintro rfl
        exact ⟨rfl, hrec⟩
      · rintro ⟨rfl, -⟩
        rfl

/-- What is read from a state on: the rest of a form, and the forms after it. -/
def readingFrom (st : State) (r : Reader) : Reading :=
  match r.resume st with
  | (.ok none, r') => ⟨[], none, r'.symbols⟩
  | (.error e, r') => ⟨[], some e, r'.symbols⟩
  | (.ok (some v), r') => r'.reading.after [v]

theorem reading_eq (r : Reader) : r.reading = r.readingFrom (.form []) := by
  rw [reading, forms, readingFrom]
  split
  · next h => rw [form] at h; rw [h]
  · next h => rw [form] at h; rw [h]
  · next h => rw [form] at h; rw [h]; rfl

/-! ### Steps over the tokens of a program -/

/-- What scanning tokens gives: the complete forms, then the state in which the tokens ran out or
why one of them was refused. -/
structure Scan where
  forms : List Value
  stop : Except Failure State
  symbols : SymbolTable

namespace Scan

/-- Forms that were scanned before others. -/
def after (vs : List Value) (s : Scan) : Scan := { s with forms := vs ++ s.forms }

@[simp] theorem after_after (vs ws : List Value) (s : Scan) :
    (s.after ws).after vs = s.after (vs ++ ws) := by
  simp [after]

end Scan

/-- Takes steps over tokens, form after form, until one of the tokens is refused. -/
def State.scan : List Token → State → SymbolTable → Scan
  | [], st, t => ⟨[], .ok st, t⟩
  | tok :: toks, st, t =>
    match st.step tok t with
    | (.more st, t) => State.scan toks st t
    | (.done v, t) => (State.scan toks (.form []) t).after [v]
    | (.failed e, t) => ⟨[], .error e, t⟩

/-- Goes on over more tokens, unless a token was refused. -/
def Scan.andThen (s : Scan) (toks : List Token) : Scan :=
  match s.stop with
  | .ok st => (st.scan toks s.symbols).after s.forms
  | .error _ => s

theorem Scan.after_andThen (vs : List Value) (s : Scan) (toks : List Token) :
    (s.after vs).andThen toks = (s.andThen toks).after vs := by
  obtain ⟨forms, stop, t⟩ := s
  cases stop with
  | ok st => exact (Scan.after_after vs forms _).symm
  | error e => rfl

/-- **Tokens after others are scanned from where the others led to.** -/
theorem State.scan_append (xs ys : List Token) (st : State) (t : SymbolTable) :
    st.scan (xs ++ ys) t = (st.scan xs t).andThen ys := by
  induction xs generalizing st t with
  | nil => rfl
  | cons tok xs ih =>
    rw [List.cons_append, State.scan, State.scan]
    split
    · exact ih _ _
    · rw [ih, Scan.after_andThen]
    · rfl

/-- Scanning is taking the steps of one form, and scanning what they left over. -/
theorem State.scan_eq_run (toks : List Token) (st : State) (t : SymbolTable) :
    st.scan toks t =
      match st.run toks t with
      | (.more st', t', _) => ⟨[], .ok st', t'⟩
      | (.done v, t', left) => ((State.form []).scan left t').after [v]
      | (.failed e, t', _) => ⟨[], .error e, t'⟩ := by
  induction toks generalizing st t with
  | nil => rfl
  | cons tok toks ih =>
    rw [State.scan, State.run_cons]
    rcases st.step tok t with ⟨st' | v | e, t'⟩
    · exact ih st' t'
    · rfl
    · rfl

/-! ### Sources that end -/

/-- The last item of a source is its end or a failure. -/
def IsLast (last : Except Failure Token) : Prop :=
  ∀ tok, last = .ok tok → tok.kind = .endOfInput

/-- The failure that the last item of a source leads to in a state, if it does to one. -/
def State.failureAt (st : State) : Except Failure Token → Option Failure
  | .error e => some e
  | .ok tok =>
    match st.atEnd tok with
    | .ok _ => none
    | .error e => some e

/-- What is read once the tokens are scanned and the last item of their source is reached. -/
def Scan.finish (s : Scan) (last : Except Failure Token) : Reading where
  forms := s.forms
  failure :=
    match s.stop with
    | .ok st => st.failureAt last
    | .error e => some e
  symbols := s.symbols

theorem Scan.finish_after (vs : List Value) (s : Scan) (last : Except Failure Token) :
    (s.after vs).finish last = (s.finish last).after vs := rfl

/-- The end of the input is a failure or the end of all forms, and never a form. -/
theorem State.atEnd_ne_some (st : State) (tok : Token) (v : Value) :
    st.atEnd tok ≠ .ok (some v) := by
  rcases st with (_ | ⟨_ | _ | _ | _ | _, _⟩) | _ <;> simp [State.atEnd]

/-- What an end of the input means for the form that is open. -/
theorem readingFrom_of_next {tok : Token} (htok : tok.kind = .endOfInput) {s s' : TokenStream}
    (hnext : s.next = (.ok tok, s')) (st : State) (t : SymbolTable) :
    readingFrom st ⟨s, t⟩ = (Scan.mk [] (.ok st) t).finish (.ok tok) := by
  have hresume : resume st ⟨s, t⟩ = (st.atEnd tok, ⟨s', t⟩) := by
    rw [resume]
    split
    · next heq => rw [hnext] at heq; cases heq
    · next heq =>
      rw [hnext] at heq
      cases heq
      rw [dif_pos htok]
  rw [readingFrom, hresume]
  cases h : st.atEnd tok with
  | error e => simp [Scan.finish, State.failureAt, h]
  | ok o =>
    cases o with
    | none => simp [Scan.finish, State.failureAt, h]
    | some v => exact absurd h (st.atEnd_ne_some tok v)

/-- The last item of a source says what becomes of the form that is open, whatever stands after it.
-/
theorem readingFrom_last {last : Except Failure Token} (hlast : IsLast last) (later : TokenSource)
    (st : State) (t : SymbolTable) :
    readingFrom st ⟨.ofSource (last :: later), t⟩ = (Scan.mk [] (.ok st) t).finish last := by
  cases last with
  | error e =>
    rw [readingFrom, resume]
    rfl
  | ok tok =>
    exact readingFrom_of_next (hlast tok rfl) rfl st t

/-- If what stands after tokens is read as the last item of a source would be, the tokens and it are
read as what scanning the tokens gives, and after that what that item says. -/
theorem readingFrom_append {toks : List Token} (hend : ∀ tok ∈ toks, tok.kind ≠ .endOfInput)
    {rest : TokenSource} {last : Except Failure Token}
    (hrest : ∀ st t, readingFrom st ⟨.ofSource rest, t⟩ = (Scan.mk [] (.ok st) t).finish last)
    (st : State) (t : SymbolTable) :
    readingFrom st ⟨.ofSource (toks.map .ok ++ rest), t⟩ = (st.scan toks t).finish last := by
  induction toks generalizing st t with
  | nil => exact hrest st t
  | cons tok toks ih =>
    obtain ⟨htok, htoks⟩ := List.forall_mem_cons.mp hend
    have hstep : resume st ⟨.ofSource (.ok tok :: (toks.map .ok ++ rest)), t⟩ =
        outcome (toks.map .ok ++ rest) (proceed [] (st.step tok t)) := by
      rw [← State.run_cons]
      exact resume_ofSource (List.forall_mem_singleton.mpr htok) st t (toks.map .ok ++ rest)
    rw [List.map_cons, List.cons_append, State.scan]
    rw [readingFrom, hstep]
    rcases st.step tok t with ⟨st' | v | e, t'⟩
    · rw [← ih htoks st' t', readingFrom]
      rfl
    · simp only [proceed, outcome, List.map_nil, List.nil_append]
      rw [reading_eq, ih htoks, ← Scan.finish_after]
    · rfl

theorem readingFrom_ofSource {toks : List Token} (hend : ∀ tok ∈ toks, tok.kind ≠ .endOfInput)
    {last : Except Failure Token} (hlast : IsLast last) (st : State) (t : SymbolTable) :
    readingFrom st ⟨.ofSource (toks.map .ok ++ [last]), t⟩ = (st.scan toks t).finish last :=
  readingFrom_append hend (readingFrom_last hlast []) st t

/-- **What is read of a source is what scanning its tokens gives**, and after that what the last
item of the source says. -/
theorem reading_ofSource {toks : List Token} (hend : ∀ tok ∈ toks, tok.kind ≠ .endOfInput)
    {last : Except Failure Token} (hlast : IsLast last) (t : SymbolTable) :
    (Reader.mk (.ofSource (toks.map .ok ++ [last])) t).reading =
      ((State.form []).scan toks t).finish last := by
  rw [reading_eq, readingFrom_ofSource hend hlast]

/-! ### Scanning and the grammar -/

/-- `Scanned toks t s`: what scanning gives agrees with the grammar. The tokens are forms and then
tokens that lead to a state, all of them or all before one that is refused in that state. -/
inductive Scanned : List Token → SymbolTable → Scan → Prop where
  | waiting {xs ys vs st t t₁ t'} : Exprs xs t vs t₁ → Reached st ys t₁ t' →
      Scanned (xs ++ ys) t ⟨vs, .ok st, t'⟩
  | refused {xs ys tok left vs st e t t₁ t₂ t'} : Exprs xs t vs t₁ → Reached st ys t₁ t₂ →
      st.step tok t₂ = (.failed e, t') →
      Scanned (xs ++ (ys ++ tok :: left)) t ⟨vs, .error e, t'⟩

theorem Scanned.cons {xs toks : List Token} {t t₁ : SymbolTable} {v : Value} {s : Scan}
    (hx : Expr xs t v t₁) (h : Scanned toks t₁ s) : Scanned (xs ++ toks) t (s.after [v]) := by
  cases h with
  | waiting hxs hst =>
    rw [← List.append_assoc]
    exact .waiting (.cons hx hxs) hst
  | refused hxs hst hstep =>
    rw [← List.append_assoc]
    exact .refused (.cons hx hxs) hst hstep

/-- A token that is not regular, and not the end, is a decimal integer with too many digits. -/
theorem kind_of_not_regular {tok : Token} (hirregular : ¬tok.Regular)
    (hend : tok.kind ≠ .endOfInput) :
    tok.kind = .integer .decimal ∧
      maxDecimalDigits < tok.text.toList.countP Radix.decimal.isDigit := by
  have hkind : tok.kind = .integer .decimal :=
    Decidable.byContradiction fun h => hirregular ⟨hend, fun h' => absurd h' h⟩
  refine ⟨hkind, Nat.lt_of_not_le fun hfew => hirregular ⟨hend, fun _ => hfew⟩⟩

/-- Such an integer is refused wherever it stands. -/
theorem State.step_irregular {tok : Token} (hirregular : ¬tok.Regular)
    (hend : tok.kind ≠ .endOfInput) (st : State) (t : SymbolTable) :
    ∃ e t', st.step tok t = (.failed e, t') := by
  obtain ⟨hkind, hmany⟩ := kind_of_not_regular hirregular hend
  cases st with
  | close elements tail stack =>
    rw [State.step, if_neg (by simp [hkind])]
    exact ⟨_, _, rfl⟩
  | form stack =>
    rw [State.step_form (by simp [hkind, TokenKind.startsForm])]
    simp only [start, hkind, Token.readInteger, true_and, if_pos hmany]
    split <;> exact ⟨_, _, rfl⟩

/-- **Scanning keeps to the grammar**, from any state that tokens lead to. -/
theorem State.scan_reached {toks : List Token} (hend : ∀ tok ∈ toks, tok.kind ≠ .endOfInput)
    {st : State} {before : List Token} {t₀ t : SymbolTable} (hst : Reached st before t₀ t) :
    Scanned (before ++ toks) t₀ (st.scan toks t) := by
  induction toks generalizing st before t₀ t with
  | nil =>
    rw [List.append_nil]
    exact .waiting .nil hst
  | cons tok toks ih =>
    obtain ⟨htok, htoks⟩ := List.forall_mem_cons.mp hend
    have hsplit : before ++ tok :: toks = before ++ [tok] ++ toks := by simp
    have hfits : Fits (before ++ [tok]) t₀ (st.step tok t) := by
      by_cases hreg : tok.Regular
      · exact State.step_fits hst hreg
      · obtain ⟨e, t', hstep⟩ := st.step_irregular hreg htok t
        rw [hstep]
        trivial
    rw [State.scan]
    rcases hstep : st.step tok t with ⟨st' | v | e, t'⟩ <;> rw [hstep] at hfits
    · rw [hsplit]
      exact ih htoks hfits
    · rw [hsplit]
      exact .cons hfits (ih htoks (reached_start t'))
    · exact .refused .nil hst hstep

/-- **A program is forms and then a viable prefix of one more.** -/
theorem State.scan_scanned {toks : List Token} (hend : ∀ tok ∈ toks, tok.kind ≠ .endOfInput)
    (t : SymbolTable) : Scanned toks t ((State.form []).scan toks t) :=
  State.scan_reached hend (reached_start t)

end LispCore.Reader
