import LispCore.Proofs.Reader.Acceptance

/-!
The reader refuses a text at the first token that makes it impossible, and at no other.

* `State.step_form_failed`, `State.step_close_failed` — a token that is refused is the token of the
  error, and whether the error is about a number or about structure is read off the token and the
  state.
* `State.run_failed` — the tokens before the one refused led to a state, so they are viable.
* `form_reports_first_impossible` — the longest viable prefix decides what is reported: the token
  after it, the end of the input, or the failure of the source.
-/

namespace LispCore

/-- A numeric token that no number is read from: its text spells none of its radix, or one that does
not fit. -/
inductive Token.Unconvertible (tok : Token) : Prop where
  | integer {r} : tok.kind = .integer r →
      (¬∃ n, r.Spells tok.text.toList n ∧ minInt ≤ n ∧ n ≤ maxInt) → tok.Unconvertible
  | float : tok.kind = .float → (¬∃ x, tok.readFloat = .ok x) → tok.Unconvertible

namespace Reader

/-! ### Refused tokens -/

theorem complete_ne_failed (v : Value) (stack : List Frame) (t : SymbolTable) (e : Failure)
    (t' : SymbolTable) : complete v stack t ≠ (.failed e, t') := by
  induction stack generalizing v t with
  | nil => simp [complete]
  | cons f stack ih =>
    cases f with
    | marked m => exact ih _ _
    | _ => simp [complete]

/-- `Blames e tok family`: a failure is a reading error of a family that shows at a token. -/
def Blames (e : Failure) (tok : Token) (family : ReadError.Family) : Prop :=
  ∃ err, e = .read err ∧ err.token? = some tok ∧ err.family = family

/-- A refused integer is blamed as a number. -/
theorem readInteger_error {tok : Token} {r : Radix} {e : Failure} (hreg : tok.Regular)
    (hk : tok.kind = .integer r) (h : tok.readInteger r = .error e) :
    Blames e tok .numeric ∧ tok.Unconvertible := by
  have hnone : ¬∃ n, r.Spells tok.text.toList n ∧ minInt ≤ n ∧ n ≤ maxInt := by
    rintro ⟨n, hn⟩
    rw [(Token.readInteger_eq_ok_iff hreg hk).mpr hn] at h
    cases h
  refine ⟨?_, .integer hk hnone⟩
  unfold Token.readInteger at h
  split at h
  · cases h
    exact ⟨_, rfl, rfl, rfl⟩
  · dsimp only at h
    split at h
    · next hmany =>
      obtain ⟨rfl, hmany⟩ := hmany
      exact absurd (hreg.few_digits hk) (Nat.not_le.mpr hmany)
    · split at h
      · cases h
      · cases h
        exact ⟨_, rfl, rfl, rfl⟩

/-- A refused floating-point number is blamed as a number. -/
theorem readFloat_error {tok : Token} {e : Failure} (hk : tok.kind = .float)
    (h : tok.readFloat = .error e) : Blames e tok .numeric ∧ tok.Unconvertible := by
  refine ⟨?_, .float hk (by simp [h])⟩
  unfold Token.readFloat at h
  split at h
  · cases h
    exact ⟨_, rfl, rfl, rfl⟩
  · split at h
    · cases h
      exact ⟨_, rfl, rfl, rfl⟩
    · cases h

/-- A number is unconvertible in one way only, and other tokens are not. -/
theorem not_unconvertible {tok : Token} (hint : ∀ r, tok.kind ≠ .integer r)
    (hfloat : tok.kind ≠ .float) : ¬tok.Unconvertible := by
  rintro (⟨hk, -⟩ | ⟨hk, -⟩)
  · exact hint _ hk
  · exact hfloat hk

/-- **Where a form may start**, a token is refused as a number if it is one that does not convert,
and as out of place otherwise. -/
theorem start_failed {tok : Token} (hreg : tok.Regular) {stack : List Frame} {t t' : SymbolTable}
    {e : Failure} (h : start tok stack t = (.failed e, t')) :
    (tok.Unconvertible ∧ Blames e tok .numeric) ∨
      (¬tok.Unconvertible ∧ Blames e tok .structural) := by
  unfold start at h
  split at h
  · cases h
  · cases h
  · cases h
  · cases h
  · exact absurd h (complete_ne_failed _ _ _ _ _)
  · exact absurd h (complete_ne_failed _ _ _ _ _)
  · next r hk =>
    cases hread : tok.readInteger r with
    | ok n =>
      rw [hread] at h
      exact absurd h (complete_ne_failed _ _ _ _ _)
    | error e' =>
      rw [hread] at h
      cases h
      exact .inl (readInteger_error hreg hk hread).symm
  · next hk =>
    cases hread : tok.readFloat with
    | ok n =>
      rw [hread] at h
      exact absurd h (complete_ne_failed _ _ _ _ _)
    | error e' =>
      rw [hread] at h
      cases h
      exact .inl (readFloat_error hk hread).symm
  · exact absurd h (complete_ne_failed _ _ _ _ _)
  · next hk =>
    split at h
    · exact absurd h (complete_ne_failed _ _ _ _ _)
    · cases h
      exact .inr ⟨not_unconvertible (by simp [hk]) (by simp [hk]), _, rfl, rfl, rfl⟩
  all_goals
    next hk =>
    cases h
    exact .inr ⟨not_unconvertible (by simp [hk]) (by simp [hk]), _, rfl, rfl, rfl⟩

/-- In the innermost brackets a token is refused for what it is refused for where a form may
start. -/
theorem State.start_of_step_failed {tok : Token} {stack : List Frame} {t t' : SymbolTable}
    {e : Failure} (h : (State.form stack).step tok t = (.failed e, t')) :
    start tok stack t = (.failed e, t') := by
  rcases stack with _ | ⟨f, stack⟩
  · exact h
  cases f with
  | dotted | marked => exact h
  | list =>
    rw [State.step] at h
    split at h
    · exact absurd h (complete_ne_failed _ _ _ _ _)
    · split at h
      · cases h
      · exact h
  | array =>
    rw [State.step] at h
    split at h
    · exact absurd h (complete_ne_failed _ _ _ _ _)
    · exact h
  | hash =>
    rw [State.step] at h
    split at h
    · exact absurd h (complete_ne_failed _ _ _ _ _)
    · exact h

/-- **In the innermost brackets** a token is refused as it is where a form may start. -/
theorem State.step_form_failed {tok : Token} (hreg : tok.Regular) {stack : List Frame}
    {t t' : SymbolTable} {e : Failure} (h : (State.form stack).step tok t = (.failed e, t')) :
    (tok.Unconvertible ∧ Blames e tok .numeric) ∨
      (¬tok.Unconvertible ∧ Blames e tok .structural) :=
  start_failed hreg (State.start_of_step_failed h)

/-- After a dotted tail every token but the closing bracket is one too many. -/
theorem State.eq_of_step_close_failed {tok : Token} {elements : List Value} {tail : Value}
    {stack : List Frame} {t t' : SymbolTable} {e : Failure}
    (h : (State.close elements tail stack).step tok t = (.failed e, t')) :
    e = .read (.extraAfterDottedTail tok) := by
  rw [State.step] at h
  split at h
  · exact absurd h (complete_ne_failed _ _ _ _ _)
  · cases h
    rfl

/-- **After a dotted tail** every token but the closing bracket is refused as out of place. -/
theorem State.step_close_failed {tok : Token} {elements : List Value} {tail : Value}
    {stack : List Frame} {t t' : SymbolTable} {e : Failure}
    (h : (State.close elements tail stack).step tok t = (.failed e, t')) :
    Blames e tok .structural := ⟨_, State.eq_of_step_close_failed h, rfl, rfl⟩

/-- The end of the input is refused as an end that comes too early wherever a form is open. -/
theorem State.atEnd_eq {st : State} {toks : List Token} {t₀ t : SymbolTable}
    (hst : Reached st toks t₀ t) (hne : toks ≠ []) (tok : Token) :
    ∃ e, st.atEnd tok = .error e ∧ Blames e tok .unexpectedEnd := by
  cases hst with
  | close => exact ⟨_, rfl, _, rfl, rfl, rfl⟩
  | form hopen =>
    cases hopen with
    | nil => exact absurd rfl hne
    | _ => exact ⟨_, rfl, _, rfl, rfl, rfl⟩

/-! ### Runs up to a refused token -/

theorem State.run_append {xs : List Token} {st st' : State} {t t' : SymbolTable}
    {left : List Token} (h : st.run xs t = (.more st', t', left)) (ys : List Token) :
    st.run (xs ++ ys) t = st'.run ys t' := by
  induction xs generalizing st t with
  | nil => cases h; rfl
  | cons tok xs ih =>
    rw [State.run_cons] at h
    rw [List.cons_append, State.run_cons]
    rcases hstep : st.step tok t with ⟨_ | _ | _, t₁⟩ <;> rw [hstep] at h
    · exact ih h
    · cases h
    · cases h

/-- Steps that leave a form open use up every token. -/
theorem State.run_more {toks : List Token} {st st' : State} {t t' : SymbolTable}
    {left : List Token} (h : st.run toks t = (.more st', t', left)) : left = [] := by
  induction toks generalizing st t with
  | nil => cases h; rfl
  | cons tok toks ih =>
    rw [State.run_cons] at h
    rcases hstep : st.step tok t with ⟨_ | _ | _, t₁⟩ <;> rw [hstep] at h
    · exact ih h
    · cases h
    · cases h

/-- A refused token is the last one used up, and the tokens before it led to a state. -/
theorem State.run_failed {toks : List Token} {st : State} {t t' : SymbolTable} {e : Failure}
    {left : List Token} (h : st.run toks t = (.failed e, t', left)) :
    ∃ before tok st' t₁, toks = before ++ tok :: left ∧ st.run before t = (.more st', t₁, []) ∧
      st'.step tok t₁ = (.failed e, t') := by
  induction toks generalizing st t with
  | nil => cases h
  | cons tok toks ih =>
    rw [State.run_cons] at h
    rcases hstep : st.step tok t with ⟨st₁ | v | e', t₁⟩ <;> rw [hstep] at h
    · obtain ⟨before, tok', st', t₂, rfl, hrun, hfail⟩ := ih h
      exact ⟨tok :: before, tok', st', t₂, rfl, by rw [State.run_cons, hstep]; exact hrun, hfail⟩
    · cases h
    · cases h
      exact ⟨[], tok, st, t, rfl, rfl, hstep⟩

/-- A form that starts with tokens over which a form stays open goes on where they led to. -/
theorem run_of_isForm {before rest : List Token} (hreg : ∀ tok ∈ before, tok.Regular)
    (hform : IsForm (before ++ rest)) {st : State} {t t₁ : SymbolTable}
    (hrun : (State.form []).run before t = (.more st, t₁, [])) :
    ∃ v t', st.run (rest.map regularized) t₁ = (.done v, t', []) := by
  obtain ⟨v, t', hx⟩ := hform.exists_expr hreg t
  have hdone := hx.run_form (regular_append_regularized hreg rest) [] []
  rw [List.append_nil, State.run_append hrun] at hdone
  exact ⟨v, t', hdone⟩

/-- **A refused token is impossible.** No form starts with the tokens up to it. -/
theorem not_viable_of_failed {before : List Token} {tok : Token}
    (hreg : ∀ tok' ∈ before ++ [tok], tok'.Regular) {st : State} {t t₁ t' : SymbolTable}
    {e : Failure} (hrun : (State.form []).run before t = (.more st, t₁, []))
    (hstep : st.step tok t₁ = (.failed e, t')) : ¬Viable (before ++ [tok]) := by
  rintro ⟨rest, hform⟩
  rw [List.append_assoc, List.singleton_append] at hform
  obtain ⟨hbefore, htok⟩ := List.forall_mem_append.mp hreg
  obtain ⟨v, t₂, hdone⟩ := run_of_isForm hbefore hform hrun
  rw [List.map_cons, regularized_of_regular (htok tok (by simp)), State.run_cons, hstep] at hdone
  cases hdone

/-- After a dotted tail no form may follow. -/
theorem not_mayFollow_of_close {before : List Token} (hreg : ∀ tok ∈ before, tok.Regular)
    {elements : List Value} {tail : Value} {stack : List Frame} {t t₁ : SymbolTable}
    (hrun : (State.form []).run before t = (.more (.close elements tail stack), t₁, [])) :
    ¬MayFollow before := by
  rintro ⟨more, ⟨s, w, s', hmore⟩, rest, hform⟩
  obtain ⟨tok, more', rfl, hstart⟩ := hmore.exists_cons
  rw [List.append_assoc, List.cons_append] at hform
  obtain ⟨v, t₂, hdone⟩ := run_of_isForm hreg hform hrun
  have hclosing : (regularized tok).kind ≠ .closing .round := by
    intro hk
    have hstart' := regularized_startsForm hstart
    rw [hk] at hstart'
    cases hstart'
  rw [List.map_cons, State.run_cons, State.step, if_neg hclosing] at hdone
  cases hdone

/-! ### Exhausted readers -/

/-- A reader whose source has nothing left to deliver. -/
def Spent (r : Reader) : Prop :=
  r.stream.buffer = none ∧ (r.stream.ending.isSome ∨ r.stream.source = [])

/-- A reader after some readings of a form, whatever they gave. -/
def afterForms (r : Reader) : Nat → Reader
  | 0 => r
  | n + 1 => (r.afterForms n).form.2

/-- A reader with nothing left reads no form and has nothing left after that. -/
theorem Spent.form {r : Reader} (h : r.Spent) : r.form.1 = .ok none ∧ r.form.2.Spent := by
  obtain ⟨⟨source, buffer, ending, hending⟩, t⟩ := r
  obtain ⟨rfl, h⟩ := h
  cases ending with
  | some tok =>
    have htok := hending tok rfl
    rw [Reader.form, Reader.resume]
    simp [TokenStream.next, TokenStream.pull, htok, State.atEnd, Spent]
  | none =>
    obtain rfl : source = [] := by simpa using h
    rw [Reader.form, Reader.resume]
    simp [TokenStream.next, TokenStream.pull, TokenStream.pulled, Token.unplacedEnd, State.atEnd,
      Spent]

theorem Spent.afterForms {r : Reader} (h : r.Spent) (n : Nat) : (r.afterForms n).Spent := by
  induction n with
  | zero => exact h
  | succ n ih => exact ih.form.2

/-! ### What is reported -/

/-- How a source ends without a failure: it is exhausted, or it delivers an end of its own. -/
inductive Ends : TokenSource → Token → Prop where
  | exhausted : Ends [] .unplacedEnd
  | delivered {tok later} : tok.kind = .endOfInput → Ends (.ok tok :: later) tok

/-- At the end of its source, a reader that has read tokens of a form reports that end, and nothing
is left. -/
theorem resume_of_ends {rest : TokenSource} {tok : Token} (hends : Ends rest tok) {st : State}
    {toks : List Token} {t₀ t : SymbolTable} (hst : Reached st toks t₀ t) (hne : toks ≠ []) :
    ∃ e, (Reader.resume st ⟨.ofSource rest, t⟩).1 = .error e ∧ Blames e tok .unexpectedEnd ∧
      (Reader.resume st ⟨.ofSource rest, t⟩).2.Spent := by
  obtain ⟨e, he, hblames⟩ := State.atEnd_eq hst hne tok
  refine ⟨e, ?_⟩
  rw [Reader.resume]
  cases hends with
  | exhausted =>
    simp [TokenStream.ofSource, TokenStream.next, TokenStream.pull, TokenStream.pulled,
      Token.unplacedEnd, Spent]
    exact ⟨he, hblames⟩
  | delivered htok =>
    simp [TokenStream.ofSource, TokenStream.next, TokenStream.pull, TokenStream.pulled, htok, Spent]
    exact ⟨he, hblames⟩

/-- A failure of the source is passed on as it is, and nothing is left. -/
theorem resume_of_error (st : State) (t : SymbolTable) (e : Failure) (later : TokenSource) :
    (Reader.resume st ⟨.ofSource (.error e :: later), t⟩).1 = .error e ∧
      (Reader.resume st ⟨.ofSource (.error e :: later), t⟩).2.Spent := by
  rw [Reader.resume]
  simp [TokenStream.ofSource, TokenStream.next, TokenStream.pull, Spent]

/-- **A form is never found later.** If the steps over tokens complete no form, no prefix of the
tokens is one. -/
theorem not_isForm_take {toks : List Token} (hreg : ∀ tok ∈ toks, tok.Regular) {t t' : SymbolTable}
    {p : Progress} {left : List Token} (hrun : (State.form []).run toks t = (p, t', left))
    (hp : ∀ v, p ≠ .done v) (k : Nat) : ¬IsForm (toks.take k) := by
  intro hform
  have hregk : ∀ tok ∈ toks.take k, tok.Regular := fun tok h => hreg tok (List.mem_of_mem_take h)
  rw [← List.append_nil (toks.take k)] at hform
  obtain ⟨v, t₁, hx⟩ := hform.exists_expr hregk t
  rw [List.map_nil, List.append_nil] at hx
  have hdone := hx.run_form hregk [] (toks.drop k)
  rw [List.take_append_drop, hrun] at hdone
  exact hp v (congrArg Prod.fst hdone)

/-- A refused token is blamed for what the tokens before it allow. -/
theorem blames_of_step_failed {before : List Token} {tok : Token}
    (hreg : ∀ tok' ∈ before ++ [tok], tok'.Regular) {st : State} {t t₁ t' : SymbolTable}
    {e : Failure} (hst : Reached st before t t₁)
    (hrun : (State.form []).run before t = (.more st, t₁, []))
    (hstep : st.step tok t₁ = (.failed e, t')) :
    (tok.Unconvertible ∧ MayFollow before → Blames e tok .numeric) ∧
      (¬(tok.Unconvertible ∧ MayFollow before) → Blames e tok .structural) := by
  obtain ⟨hbefore, htok⟩ := List.forall_mem_append.mp hreg
  cases hst with
  | form hopen =>
    obtain ⟨hbad, hblames⟩ | ⟨hgood, hblames⟩ := State.step_form_failed (htok tok (by simp)) hstep
    · exact ⟨fun _ => hblames, fun h => absurd ⟨hbad, hopen.mayFollow⟩ h⟩
    · exact ⟨fun h => absurd h.1 hgood, fun _ => hblames⟩
  | close =>
    have hnot := not_mayFollow_of_close hbefore hrun
    exact ⟨fun h => absurd h.2 hnot, fun _ => State.step_close_failed hstep⟩

/-- **A failure is reported at the first token that makes the input impossible.** Let a source hold
regular tokens of which no prefix is a form. There is a longest viable prefix of them, and:

* if a token follows it, that token is the one of the error. The error is about a number if the
  token is one that does not convert and a form may follow the prefix, and about structure
  otherwise; everything after the token is still in the source;
* if it is all the tokens, of which there is at least one, and the source ends, the end is reported
  as one that comes too early, and no later reading finds a form or fails;
* if it is all the tokens and the source fails, that failure is passed on, and no later reading
  finds a form or fails. -/
theorem form_reports_first_impossible {toks : List Token} (hreg : ∀ tok ∈ toks, tok.Regular)
    (hnone : ∀ k ≤ toks.length, ¬IsForm (toks.take k)) (rest : TokenSource) (t : SymbolTable) :
    ∃ k ≤ toks.length, Viable (toks.take k) ∧
      (∀ j ≤ toks.length, Viable (toks.take j) → j ≤ k) ∧
      (∀ tok, toks[k]? = some tok → ∃ e t',
        (Reader.mk (.ofSource (toks.map .ok ++ rest)) t).form =
          (.error e, ⟨.ofSource ((toks.drop (k + 1)).map .ok ++ rest), t'⟩) ∧
        (tok.Unconvertible ∧ MayFollow (toks.take k) → Blames e tok .numeric) ∧
        (¬(tok.Unconvertible ∧ MayFollow (toks.take k)) → Blames e tok .structural)) ∧
      (k = toks.length → ∀ r, r = Reader.mk (.ofSource (toks.map .ok ++ rest)) t →
        (∀ tok, Ends rest tok → toks ≠ [] → ∃ e, r.form.1 = .error e ∧
          Blames e tok .unexpectedEnd ∧ ∀ n, (r.form.2.afterForms n).form.1 = .ok none) ∧
        (∀ e later, rest = .error e :: later → r.form.1 = .error e ∧
          ∀ n, (r.form.2.afterForms n).form.1 = .ok none)) := by
  have hform := resume_ofSource (regular_not_end hreg) (.form []) t rest
  rcases hrun : State.run toks (.form []) t with ⟨p, t', left⟩
  rw [hrun] at hform
  obtain ⟨used, htoks, hfits⟩ := State.run_fits hreg (reached_start t) hrun
  cases p with
  | done v =>
    have hform' : IsForm (toks.take used.length) := by
      rw [htoks, List.take_left]
      exact ⟨t, v, t', hfits⟩
    exact absurd hform' (hnone used.length (by simp [htoks]))
  | more st =>
    obtain rfl := State.run_more hrun
    rw [List.append_nil] at htoks
    subst htoks
    have hst : Reached st toks t t' := hfits
    refine ⟨toks.length, Nat.le_refl _, ?_, fun j hj _ => hj, ?_, ?_⟩
    · rw [List.take_length]
      exact hst.viable
    · intro tok htok
      simp at htok
    · rintro - r rfl
      rw [form, hform]
      constructor
      · intro tok hends hne
        obtain ⟨e, he, hblames, hspent⟩ := resume_of_ends hends hst hne
        exact ⟨e, he, hblames, fun n => (hspent.afterForms n).form.1⟩
      · rintro e later rfl
        obtain ⟨he, hspent⟩ := resume_of_error st t' e later
        exact ⟨he, fun n => (hspent.afterForms n).form.1⟩
  | failed e =>
    obtain ⟨before, tok, st, t₁, rfl, hbefore, hstep⟩ := State.run_failed hrun
    have hsplit : before ++ tok :: left = (before ++ [tok]) ++ left := by simp
    have hregtok := (List.forall_mem_append.mp (hsplit ▸ hreg)).1
    have hregbefore := (List.forall_mem_append.mp hregtok).1
    obtain ⟨used', hused, hst⟩ := State.run_fits hregbefore (reached_start t) hbefore
    rw [List.append_nil] at hused
    subst hused
    refine ⟨before.length, by simp, ?_, ?_, ?_, ?_⟩
    · rw [List.take_left]
      exact Reached.viable hst
    · intro j hj hviable
      refine Nat.le_of_not_lt fun hlt => not_viable_of_failed hregtok hbefore hstep ?_
      have hlen : (before ++ [tok]).length ≤ j := by
        rw [List.length_append]
        exact hlt
      rw [hsplit, List.take_append, List.take_of_length_le hlen] at hviable
      exact hviable.of_append
    · intro tok' htok'
      obtain rfl : tok = tok' := by simpa using htok'
      refine ⟨e, t', ?_, ?_⟩
      · rw [form, hform]
        simp [outcome]
      · rw [List.take_left]
        exact blames_of_step_failed hregtok hst hbefore hstep
    · intro hlen
      simp at hlen

/-- A token of base 16 that is no number. -/
def brokenHex : Token := { kind := .integer .hexadecimal, text := "xyz" }

/-- In `(a . -7 0xxyz` the last token is out of place before it is no number, and the failure of the
source after it is not reached. -/
theorem form_reports_brokenHex :
    (∀ tok ∈ dottedPair.take 4 ++ [brokenHex], tok.Regular) ∧
    (∀ k ≤ 5, ¬IsForm ((dottedPair.take 4 ++ [brokenHex]).take k)) ∧
    ∃ e t', (Reader.mk (.ofSource ((dottedPair.take 4 ++ [brokenHex]).map .ok ++
        [.error (.system "lost")])) ∅).form =
      (.error e, ⟨.ofSource [.error (.system "lost")], t'⟩) ∧ Blames e brokenHex .structural := by
  have hreg : ∀ tok ∈ dottedPair.take 4 ++ [brokenHex], tok.Regular := by decide
  have hbefore : (State.form []).run (dottedPair.take 4) ∅ =
    (.more (.close [.symbol ⟨"a", 0⟩] (.int (-7)) []), SymbolTable.insert ∅ "a", []) := rfl
  have hstep : (State.close [.symbol ⟨"a", 0⟩] (.int (-7)) []).step brokenHex
    (SymbolTable.insert ∅ "a") = (.failed (.read (.extraAfterDottedTail brokenHex)), _) := rfl
  have hrun : (State.form []).run (dottedPair.take 4 ++ [brokenHex]) ∅ =
    (.failed (.read (.extraAfterDottedTail brokenHex)), _, []) := rfl
  have hnone (k : Nat) := not_isForm_take hreg hrun (by simp) k
  refine ⟨hreg, fun k _ => hnone k, ?_⟩
  obtain ⟨k, hk, hviable, hlongest, htok, -⟩ :=
    form_reports_first_impossible hreg (fun k _ => hnone k) [.error (.system "lost")] ∅
  have hclosed : Viable (dottedPair.take 4) := by
    refine ⟨dottedPair.drop 4, ?_⟩
    rw [List.take_append_drop]
    exact ⟨∅, _, _, dottedPair_expr⟩
  have hge : 4 ≤ k := hlongest 4 (by decide) hclosed
  have hne : k ≠ 5 := by
    rintro rfl
    exact not_viable_of_failed hreg hbefore hstep hviable
  obtain rfl : k = 4 := by
    have : k ≤ 5 := hk
    omega
  obtain ⟨e, t', hform, -, hblames⟩ := htok brokenHex rfl
  have hnot : ¬MayFollow (dottedPair.take 4) := not_mayFollow_of_close (by decide) hbefore
  exact ⟨e, t', hform, hblames fun h => hnot h.2⟩

end Reader

end LispCore
