import LispCore.Proofs.Reader.Grammar

/-!
The reader's steps over a list of tokens.

`State.run` takes the steps of the reader over tokens that are all there, without a stream, and says
which of them it left alone. `resume_ofSource` ties it to reading from a stream: what stands in the
source after the tokens is looked at only if the tokens do not complete a form.

* `Expr.run_form` — the tokens of a form, read anywhere, hand the value that they denote to the form
  around them and touch nothing that follows.
* `Exprs.run_form` — the tokens of a sequence add its values to the innermost brackets.
-/

namespace LispCore.Reader

/-! ### Steps over a list of tokens -/

/-- Takes steps over tokens until one of them completes or refuses a form. The tokens after that one
are left over. -/
def State.run : List Token → State → SymbolTable → Progress × SymbolTable × List Token
  | [], st, t => (.more st, t, [])
  | tok :: toks, st, t =>
    match st.step tok t with
    | (.more st, t) => State.run toks st t
    | (p, t) => (p, t, toks)

/-- Goes on over tokens from what a step led to. -/
def proceed (toks : List Token) : Progress × SymbolTable → Progress × SymbolTable × List Token
  | (.more st, t) => st.run toks t
  | (p, t) => (p, t, toks)

@[simp] theorem proceed_more (toks : List Token) (st : State) (t : SymbolTable) :
    proceed toks (.more st, t) = st.run toks t := rfl

@[simp] theorem proceed_done (toks : List Token) (v : Value) (t : SymbolTable) :
    proceed toks (.done v, t) = (.done v, t, toks) := rfl

theorem State.run_cons (st : State) (t : SymbolTable) (tok : Token) (toks : List Token) :
    st.run (tok :: toks) t = proceed toks (st.step tok t) := by
  rw [State.run]
  rcases st.step tok t with ⟨_ | _ | _, _⟩ <;> rfl

/-- What reading gives once the steps over the tokens are taken; `rest` is what the source holds
after the tokens. -/
def outcome (rest : TokenSource) :
    Progress × SymbolTable × List Token → Except Failure (Option Value) × Reader
  | (.more st, t, _) => Reader.resume st ⟨.ofSource rest, t⟩
  | (.done v, t, left) => (.ok (some v), ⟨.ofSource (left.map .ok ++ rest), t⟩)
  | (.failed e, t, left) => (.error e, ⟨.ofSource (left.map .ok ++ rest), t⟩)

/-- A token other than the end is taken off its source and nothing else changes. -/
theorem next_ofSource {tok : Token} (htok : tok.kind ≠ .endOfInput) (rest : TokenSource) :
    (TokenStream.ofSource (.ok tok :: rest)).next = (.ok tok, .ofSource rest) := by
  simp [TokenStream.ofSource, TokenStream.next, TokenStream.pull, TokenStream.pulled, htok]

/-- **Reading takes the reader's steps, one a token.** What the source holds after the tokens is
reached only if all of them were taken and a form is still open. -/
theorem resume_ofSource {toks : List Token} (hend : ∀ tok ∈ toks, tok.kind ≠ .endOfInput)
    (st : State) (t : SymbolTable) (rest : TokenSource) :
    Reader.resume st ⟨.ofSource (toks.map .ok ++ rest), t⟩ = outcome rest (st.run toks t) := by
  induction toks generalizing st t with
  | nil => rfl
  | cons tok toks ih =>
    obtain ⟨htok, htoks⟩ := List.forall_mem_cons.mp hend
    rw [Reader.resume, State.run_cons, List.map_cons, List.cons_append]
    have hnext := next_ofSource htok (toks.map .ok ++ rest)
    split
    · next heq => rw [hnext] at heq; cases heq
    · next heq =>
      rw [hnext] at heq
      cases heq
      rw [dif_neg htok]
      split
      · next hstep => rw [hstep]; exact ih htoks _ _
      · next hstep => rw [hstep]; rfl
      · next hstep => rw [hstep]; rfl

/-! ### Steps over the tokens of a form -/

/-- Where a form may start, a token that starts one is read so in any brackets. -/
theorem State.step_form {tok : Token} (htok : tok.kind.startsForm = true) (stack : List Frame)
    (t : SymbolTable) : (State.form stack).step tok t = start tok stack t := by
  have hclosing (b : Bracket) : tok.kind ≠ .closing b := by
    intro h
    simp [h, TokenKind.startsForm] at htok
  have hdot : tok.kind ≠ .dot := by
    intro h
    simp [h, TokenKind.startsForm] at htok
  rcases stack with _ | ⟨f, stack⟩
  · rfl
  · cases f <;> simp [State.step, hclosing, hdot]

/-- The brackets that an opening bracket starts, with nothing in them yet. -/
def Frame.opened : Bracket → Frame
  | .round => .list []
  | .square => .array []
  | .curly => .hash []

theorem State.step_opening {tok : Token} {b : Bracket} (hk : tok.kind = .opening b)
    (stack : List Frame) (t : SymbolTable) :
    (State.form stack).step tok t = (.more (.form (.opened b :: stack)), t) := by
  rw [State.step_form (by simp [hk, TokenKind.startsForm])]
  cases b <;> simp [start, hk, Frame.opened]

theorem State.run_opening {op : Token} {b : Bracket} (hk : op.kind = .opening b)
    (toks : List Token) (stack : List Frame) (t : SymbolTable) :
    (State.form stack).run (op :: toks) t = (State.form (.opened b :: stack)).run toks t := by
  rw [State.run_cons, State.step_opening hk, proceed_more]

theorem State.step_marker {tok : Token} {m : Marker} (hk : tok.kind = .marker m)
    (stack : List Frame) (t : SymbolTable) :
    (State.form stack).step tok t = (.more (.form (.marked m :: stack)), t) := by
  rw [State.step_form (by simp [hk, TokenKind.startsForm])]
  simp [start, hk]

/-- An atomic token hands its value on. -/
theorem Atomic.step_eq {tok : Token} {t t' : SymbolTable} {v : Value} (h : Atomic tok t v t')
    (hreg : tok.Regular) (stack : List Frame) :
    (State.form stack).step tok t = complete v stack t' := by
  have hstart : tok.kind.startsForm = true := by cases h <;> simp [TokenKind.startsForm, *]
  rw [State.step_form hstart]
  cases h with
  | symbol hk => simp [start, hk]
  | bool hk => simp [start, hk]
  | integer hk hspell hmin hmax =>
    have hread := (Token.readInteger_eq_ok_iff hreg hk).mpr ⟨hspell, hmin, hmax⟩
    simp [start, hk, hread, completeWith, Except.map]
  | float hk hread => simp [start, hk, hread, completeWith, Except.map]
  | string hk => simp [start, hk]
  | char hk htext => simp [start, hk, htext]

/-- Brackets that collect the forms inside them, a complete form becoming the last of them. -/
def Collects (f : List Value → Frame) : Prop :=
  ∀ v elements stack t,
    complete v (f elements :: stack) t = (.more (.form (f (v :: elements) :: stack)), t)

mutual

/-- **The tokens of a form are read as its value wherever a form may start.** The value is handed
to the form around it, and what follows is not looked at before. -/
theorem Expr.run_form {toks : List Token} {t t' : SymbolTable} {v : Value} (h : Expr toks t v t')
    (hreg : ∀ tok ∈ toks, tok.Regular) (stack : List Frame) (rest : List Token) :
    (State.form stack).run (toks ++ rest) t = proceed rest (complete v stack t') := by
  match h with
  | .atomic hv =>
    rw [List.singleton_append, State.run_cons, hv.step_eq (hreg _ (by simp))]
  | .marked hk hx =>
    rw [List.cons_append, State.run_cons, State.step_marker hk, proceed_more,
      hx.run_form (fun tok h => hreg tok (by simp [h])), complete]
  | .list hk hxs hcl =>
    rw [List.cons_append, List.append_assoc, State.run_opening hk, Frame.opened,
      hxs.run_form (fun tok h => hreg tok (by simp [h])) (fun _ _ _ _ => rfl),
      List.singleton_append, State.run_cons]
    simp [State.step, hcl]
  | .dotted hk hxs hne hdot hx hcl =>
    rw [List.cons_append, List.append_assoc, State.run_opening hk, Frame.opened,
      hxs.run_form (fun tok h => hreg tok (by simp [h])) (fun _ _ _ _ => rfl),
      List.cons_append, State.run_cons]
    simp only [State.step, hdot, reduceCtorEq, if_false, List.append_nil, ne_eq,
      List.reverse_eq_nil_iff, hne, not_false_eq_true, and_self, if_true]
    rw [proceed_more, List.append_assoc, hx.run_form (fun tok h => hreg tok (by simp [h])),
      complete, proceed_more, List.singleton_append, State.run_cons]
    simp [State.step, hcl]
  | .array hk hxs hcl =>
    rw [List.cons_append, List.append_assoc, State.run_opening hk, Frame.opened,
      hxs.run_form (fun tok h => hreg tok (by simp [h])) (fun _ _ _ _ => rfl),
      List.singleton_append, State.run_cons]
    simp [State.step, hcl]
  | .hash hk hxs hcl =>
    rw [List.cons_append, List.append_assoc, State.run_opening hk, Frame.opened,
      hxs.run_form (fun tok h => hreg tok (by simp [h])) (fun _ _ _ _ => rfl),
      List.singleton_append, State.run_cons]
    simp [State.step, hcl]

/-- The tokens of a sequence of forms add its values to those that the brackets around it hold. -/
theorem Exprs.run_form {toks : List Token} {t t' : SymbolTable} {vs : List Value}
    (h : Exprs toks t vs t') (hreg : ∀ tok ∈ toks, tok.Regular) {f : List Value → Frame}
    (hf : Collects f) {elements : List Value} {stack : List Frame} {rest : List Token} :
    (State.form (f elements :: stack)).run (toks ++ rest) t =
      (State.form (f (vs.reverse ++ elements) :: stack)).run rest t' := by
  match h with
  | .nil => rfl
  | .cons hx hxs =>
    rw [List.append_assoc, hx.run_form (fun tok h => hreg tok (by simp [h])), hf, proceed_more,
      hxs.run_form (fun tok h => hreg tok (by simp [h])) hf]
    simp

end

end LispCore.Reader
