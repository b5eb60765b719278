import LispCore.Proofs.Reader.Fault
import LispCore.Proofs.Reader.Placement
import Mathlib.Data.List.Forall2

/-!
Reading does not depend on what literals stand for.

Two states have one outline if the same forms are open in both, whatever values they hold. What a
token leads to depends on no more of a state than that, and for a string or a character not on what
it stands for.

* `State.step_outline`, `State.step_tokens` — states of one outline go on to states of one outline
  over the same token, and over tokens that are alike, or refuse both for the same;
* `State.scan_tokens`, `Scan.finish_tokens` — so they do over all tokens of a program, up to its
  end.
-/

namespace LispCore.Reader

/-! ### Outlines -/

/-- The same forms are open in two stacks. Only for a list it matters whether it holds a value. -/
inductive SameStack : List Frame → List Frame → Prop where
  | nil : SameStack [] []
  | list {vs ws stack stack'} : (vs = [] ↔ ws = []) → SameStack stack stack' →
      SameStack (.list vs :: stack) (.list ws :: stack')
  | dotted {vs ws stack stack'} : SameStack stack stack' →
      SameStack (.dotted vs :: stack) (.dotted ws :: stack')
  | array {vs ws stack stack'} : SameStack stack stack' →
      SameStack (.array vs :: stack) (.array ws :: stack')
  | hash {vs ws stack stack'} : SameStack stack stack' →
      SameStack (.hash vs :: stack) (.hash ws :: stack')
  | marked {m stack stack'} : SameStack stack stack' →
      SameStack (.marked m :: stack) (.marked m :: stack')

/-- Two states wait for the same. -/
inductive SameState : State → State → Prop where
  | form {stack stack'} : SameStack stack stack' → SameState (.form stack) (.form stack')
  | close {vs ws v w stack stack'} : SameStack stack stack' →
      SameState (.close vs v stack) (.close ws w stack')

variable {R : Failure → Failure → Prop} {place : Position → Position → Prop}

/-- Two steps lead to states of one outline, or both to a form, or to failures that are related. -/
inductive SameProgress (R : Failure → Failure → Prop) : Progress → Progress → Prop where
  | more {st st'} : SameState st st' → SameProgress R (.more st) (.more st')
  | done {v w} : SameProgress R (.done v) (.done w)
  | failed {e e'} : R e e' → SameProgress R (.failed e) (.failed e')

/-- Scanning stops in states of one outline, or with failures that are related. -/
inductive SameStop (R : Failure → Failure → Prop) :
    Except Failure State → Except Failure State → Prop where
  | ok {st st'} : SameState st st' → SameStop R (.ok st) (.ok st')
  | error {e e'} : R e e' → SameStop R (.error e) (.error e')

/-! ### One token -/

/-- Which form a value is handed to does not depend on the value. -/
theorem complete_outline {stack stack' : List Frame} (h : SameStack stack stack') (v w : Value)
    (t t' : SymbolTable) : SameProgress R (complete v stack t).1 (complete w stack' t').1 := by
  induction h generalizing v w t t' with
  | nil => exact .done
  | list _ hstack => exact .more (.form (.list (by simp) hstack))
  | dotted hstack => exact .more (.close hstack)
  | array hstack => exact .more (.form (.array hstack))
  | hash hstack => exact .more (.form (.hash hstack))
  | marked _ ih =>
    rw [complete, complete]
    exact ih _ _ _ _

theorem completeWith_outline {stack stack' : List Frame} (h : SameStack stack stack')
    (x : Except Failure Value) (t t' : SymbolTable) :
    SameProgress Eq (completeWith x stack t).1 (completeWith x stack' t').1 := by
  cases x with
  | ok v => exact complete_outline h v v t t'
  | error e => exact .failed rfl

theorem start_outline (tok : Token) {stack stack' : List Frame} (h : SameStack stack stack')
    (t t' : SymbolTable) : SameProgress Eq (start tok stack t).1 (start tok stack' t').1 := by
  have hcomplete (v : Value) (t t' : SymbolTable) :
      SameProgress Eq (complete v stack t).1 (complete v stack' t').1 :=
    complete_outline h v v t t'
  unfold start
  cases tok.kind with
  | opening b =>
    cases b with
    | round => exact .more (.form (.list (by simp) h))
    | square => exact .more (.form (.array h))
    | curly => exact .more (.form (.hash h))
  | closing | dot | endOfInput => exact .failed rfl
  | marker => exact .more (.form (.marked h))
  | symbol => exact complete_outline h _ _ _ _
  | bool | string => exact hcomplete _ t t'
  | integer | float => exact completeWith_outline h _ t t'
  | char =>
    dsimp only
    split
    · exact hcomplete _ t t'
    · exact .failed rfl

/-- **A token leads to the same from states of one outline.** -/
theorem State.step_outline (tok : Token) {st st' : State} (h : SameState st st')
    (t t' : SymbolTable) : SameProgress Eq (st.step tok t).1 (st'.step tok t').1 := by
  cases h with
  | close hstack =>
    rw [State.step, State.step]
    split
    · exact complete_outline hstack _ _ t t'
    · exact .failed rfl
  | form hstack =>
    have hstart := start_outline tok hstack t t'
    cases hstack with
    | nil | dotted | marked => exact hstart
    | list hempty hstack =>
      rw [State.step, State.step]
      split
      · exact complete_outline hstack _ _ t t'
      · simp only [ne_eq, hempty]
        split
        · exact .more (.form (.dotted hstack))
        · exact hstart
    | array hstack =>
      rw [State.step, State.step]
      split
      · exact complete_outline hstack _ _ t t'
      · exact hstart
    | hash hstack =>
      rw [State.step, State.step]
      split
      · exact complete_outline hstack _ _ _ _
      · exact hstart

/-- Where a form may start a literal is one; after a dotted tail it is refused. -/
theorem State.step_literal {tok : Token}
    (h : tok.kind = .string ∨ tok.kind = .char ∧ ∃ c, tok.text.toList = [c]) (st : State)
    (t : SymbolTable) :
    (∃ stack v, st = .form stack ∧ st.step tok t = complete v stack t) ∨
      ∃ vs v stack, st = .close vs v stack ∧
        st.step tok t = (.failed (.read (.extraAfterDottedTail tok)), t) := by
  cases st with
  | form stack =>
    obtain hk | ⟨hk, c, hc⟩ := h
    · refine .inl ⟨stack, .str tok.text, rfl, ?_⟩
      rw [State.step_form (by simp [hk, TokenKind.startsForm]), start, hk]
    · refine .inl ⟨stack, .char c, rfl, ?_⟩
      rw [State.step_form (by simp [hk, TokenKind.startsForm]), start, hk]
      simp only [hc]
  | close vs v stack =>
    refine .inr ⟨vs, v, stack, rfl, ?_⟩
    have hclosing : tok.kind ≠ .closing .round := by
      obtain hk | ⟨hk, -⟩ := h <;> simp [hk]
    rw [State.step, if_neg hclosing]

/-- Two literals lead to the same. -/
theorem State.step_literals {tok tok' : Token}
    (h : tok.kind = .string ∨ tok.kind = .char ∧ ∃ c, tok.text.toList = [c])
    (h' : tok'.kind = .string ∨ tok'.kind = .char ∧ ∃ c, tok'.text.toList = [c])
    (hplace : place tok.start tok'.start) {st st' : State} (hst : SameState st st')
    (t t' : SymbolTable) :
    SameProgress (FailureAlike place) (st.step tok t).1 (st'.step tok' t').1 := by
  obtain ⟨stack, v, rfl, hstep⟩ | ⟨vs, v, stack, rfl, hstep⟩ := st.step_literal h t
  · obtain ⟨stack', w, rfl, hstep'⟩ | ⟨ws, w, stack', rfl, -⟩ := st'.step_literal h' t'
    · rw [hstep, hstep']
      cases hst with
      | form hstack => exact complete_outline hstack v w t t'
    · cases hst
  · obtain ⟨stack', w, rfl, -⟩ | ⟨ws, w, stack', rfl, hstep'⟩ := st'.step_literal h' t'
    · cases hst
    · rw [hstep, hstep']
      exact .failed (.read rfl rfl rfl hplace)

/-- **Tokens that are alike lead to the same** from states of one outline. -/
theorem State.step_tokens {tok tok' : Token} (hend : tok.kind ≠ .endOfInput)
    (h : TokenAlike place tok tok') {st st' : State} (hst : SameState st st') (t t' : SymbolTable) :
    SameProgress (FailureAlike place) (st.step tok t).1 (st'.step tok' t').1 := by
  cases h with
  | string hk hk' hplace => exact State.step_literals (.inl hk) (.inl hk') hplace hst t t'
  | char hk hk' hc hc' hplace =>
    exact State.step_literals (.inr ⟨hk, _, hc⟩) (.inr ⟨hk', _, hc'⟩) hplace hst t t'
  | @same q _ _ hplace =>
    have hsame := State.step_outline tok hst t t'
    have hmoved : st'.step (tok.placed q) t' = movedStep (fun _ => q) (st'.step tok t') :=
      @State.step_moved (fun _ => q) st' tok t'
    rw [hmoved]
    rcases hstep : st.step tok t with ⟨p, u⟩
    rcases hstep' : st'.step tok t' with ⟨p', u'⟩
    rw [hstep, hstep'] at hsame
    cases hsame with
    | more hmore => exact .more hmore
    | done => exact .done
    | failed he =>
      subst he
      refine .failed ?_
      obtain ⟨err, rfl, htok⟩ | ⟨-, rfl, -⟩ := State.step_failed_cases hend hstep
      · exact .moved htok hplace
      · exact .other (by simp)

/-! ### All tokens -/

/-- **Tokens that are alike are scanned alike**, whatever they stand for. -/
theorem State.scan_tokens {toks toks' : List Token} (hend : ∀ tok ∈ toks, tok.kind ≠ .endOfInput)
    (h : List.Forall₂ (TokenAlike place) toks toks') {st st' : State} (hst : SameState st st')
    (t t' : SymbolTable) :
    SameStop (FailureAlike place) (st.scan toks t).stop (st'.scan toks' t').stop := by
  induction h generalizing st st' t t' with
  | nil => exact .ok hst
  | @cons tok tok' toks toks' htok _ ih =>
    obtain ⟨hendTok, hendToks⟩ := List.forall_mem_cons.mp hend
    have hstep := State.step_tokens hendTok htok hst t t'
    rw [State.scan, State.scan]
    generalize st.step tok t = x at hstep ⊢
    generalize st'.step tok' t' = y at hstep ⊢
    obtain ⟨p, u⟩ := x
    obtain ⟨p', u'⟩ := y
    cases hstep with
    | more hmore => exact ih hendToks hmore u u'
    | done => exact ih hendToks (.form .nil) u u'
    | failed he => exact .error he

/-- An end of the input is refused in both of two states of one outline, or in none. -/
theorem SameState.failureAt {st st' : State} (h : SameState st st')
    {last last' : Except Failure Token} (hlast : ItemAlike place last last') :
    Option.Rel (FailureAlike place) (st.failureAt last) (st'.failureAt last') := by
  cases hlast with
  | failure he => exact .some he
  | token htok =>
    cases h with
    | close => exact .some (.read rfl rfl rfl htok.start)
    | form hstack =>
      cases hstack with
      | nil => exact .none
      | list | dotted | array | hash | marked => exact .some (.read rfl rfl rfl htok.start)

/-- **What stops two programs whose tokens are alike is alike.** -/
theorem Scan.finish_tokens {s s' : Scan} (h : SameStop (FailureAlike place) s.stop s'.stop)
    {last last' : Except Failure Token} (hlast : ItemAlike place last last') :
    Option.Rel (FailureAlike place) (s.finish last).failure (s'.finish last').failure := by
  obtain ⟨forms, stop, t⟩ := s
  obtain ⟨forms', stop', t'⟩ := s'
  cases h with
  | ok hst => exact hst.failureAt hlast
  | error he => exact .some he

end LispCore.Reader
