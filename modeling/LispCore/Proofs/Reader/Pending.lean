import LispCore.Proofs.Reader.Program

/-!
Programs that are not refused yet.

`FormsThen P toks t` says that tokens are forms and then tokens of which `P` is true. Scanning
refuses none of the tokens exactly if they are forms and then the start of one more
(`State.scan_ok_iff`); a form may be started after them exactly if one may follow that start
(`State.scan_form_iff`).
-/

namespace LispCore.Reader

/-- Regular tokens are forms, read where the names of a table are known, and then tokens of which
`P` is true. -/
def FormsThen (P : List Token → Prop) (toks : List Token) (t : SymbolTable) : Prop :=
  (∀ tok ∈ toks, tok.Regular) ∧
    ∃ xs ys vs t', toks = xs ++ ys ∧ Exprs xs t vs t' ∧ P ys

theorem MayFollow.viable {toks : List Token} (h : MayFollow toks) : Viable toks := by
  obtain ⟨more, -, h⟩ := h
  exact h.of_append

/-! ### Scanning forms -/

/-- **The tokens of forms are scanned as these forms**, and what follows as if nothing was before
it. -/
theorem Exprs.scan_append {toks : List Token} {t t' : SymbolTable} {vs : List Value}
    (h : Exprs toks t vs t') (hreg : ∀ tok ∈ toks, tok.Regular) (rest : List Token) :
    (State.form []).scan (toks ++ rest) t = ((State.form []).scan rest t').after vs := by
  induction vs generalizing toks t with
  | nil =>
    cases h
    rfl
  | cons v vs ih =>
    cases h with
    | cons hx hxs =>
      obtain ⟨hregx, hregxs⟩ := List.forall_mem_append.mp hreg
      rw [List.append_assoc, State.scan_eq_run, hx.run_form hregx [], complete, proceed_done]
      dsimp only
      rw [ih hxs hregxs, Scan.after_after]
      rfl

/-- Steps that complete a form do not look at what follows it. -/
theorem State.run_append_done {xs : List Token} {st : State} {t t' : SymbolTable} {v : Value}
    {left : List Token} (h : st.run xs t = (.done v, t', left)) (ys : List Token) :
    st.run (xs ++ ys) t = (.done v, t', left ++ ys) := by
  induction xs generalizing st t with
  | nil => cases h
  | cons tok xs ih =>
    rw [State.run_cons] at h
    rw [List.cons_append, State.run_cons]
    rcases hstep : st.step tok t with ⟨_ | _ | _, t₁⟩ <;> rw [hstep] at h
    · exact ih h
    · cases h
      rfl
    · cases h

/-- **The start of a form is not refused**, and if a form may follow it one may be started. -/
theorem Viable.scan {toks : List Token} (hreg : ∀ tok ∈ toks, tok.Regular) (h : Viable toks)
    (t : SymbolTable) :
    ∃ st, ((State.form []).scan toks t).stop = .ok st ∧
      (MayFollow toks → ∃ stack, st = .form stack) := by
  rw [State.scan_eq_run]
  rcases hrun : (State.form []).run toks t with ⟨st | v | e, t', left⟩
  · refine ⟨st, rfl, ?_⟩
    intro hmay
    cases st with
    | form stack => exact ⟨stack, rfl⟩
    | close =>
      obtain rfl := State.run_more hrun
      exact absurd hmay (not_mayFollow_of_close hreg hrun)
  · -- A form that is complete is all of the tokens, since no form goes on after that.
    obtain ⟨rest, hform⟩ := h
    obtain ⟨w, t₁, hx⟩ := hform.exists_expr hreg t
    have hall := hx.run_form (regular_append_regularized hreg rest) [] []
    rw [List.append_nil, State.run_append_done hrun] at hall
    have hleft : left = [] := by
      have hnil : left ++ rest.map regularized = [] := congrArg (fun x => x.2.2) hall
      exact (List.append_eq_nil_iff.mp hnil).1
    subst hleft
    exact ⟨.form [], rfl, fun _ => ⟨[], rfl⟩⟩
  · obtain ⟨before, tok, st, t₁, rfl, hbefore, hstep⟩ := State.run_failed hrun
    have hsplit : before ++ tok :: left = (before ++ [tok]) ++ left := by simp
    rw [hsplit] at h hreg
    exact absurd h.of_append
      (not_viable_of_failed (List.forall_mem_append.mp hreg).1 hbefore hstep)

/-! ### What scanning refuses -/

/-- Tokens that are not refused are regular. -/
theorem State.regular_of_scan_ok {toks : List Token} (hend : ∀ tok ∈ toks, tok.kind ≠ .endOfInput)
    {st st' : State} {t : SymbolTable} (h : (st.scan toks t).stop = .ok st') :
    ∀ tok ∈ toks, tok.Regular := by
  induction toks generalizing st t with
  | nil => simp
  | cons tok toks ih =>
    obtain ⟨htok, htoks⟩ := List.forall_mem_cons.mp hend
    rw [State.scan] at h
    refine List.forall_mem_cons.mpr ⟨?_, ?_⟩
    · refine Decidable.byContradiction fun hirregular => ?_
      obtain ⟨e, t', hstep⟩ := st.step_irregular hirregular htok t
      rw [hstep] at h
      cases h
    · split at h
      · exact ih htoks h
      · exact ih htoks h
      · cases h

/-- A refused token comes after tokens that are not refused. -/
theorem State.scan_failed {toks : List Token} {st : State} {t : SymbolTable} {e : Failure}
    (h : (st.scan toks t).stop = .error e) :
    ∃ before tok later st' t', toks = before ++ tok :: later ∧
      (st.scan before t).stop = .ok st' ∧
      st'.step tok (st.scan before t).symbols = (.failed e, t') := by
  induction toks generalizing st t with
  | nil => cases h
  | cons tok toks ih =>
    rw [State.scan] at h
    rcases hstep : st.step tok t with ⟨st₁ | v | e', t₁⟩ <;> rw [hstep] at h
    · obtain ⟨before, tok', later, st', t', rfl, hbefore, hfail⟩ := ih h
      refine ⟨tok :: before, tok', later, st', t', rfl, ?_⟩
      rw [State.scan, hstep]
      exact ⟨hbefore, hfail⟩
    · obtain ⟨before, tok', later, st', t', rfl, hbefore, hfail⟩ := ih h
      refine ⟨tok :: before, tok', later, st', t', rfl, ?_⟩
      rw [State.scan, hstep]
      exact ⟨hbefore, hfail⟩
    · cases h
      exact ⟨[], tok, toks, st, t₁, rfl, rfl, hstep⟩

/-- Tokens that are not refused are forms, and then tokens that lead to a state. -/
theorem State.reached_of_scan_ok {toks : List Token}
    (hend : ∀ tok ∈ toks, tok.kind ≠ .endOfInput) {st : State} {t : SymbolTable}
    (h : ((State.form []).scan toks t).stop = .ok st) :
    ∃ xs ys vs t₁ t', toks = xs ++ ys ∧ Exprs xs t vs t₁ ∧ Reached st ys t₁ t' := by
  have hscanned := State.scan_scanned hend t
  generalize (State.form []).scan toks t = s at h hscanned
  cases hscanned with
  | waiting hxs hst =>
    cases h
    exact ⟨_, _, _, _, _, rfl, hxs, hst⟩
  | refused => cases h

/-- What forms and then the start of one more lead to. -/
theorem FormsThen.scan {P : List Token → Prop} {toks : List Token} {t : SymbolTable}
    (h : FormsThen P toks t) (hviable : ∀ ys, P ys → Viable ys) :
    ∃ st ys, ((State.form []).scan toks t).stop = .ok st ∧ P ys ∧
      (MayFollow ys → ∃ stack, st = .form stack) := by
  obtain ⟨hreg, xs, ys, vs, t', rfl, hxs, hys⟩ := h
  obtain ⟨hregx, hregy⟩ := List.forall_mem_append.mp hreg
  obtain ⟨st, hst, hstack⟩ := (hviable ys hys).scan hregy t'
  rw [hxs.scan_append hregx]
  exact ⟨st, ys, hst, hys, hstack⟩

/-- **No token is refused exactly if the tokens are forms and then the start of one more.** -/
theorem State.scan_ok_iff {toks : List Token} (hend : ∀ tok ∈ toks, tok.kind ≠ .endOfInput)
    (t : SymbolTable) :
    (∃ st, ((State.form []).scan toks t).stop = .ok st) ↔ FormsThen Viable toks t := by
  constructor
  · rintro ⟨st, h⟩
    obtain ⟨xs, ys, vs, t₁, t', htoks, hxs, hst⟩ := State.reached_of_scan_ok hend h
    exact ⟨State.regular_of_scan_ok hend h, xs, ys, vs, t₁, htoks, hxs, hst.viable⟩
  · intro h
    obtain ⟨st, -, hst, -, -⟩ := h.scan fun _ hys => hys
    exact ⟨st, hst⟩

/-- **A form may be started after tokens exactly if one may follow** what they leave open. -/
theorem State.scan_form_iff {toks : List Token} (hend : ∀ tok ∈ toks, tok.kind ≠ .endOfInput)
    (t : SymbolTable) :
    (∃ stack, ((State.form []).scan toks t).stop = .ok (.form stack)) ↔
      FormsThen MayFollow toks t := by
  constructor
  · rintro ⟨stack, h⟩
    obtain ⟨xs, ys, vs, t₁, t', htoks, hxs, hst⟩ := State.reached_of_scan_ok hend h
    cases hst with
    | form hopen =>
      exact ⟨State.regular_of_scan_ok hend h, xs, ys, vs, t₁, htoks, hxs, hopen.mayFollow⟩
  · intro h
    obtain ⟨st, ys, hst, hys, hstack⟩ := h.scan fun _ hys => hys.viable
    obtain ⟨stack, rfl⟩ := hstack hys
    exact ⟨stack, hst⟩

end LispCore.Reader
