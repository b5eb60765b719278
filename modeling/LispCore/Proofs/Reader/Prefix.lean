import LispCore.Proofs.Reader.Run

/-!
What the reader has read when it waits for more.

`Reached st toks t₀ t` says which tokens lead to a state: the stack of the state holds one frame for
each form that these tokens have opened and not completed, and every value in a frame is one that
the grammar gives to the tokens it was read from.

* `State.run_fits` — from a state that tokens lead to, more tokens lead to a state again, or
  complete one form of the grammar, or are refused. With `Expr.run_form` this makes the reader and
  the grammar agree.
* `Reached.viable` — tokens that lead to a state can be completed to a form, so every state that is
  reached is one from which reading can still succeed.
-/

namespace LispCore.Reader

/-! ### Tokens that lead to a state -/

/-- `Open stack toks t₀ t`: the tokens open the forms of a stack, and a form may follow them. -/
inductive Open : List Frame → List Token → SymbolTable → SymbolTable → Prop where
  | nil {t} : Open [] [] t t
  | list {stack before op toks elements t₀ t₁ t} : Open stack before t₀ t₁ →
      op.kind = .opening .round → Exprs toks t₁ elements.reverse t →
      Open (.list elements :: stack) (before ++ op :: toks) t₀ t
  | dotted {stack before op toks dot elements t₀ t₁ t} : Open stack before t₀ t₁ →
      op.kind = .opening .round → Exprs toks t₁ elements.reverse t → elements ≠ [] →
      dot.kind = .dot → Open (.dotted elements :: stack) (before ++ op :: (toks ++ [dot])) t₀ t
  | array {stack before op toks items t₀ t₁ t} : Open stack before t₀ t₁ →
      op.kind = .opening .square → Exprs toks t₁ items.reverse t →
      Open (.array items :: stack) (before ++ op :: toks) t₀ t
  | hash {stack before op toks items t₀ t₁ t} : Open stack before t₀ t₁ →
      op.kind = .opening .curly → Exprs toks t₁ items.reverse t →
      Open (.hash items :: stack) (before ++ op :: toks) t₀ t
  | marked {stack before tok m t₀ t} : Open stack before t₀ t → tok.kind = .marker m →
      Open (.marked m :: stack) (before ++ [tok]) t₀ t

/-- `Reached st toks t₀ t`: the tokens, read from the start of a form, lead to a state. -/
inductive Reached : State → List Token → SymbolTable → SymbolTable → Prop where
  | form {stack toks t₀ t} : Open stack toks t₀ t → Reached (.form stack) toks t₀ t
  | close {stack before op toks dot last elements tail t₀ t₁ t₂ t} : Open stack before t₀ t₁ →
      op.kind = .opening .round → Exprs toks t₁ elements.reverse t₂ → elements ≠ [] →
      dot.kind = .dot → Expr last t₂ tail t →
      Reached (.close elements tail stack) (before ++ op :: (toks ++ dot :: last)) t₀ t

/-- What tokens lead to agrees with the grammar: a state that they lead to, or the value of the form
that they are. -/
def Fits (toks : List Token) (t₀ : SymbolTable) : Progress × SymbolTable → Prop
  | (.more st, t) => Reached st toks t₀ t
  | (.done v, t) => Expr toks t₀ v t
  | (.failed _, _) => True

/-- The value of a form, handed to the forms around it, leads on as the grammar says. -/
theorem complete_fits {stack : List Frame} {before : List Token} {t₀ t₁ : SymbolTable}
    (hopen : Open stack before t₀ t₁) {toks : List Token} {v : Value} {t : SymbolTable}
    (hx : Expr toks t₁ v t) : Fits (before ++ toks) t₀ (complete v stack t) := by
  induction hopen generalizing toks v t with
  | nil => exact hx
  | list ho hk hxs =>
    rw [List.append_assoc, List.cons_append]
    exact .form (.list ho hk (by simpa using hxs.snoc hx))
  | dotted ho hk hxs hne hdot =>
    rw [List.append_assoc, List.cons_append, List.append_assoc, List.singleton_append]
    exact .close ho hk hxs hne hdot hx
  | array ho hk hxs =>
    rw [List.append_assoc, List.cons_append]
    exact .form (.array ho hk (by simpa using hxs.snoc hx))
  | hash ho hk hxs =>
    rw [List.append_assoc, List.cons_append]
    exact .form (.hash ho hk (by simpa using hxs.snoc hx))
  | marked ho hk ih =>
    rw [List.append_assoc, List.singleton_append, complete]
    exact ih (.marked hk hx)

/-- A token where a form may start: it opens a form, is one, or is refused. -/
theorem start_fits {stack : List Frame} {before : List Token} {t₀ t : SymbolTable}
    (hopen : Open stack before t₀ t) {tok : Token} (hreg : tok.Regular) :
    Fits (before ++ [tok]) t₀ (start tok stack t) := by
  unfold start
  split
  · next hk => exact .form (.list hopen hk .nil)
  · next hk => exact .form (.array hopen hk .nil)
  · next hk => exact .form (.hash hopen hk .nil)
  · next hk => exact .form (.marked hopen hk)
  · next hk => exact complete_fits hopen (.atomic (.symbol hk))
  · next hk => exact complete_fits hopen (.atomic (.bool hk))
  · next r hk =>
    cases hread : tok.readInteger r with
    | error e => trivial
    | ok n =>
      obtain ⟨hspell, hmin, hmax⟩ := (Token.readInteger_eq_ok_iff hreg hk).mp hread
      exact complete_fits hopen (.atomic (.integer hk hspell hmin hmax))
  · next hk =>
    cases hread : tok.readFloat with
    | error e => trivial
    | ok x => exact complete_fits hopen (.atomic (.float hk hread))
  · next hk => exact complete_fits hopen (.atomic (.string hk))
  · next hk =>
    split
    · next htext => exact complete_fits hopen (.atomic (.char hk htext))
    · trivial
  all_goals trivial

/-- **One step keeps to the grammar.** From a state that tokens lead to, a token leads to a state
again, completes a form, or is refused. -/
theorem State.step_fits {st : State} {before : List Token} {t₀ t : SymbolTable}
    (hst : Reached st before t₀ t) {tok : Token} (hreg : tok.Regular) :
    Fits (before ++ [tok]) t₀ (st.step tok t) := by
  cases hst with
  | close ho hk hxs hne hdot hx =>
    rw [State.step]
    split
    · next hcl =>
      have hlist := Expr.dotted hk hxs (by simpa using hne) hdot hx hcl
      simpa using complete_fits ho hlist
    · trivial
  | form hopen =>
    have hstart := start_fits hopen hreg
    cases hopen with
    | nil => exact hstart
    | list ho hk hxs =>
      rw [State.step]
      split
      · next hcl => simpa using complete_fits ho (.list hk hxs hcl)
      · split
        · next hdot => simpa [Fits] using Reached.form (.dotted ho hk hxs hdot.2 hdot.1)
        · exact hstart
    | dotted => exact hstart
    | array ho hk hxs =>
      rw [State.step]
      split
      · next hcl => simpa using complete_fits ho (.array hk hxs hcl)
      · exact hstart
    | hash ho hk hxs =>
      rw [State.step]
      split
      · next hcl => simpa using complete_fits ho (.hash hk hxs hcl)
      · exact hstart
    | marked => exact hstart

/-- **Steps over tokens keep to the grammar.** They use up the tokens before those that are left
over, all of them if a form is still open. -/
theorem State.run_fits {toks : List Token} (hreg : ∀ tok ∈ toks, tok.Regular) {st : State}
    {before : List Token} {t₀ t : SymbolTable} (hst : Reached st before t₀ t)
    {p : Progress} {t' : SymbolTable} {left : List Token} (hrun : st.run toks t = (p, t', left)) :
    ∃ used, toks = used ++ left ∧ Fits (before ++ used) t₀ (p, t') := by
  induction toks generalizing st before t with
  | nil =>
    cases hrun
    exact ⟨[], rfl, by simpa [Fits] using hst⟩
  | cons tok toks ih =>
    obtain ⟨htok, htoks⟩ := List.forall_mem_cons.mp hreg
    have hfits := State.step_fits hst htok
    rw [State.run] at hrun
    split at hrun
    · next st' t₁ hstep =>
      rw [hstep] at hfits
      obtain ⟨used, rfl, h⟩ := ih htoks hfits hrun
      exact ⟨tok :: used, rfl, by simpa using h⟩
    · next hstep =>
      cases hrun
      exact ⟨[tok], rfl, by rwa [hstep] at hfits⟩

/-! ### Completing a prefix -/

/-- Tokens are a form, whatever names are known before. -/
def IsForm (toks : List Token) : Prop := ∃ t v t', Expr toks t v t'

/-- Tokens are viable if they are a form or can be continued to one. -/
def Viable (toks : List Token) : Prop := ∃ rest, IsForm (toks ++ rest)

/-- A form may follow tokens if some form can, such that the tokens and it are viable. -/
def MayFollow (toks : List Token) : Prop := ∃ more, IsForm more ∧ Viable (toks ++ more)

theorem Viable.of_append {xs ys : List Token} (h : Viable (xs ++ ys)) : Viable xs := by
  obtain ⟨rest, h⟩ := h
  exact ⟨ys ++ rest, by simpa using h⟩

/-- The bracket that closes a pair, wherever it stands. -/
def closer (b : Bracket) : Token := { kind := .closing b, text := "" }

/-- A truth value, which is a form by itself in any place. -/
def filler : Token := { kind := .bool, text := "true" }

theorem closer_kind (b : Bracket) : (closer b).kind = .closing b := rfl

theorem Expr.filler (t : SymbolTable) : Expr [filler] t (.bool true) t := .atomic (.bool rfl)

/-- **Every open form can be completed.** With one more form in the innermost brackets, the open
ones are closed from the inside out. -/
theorem Open.viable_append {stack : List Frame} {before : List Token} {t₀ t : SymbolTable}
    (hopen : Open stack before t₀ t) {toks : List Token} {v : Value} {t' : SymbolTable}
    (hx : Expr toks t v t') : Viable (before ++ toks) := by
  induction hopen generalizing toks v t' with
  | nil => exact ⟨[], _, v, t', by simpa using hx⟩
  | list ho hk hxs ih =>
    obtain ⟨rest, h⟩ := ih (.list hk (hxs.snoc hx) (closer_kind .round))
    exact ⟨closer .round :: rest, by simpa using h⟩
  | dotted ho hk hxs hne hdot ih =>
    obtain ⟨rest, h⟩ := ih (.dotted hk hxs (by simpa using hne) hdot hx (closer_kind .round))
    exact ⟨closer .round :: rest, by simpa using h⟩
  | array ho hk hxs ih =>
    obtain ⟨rest, h⟩ := ih (.array hk (hxs.snoc hx) (closer_kind .square))
    exact ⟨closer .square :: rest, by simpa using h⟩
  | hash ho hk hxs ih =>
    obtain ⟨rest, h⟩ := ih (.hash hk (hxs.snoc hx) (closer_kind .curly))
    exact ⟨closer .curly :: rest, by simpa using h⟩
  | marked ho hk ih =>
    obtain ⟨rest, h⟩ := ih (.marked hk hx)
    exact ⟨rest, by simpa using h⟩

/-- Where the reader waits for a form, a form may follow. -/
theorem Open.mayFollow {stack : List Frame} {before : List Token} {t₀ t : SymbolTable}
    (hopen : Open stack before t₀ t) : MayFollow before :=
  ⟨[filler], ⟨t, _, t, .filler t⟩, hopen.viable_append (.filler t)⟩

/-- **Reading never goes on in vain.** Tokens that lead to a state can be continued to a form. -/
theorem Reached.viable {st : State} {toks : List Token} {t₀ t : SymbolTable}
    (hst : Reached st toks t₀ t) : Viable toks := by
  cases hst with
  | form hopen =>
    obtain ⟨more, -, h⟩ := hopen.mayFollow
    exact h.of_append
  | close ho hk hxs hne hdot hx =>
    obtain ⟨rest, h⟩ :=
      ho.viable_append (.dotted hk hxs (by simpa using hne) hdot hx (closer_kind .round))
    exact ⟨closer .round :: rest, by simpa using h⟩

/-! ### Forms of regular tokens

The tokens that complete a prefix may be any, also decimal integers with more digits than are
converted. Such a token is a form by itself, so another one can stand in for it. -/

/-- A token, or one that stands in for it if it has too many digits. -/
def regularized (tok : Token) : Token := if tok.Regular then tok else filler

theorem regularized_regular (tok : Token) : (regularized tok).Regular := by
  unfold regularized
  split
  · assumption
  · decide

theorem regularized_of_regular {tok : Token} (h : tok.Regular) : regularized tok = tok := if_pos h

theorem map_regularized {toks : List Token} (hreg : ∀ tok ∈ toks, tok.Regular) :
    toks.map regularized = toks :=
  (List.map_congr_left fun tok h => regularized_of_regular (hreg tok h)).trans toks.map_id'

/-- Only the end and decimal integers are ever replaced. -/
theorem regularized_kind {tok : Token} {k : TokenKind} (h : tok.kind = k) (hend : k ≠ .endOfInput)
    (hdecimal : k ≠ .integer .decimal) : (regularized tok).kind = k := by
  rw [regularized_of_regular ⟨h ▸ hend, fun h' => absurd (h ▸ h') hdecimal⟩, h]

theorem regularized_startsForm {tok : Token} (h : tok.kind.startsForm = true) :
    (regularized tok).kind.startsForm = true := by
  unfold regularized
  split
  · exact h
  · rfl

theorem Atomic.regularized {tok : Token} {t t' : SymbolTable} {v : Value} (h : Atomic tok t v t')
    (s : SymbolTable) : ∃ w s', Atomic (regularized tok) s w s' := by
  unfold Reader.regularized
  split
  · cases h with
    | symbol hk => exact ⟨_, _, .symbol hk⟩
    | bool hk => exact ⟨_, _, .bool hk⟩
    | integer hk hspell hmin hmax => exact ⟨_, _, .integer hk hspell hmin hmax⟩
    | float hk hread => exact ⟨_, _, .float hk hread⟩
    | string hk => exact ⟨_, _, .string hk⟩
    | char hk htext => exact ⟨_, _, .char hk htext⟩
  · exact ⟨_, _, .bool rfl⟩

mutual

/-- **A form stays one in any environment**, also with other tokens for those that have too many
digits. Its value may be another. -/
theorem Expr.regularized {toks : List Token} {t t' : SymbolTable} {v : Value}
    (h : Expr toks t v t') (s : SymbolTable) : ∃ w s', Expr (toks.map regularized) s w s' := by
  match h with
  | .atomic ha =>
    obtain ⟨w, s', hw⟩ := ha.regularized s
    exact ⟨w, s', .atomic hw⟩
  | .marked hk hx =>
    obtain ⟨w, s', hw⟩ := hx.regularized s
    exact ⟨_, _, .marked (regularized_kind hk (by simp) (by simp)) hw⟩
  | .list hk hxs hcl =>
    obtain ⟨ws, s', hws, -⟩ := hxs.regularized s
    have hw := Expr.list (regularized_kind hk (by simp) (by simp)) hws
      (regularized_kind hcl (by simp) (by simp))
    exact ⟨_, _, by simpa using hw⟩
  | .dotted hk hxs hne hdot hx hcl =>
    obtain ⟨ws, s₁, hws, hlen⟩ := hxs.regularized s
    obtain ⟨w, s', hw⟩ := hx.regularized s₁
    have hne' : ws ≠ [] := fun h => hne (List.length_eq_zero_iff.mp (by rw [← hlen, h]; rfl))
    have hw' := Expr.dotted (regularized_kind hk (by simp) (by simp)) hws hne'
      (regularized_kind hdot (by simp) (by simp)) hw (regularized_kind hcl (by simp) (by simp))
    exact ⟨_, _, by simpa using hw'⟩
  | .array hk hxs hcl =>
    obtain ⟨ws, s', hws, -⟩ := hxs.regularized s
    have hw := Expr.array (regularized_kind hk (by simp) (by simp)) hws
      (regularized_kind hcl (by simp) (by simp))
    exact ⟨_, _, by simpa using hw⟩
  | .hash hk hxs hcl =>
    obtain ⟨ws, s', hws, -⟩ := hxs.regularized s
    have hw := Expr.hash (regularized_kind hk (by simp) (by simp)) hws
      (regularized_kind hcl (by simp) (by simp))
    exact ⟨_, _, by simpa using hw⟩

/-- A sequence of forms stays one of as many forms. -/
theorem Exprs.regularized {toks : List Token} {t t' : SymbolTable} {vs : List Value}
    (h : Exprs toks t vs t') (s : SymbolTable) :
    ∃ ws s', Exprs (toks.map regularized) s ws s' ∧ ws.length = vs.length := by
  match h with
  | .nil => exact ⟨[], s, .nil, rfl⟩
  | .cons hx hxs =>
    obtain ⟨w, s₁, hw⟩ := hx.regularized s
    obtain ⟨ws, s', hws, hlen⟩ := hxs.regularized s₁
    exact ⟨w :: ws, s', by simpa using Exprs.cons hw hws, by simp [hlen]⟩

end

theorem regular_append_regularized {toks : List Token} (hreg : ∀ tok ∈ toks, tok.Regular)
    (rest : List Token) : ∀ tok ∈ toks ++ rest.map regularized, tok.Regular := by
  intro tok htok
  rcases List.mem_append.mp htok with htok | htok
  · exact hreg tok htok
  · obtain ⟨tok', -, rfl⟩ := List.mem_map.mp htok
    exact regularized_regular tok'

/-- Regular tokens that some tokens complete to a form are completed by regular ones, in every
environment. -/
theorem IsForm.exists_expr {toks rest : List Token} (h : IsForm (toks ++ rest))
    (hreg : ∀ tok ∈ toks, tok.Regular) (t : SymbolTable) :
    ∃ v t', Expr (toks ++ rest.map regularized) t v t' := by
  obtain ⟨s, w, s', hx⟩ := h
  have hx' := hx.regularized t
  rwa [List.map_append, map_regularized hreg] at hx'

end LispCore.Reader
