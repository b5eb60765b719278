import LispCore.Proofs.Reader.Prefix

/-!
The reader accepts exactly its grammar.

* `form_of_expr` — the tokens of a form are read as the value that they denote, and what stands in
  the source after them is as it was: not one token of it was pulled.
* `form_ok_cases` — a value that is read is one that the grammar gives to the tokens used up, as far
  as they are known to be regular.
* `form_eq_ok_iff_expr` — both directions at once, with the number of tokens that were used up.
-/

namespace LispCore.Reader

theorem reached_start (t : SymbolTable) : Reached (.form []) [] t t := .form .nil

theorem regular_not_end {toks : List Token} (hreg : ∀ tok ∈ toks, tok.Regular) :
    ∀ tok ∈ toks, tok.kind ≠ .endOfInput := fun tok h => (hreg tok h).not_end

/-- Sources with the same end are equal only if the tokens before it are. -/
theorem ofSource_inj {xs ys : List Token} {rest : TokenSource}
    (h : TokenStream.ofSource (xs.map .ok ++ rest) = .ofSource (ys.map .ok ++ rest)) : xs = ys := by
  have hsource : xs.map .ok ++ rest = ys.map .ok ++ rest := congrArg TokenStream.source h
  exact (List.map_inj_right fun _ _ => Except.ok.inj).mp (List.append_cancel_right hsource)

/-- **The tokens of a form are read as its value**, whatever stands after them, and nothing of that
is pulled. -/
theorem form_of_expr {toks : List Token} (hreg : ∀ tok ∈ toks, tok.Regular) {t t' : SymbolTable}
    {v : Value} (h : Expr toks t v t') (rest : TokenSource) :
    (Reader.mk (.ofSource (toks.map .ok ++ rest)) t).form =
      (.ok (some v), ⟨.ofSource rest, t'⟩) := by
  have hrun := h.run_form hreg [] []
  rw [List.append_nil, complete, proceed_done] at hrun
  rw [form, resume_ofSource (regular_not_end hreg), hrun]
  rfl

/-- **A value that is read is one of the grammar.** Either the tokens used up are known, and they
are a form that denotes it, or reading went on to what stands after the known tokens. -/
theorem form_ok_cases {toks : List Token} (hreg : ∀ tok ∈ toks, tok.Regular) {rest : TokenSource}
    {t : SymbolTable} {v : Value} {r : Reader}
    (h : (Reader.mk (.ofSource (toks.map .ok ++ rest)) t).form = (.ok (some v), r)) :
    (∃ used left, toks = used ++ left ∧ r.stream = .ofSource (left.map .ok ++ rest) ∧
        Expr used t v r.symbols) ∨
      r.stream.size < rest.length := by
  rw [form, resume_ofSource (regular_not_end hreg)] at h
  rcases hrun : State.run toks (.form []) t with ⟨p, t', left⟩
  rw [hrun] at h
  cases p with
  | more st =>
    right
    have hlt := size_resume_lt h
    simpa [TokenStream.ofSource, TokenStream.size] using hlt
  | done w =>
    left
    cases h
    obtain ⟨used, htoks, hfits⟩ := State.run_fits hreg (reached_start t) hrun
    exact ⟨used, left, htoks, rfl, by simpa [Fits] using hfits⟩
  | failed e => cases h

/-- **The reader accepts exactly its grammar.** Let a source hold regular tokens and anything after
them, in any environment.

* Reading gives a value and leaves the source just after the first `k` tokens, nothing further
  pulled, exactly if these tokens are a form that denotes the value.
* A value is read in no other way, unless reading goes on past the tokens that are known.
* What a prefix denotes is never the mark of an exhausted text, and it is read as that with anything
  at all after it, a failing source included.
* No two prefixes are forms, and none denotes two values. -/
theorem form_eq_ok_iff_expr {toks : List Token} (hreg : ∀ tok ∈ toks, tok.Regular)
    (rest : TokenSource) (t : SymbolTable) :
    (∀ k ≤ toks.length, ∀ v t',
      (Reader.mk (.ofSource (toks.map .ok ++ rest)) t).form =
          (.ok (some v), ⟨.ofSource ((toks.drop k).map .ok ++ rest), t'⟩) ↔
        Expr (toks.take k) t v t') ∧
    (∀ v r, (Reader.mk (.ofSource (toks.map .ok ++ rest)) t).form = (.ok (some v), r) →
      (∃ k ≤ toks.length, r.stream = .ofSource ((toks.drop k).map .ok ++ rest)) ∨
        r.stream.size < rest.length) ∧
    (∀ k v t', Expr (toks.take k) t v t' → v ≠ .endMark ∧ ∀ other : TokenSource,
      (Reader.mk (.ofSource ((toks.take k).map .ok ++ other)) t).form =
        (.ok (some v), ⟨.ofSource other, t'⟩)) ∧
    (∀ j ≤ toks.length, ∀ k ≤ toks.length, ∀ v w t₁ t₂, Expr (toks.take j) t v t₁ →
      Expr (toks.take k) t w t₂ → j = k ∧ v = w ∧ t₁ = t₂) := by
  have htake (k : Nat) : ∀ tok ∈ toks.take k, tok.Regular := fun tok h =>
    hreg tok (List.mem_of_mem_take h)
  -- Completeness, with the known tokens after the form as a part of what follows it.
  have hcomplete (k : Nat) (v : Value) (t' : SymbolTable) (h : Expr (toks.take k) t v t') :
      (Reader.mk (.ofSource (toks.map .ok ++ rest)) t).form =
        (.ok (some v), ⟨.ofSource ((toks.drop k).map .ok ++ rest), t'⟩) := by
    have hform := form_of_expr (htake k) h ((toks.drop k).map .ok ++ rest)
    rwa [← List.append_assoc, ← List.map_append, List.take_append_drop] at hform
  refine ⟨?_, ?_, ?_, ?_⟩
  · intro k hk v t'
    refine ⟨?_, hcomplete k v t'⟩
    intro h
    obtain ⟨used, left, htoks, hstream, hx⟩ | hlt := form_ok_cases hreg h
    · have hleft : toks.drop k = left := ofSource_inj hstream
      have hused : toks.take k ++ left = used ++ left := by
        rw [← htoks, ← hleft, List.take_append_drop]
      rwa [List.append_cancel_right hused]
    · simp only [TokenStream.ofSource, TokenStream.size, Option.toList_none, List.length_nil,
        List.length_append] at hlt
      omega
  · intro v r h
    obtain ⟨used, left, htoks, hstream, -⟩ | hlt := form_ok_cases hreg h
    · exact .inl ⟨used.length, by simp [htoks], by simp [hstream, htoks]⟩
    · exact .inr hlt
  · intro k v t' h
    exact ⟨h.ne_endMark, form_of_expr (htake k) h⟩
  · intro j hj k hk v w t₁ t₂ hv hw
    have heq := (hcomplete j v t₁ hv).symm.trans (hcomplete k w t₂ hw)
    simp only [Prod.mk.injEq, Except.ok.injEq, Option.some.injEq, Reader.mk.injEq] at heq
    obtain ⟨hvw, hstream, ht⟩ := heq
    have hdrop := congrArg List.length (ofSource_inj hstream)
    rw [List.length_drop, List.length_drop] at hdrop
    exact ⟨by omega, hvw, ht⟩

/-- The tokens of `(a . -7)`. -/
def dottedPair : List Token :=
  [{ kind := .opening .round, text := "(" }, { kind := .symbol, text := "a" },
    { kind := .dot, text := "." }, { kind := .integer .decimal, text := "-7" },
    { kind := .closing .round, text := ")" }]

theorem dottedPair_expr : Expr dottedPair ∅ (.cons (.symbol ⟨"a", 0⟩) (.int (-7)))
    (SymbolTable.insert ∅ "a") := by
  have ha : Exprs [{ kind := .symbol, text := "a" }] ∅ [.symbol ⟨"a", 0⟩]
      (SymbolTable.insert ∅ "a") := .single (.atomic (.symbol rfl))
  have hn : Expr [{ kind := .integer .decimal, text := "-7" }] (SymbolTable.insert ∅ "a")
      (.int (-7)) (SymbolTable.insert ∅ "a") :=
    .atomic (.integer rfl (.minus (by decide)) (by decide) (by decide))
  exact @Expr.dotted { kind := .opening .round, text := "(" } _ { kind := .dot, text := "." } _
    { kind := .closing .round, text := ")" } _ _ _ _ _ rfl ha (by simp) rfl hn rfl

/-- A dotted pair is read off a source that fails right after it, and the failure stays there. -/
theorem form_eq_ok_dottedPair :
    (∀ tok ∈ dottedPair, tok.Regular) ∧
    (Reader.mk (.ofSource (dottedPair.map .ok ++ [.error (.system "lost")])) ∅).form =
      (.ok (some (.cons (.symbol ⟨"a", 0⟩) (.int (-7)))),
        ⟨.ofSource [.error (.system "lost")], SymbolTable.insert ∅ "a"⟩) := by
  have hreg : ∀ tok ∈ dottedPair, tok.Regular := by decide
  refine ⟨hreg, ?_⟩
  have hiff := (form_eq_ok_iff_expr hreg [.error (.system "lost")] ∅).1
  exact (hiff 5 (by decide) _ _).mpr dottedPair_expr

end LispCore.Reader
