import LispCore.Proofs.Reader.Known
import LispCore.Proofs.Value.Equal
import Mathlib.Logic.Relation

/-!
Sugar and what it stands for.

A marker before a form stands for a call, curly brackets for a call of `hash`, and a list after a
dot for the rest of the list that it ends. `SpelledOut` says so of the tokens, `Rewrite` of one
place in a list of tokens, at any depth.

* `SpelledOut.expr_iff` — where all names are known both spellings denote the same value;
* `reads_iff_of_rewrites` — so does a program before and after any rewrites;
* `reads_spelledOut` — what becomes of a program that is read in the table it leaves, or anew.
-/

namespace LispCore.Reader

open TokenSource

/-! ### Spellings -/

/-- Tokens are forms one after another, whatever names are known before. -/
def AreForms (toks : List Token) : Prop := ∃ t vs t', Exprs toks t vs t'

/-- What may stand in round brackets: forms, perhaps ended by a dot and one more. -/
inductive ListBody : List Token → Prop where
  | forms {toks} : AreForms toks → ListBody toks
  | dotted {toks dot tail} : AreForms toks → toks ≠ [] → dot.kind = .dot → IsForm tail →
      ListBody (toks ++ dot :: tail)

/-- `SpelledOut sugar plain`: the tokens of a form with sugar in it, and without it. -/
inductive SpelledOut : List Token → List Token → Prop where
  | marked {mark m toks op name cl} : mark.kind = .marker m → IsForm toks →
      op.kind = .opening .round → name.kind = .symbol → name.text = m.formName →
      cl.kind = .closing .round → SpelledOut (mark :: toks) (op :: name :: (toks ++ [cl]))
  | hash {op toks cl op' name cl'} : op.kind = .opening .curly → AreForms toks →
      cl.kind = .closing .curly → op'.kind = .opening .round → name.kind = .symbol →
      name.text = "hash" → cl'.kind = .closing .round →
      SpelledOut (op :: (toks ++ [cl])) (op' :: name :: (toks ++ [cl']))
  | spliced {op toks dot op' rest cl' cl op'' cl''} : op.kind = .opening .round → AreForms toks →
      toks ≠ [] → dot.kind = .dot → op'.kind = .opening .round → ListBody rest →
      cl'.kind = .closing .round → cl.kind = .closing .round → op''.kind = .opening .round →
      cl''.kind = .closing .round →
      SpelledOut (op :: (toks ++ dot :: (op' :: (rest ++ [cl']) ++ [cl])))
        (op'' :: (toks ++ (rest ++ [cl''])))

/-- One form with sugar is spelled out, wherever it stands. -/
inductive Rewrite : List Token → List Token → Prop where
  | place {before sugar plain after} : SpelledOut sugar plain →
      Rewrite (before ++ (sugar ++ after)) (before ++ (plain ++ after))

/-! ### Both spellings use the same names -/

theorem IsForm.uses {toks : List Token} (h : IsForm toks) : ∃ names, FormUses toks names := by
  obtain ⟨t, v, t', hx⟩ := h
  obtain ⟨names, hnames, -⟩ := hx.uses
  exact ⟨names, hnames⟩

theorem AreForms.uses {toks : List Token} (h : AreForms toks) :
    ∃ names, FormsUse toks names := by
  obtain ⟨t, vs, t', hxs⟩ := h
  obtain ⟨names, hnames, -⟩ := hxs.uses
  exact ⟨names, hnames⟩

/-- What stands in round brackets may follow more forms in them: it uses the same names, and where
these are known it denotes the same rest of a list. -/
theorem ListBody.meaning {rest : List Token} (h : ListBody rest) :
    ∃ names,
      (∀ {op toks cl names₀}, op.kind = .opening .round → FormsUse toks names₀ →
        cl.kind = .closing .round → FormUses (op :: (toks ++ (rest ++ [cl]))) (names₀ ++ names)) ∧
      ∀ T, (∀ n ∈ names, n ∈ T) → ∃ w, ∀ {op toks cl vs}, op.kind = .opening .round →
        Exprs toks T vs T → cl.kind = .closing .round →
        Expr (op :: (toks ++ (rest ++ [cl]))) T (.ofList vs w) T := by
  cases h with
  | forms hforms =>
    obtain ⟨names, hnames⟩ := hforms.uses
    refine ⟨names, ?_, ?_⟩
    · intro op toks cl names₀ hop hfirst hcl
      rw [← List.append_assoc]
      exact .list hop (hfirst.append hnames) hcl
    · intro T hT
      obtain ⟨ws, hws⟩ := hnames.known hT
      refine ⟨.ofList ws, ?_⟩
      intro op toks cl vs hop hvs hcl
      rw [← List.append_assoc, ← Value.ofList_append]
      exact .list hop (hvs.append hws) hcl
  | @dotted es dot tail hforms hne hdot hform =>
    obtain ⟨names, hnames⟩ := hforms.uses
    obtain ⟨names', hnames'⟩ := hform.uses
    refine ⟨names ++ names', ?_, ?_⟩
    · intro op toks cl names₀ hop hfirst hcl
      have hne' : toks ++ es ≠ [] := fun h => hne (List.append_eq_nil_iff.mp h).2
      have huses := FormUses.dotted hop (hfirst.append hnames) hne' hdot hnames' hcl
      simpa only [List.append_assoc, List.cons_append] using huses
    · intro T hT
      obtain ⟨hknown, hknown'⟩ := List.forall_mem_append.mp hT
      obtain ⟨ws, hws⟩ := hnames.known hknown
      obtain ⟨u, hu⟩ := hnames'.known hknown'
      refine ⟨.ofList ws u, ?_⟩
      intro op toks cl vs hop hvs hcl
      have hne' : vs ++ ws ≠ [] := by
        intro h
        exact hne (hws.eq_nil_iff.mpr (List.append_eq_nil_iff.mp h).2)
      have hexpr := Expr.dotted hop (hvs.append hws) hne' hdot hu hcl
      rw [Value.ofList_append] at hexpr
      simpa only [List.append_assoc, List.cons_append] using hexpr

/-- A name that is known, as a form. -/
theorem expr_name {name : Token} {T : SymbolTable} (hk : name.kind = .symbol)
    (hT : name.text ∈ T) : Expr [name] T (.symbol (T.intern name.text).1) T := by
  have hexpr := Expr.atomic (Atomic.symbol (t := T) hk)
  rwa [SymbolTable.intern_of_isPrefix hT (List.prefix_refl _)] at hexpr

/-- **Sugar and what it stands for use the same names**, and where these are known they denote the
same value. -/
theorem SpelledOut.meaning {sugar plain : List Token} (h : SpelledOut sugar plain) :
    ∃ used used', FormUses sugar used ∧ FormUses plain used' ∧ (∀ n, n ∈ used ↔ n ∈ used') ∧
      ∀ T, (∀ n ∈ used, n ∈ T) → ∃ v, Expr sugar T v T ∧ Expr plain T v T := by
  cases h with
  | @marked mark m toks op name cl hmark hform hop hname htext hcl =>
    obtain ⟨names, hnames⟩ := hform.uses
    refine ⟨names ++ [m.formName], [name.text] ++ names, .marked hmark hnames, ?_, ?_, ?_⟩
    · exact .list hop (.cons (.symbol hname) (.single hnames)) hcl
    · intro n
      rw [htext, List.mem_append, List.mem_append, or_comm]
    · intro T hT
      obtain ⟨hknown, hlast⟩ := List.forall_mem_append.mp hT
      have hmem : m.formName ∈ T := hlast _ List.mem_cons_self
      obtain ⟨v, hx⟩ := hnames.known hknown
      have hsugar := Expr.marked hmark hx
      rw [SymbolTable.intern_of_isPrefix hmem (List.prefix_refl _)] at hsugar
      have hplain := Expr.list hop (.cons (expr_name hname (htext ▸ hmem)) (.single hx)) hcl
      rw [htext] at hplain
      exact ⟨_, hsugar, hplain⟩
  | @hash op toks cl op' name cl' hop hforms hcl hop' hname htext hcl' =>
    obtain ⟨names, hnames⟩ := hforms.uses
    refine ⟨names ++ ["hash"], [name.text] ++ names, .hash hop hnames hcl, ?_, ?_, ?_⟩
    · exact .list hop' (.cons (.symbol hname) hnames) hcl'
    · intro n
      rw [htext, List.mem_append, List.mem_append, or_comm]
    · intro T hT
      obtain ⟨hknown, hlast⟩ := List.forall_mem_append.mp hT
      have hmem : "hash" ∈ T := hlast _ List.mem_cons_self
      obtain ⟨vs, hxs⟩ := hnames.known hknown
      have hsugar := Expr.hash hop hxs hcl
      rw [SymbolTable.intern_of_isPrefix hmem (List.prefix_refl _)] at hsugar
      have hplain := Expr.list hop' (.cons (expr_name hname (htext ▸ hmem)) hxs) hcl'
      rw [htext] at hplain
      exact ⟨_, hsugar, hplain⟩
  | @spliced op toks dot op' rest cl' cl op'' cl'' hop hforms hne hdot hop' hrest hcl' hcl hop''
      hcl'' =>
    obtain ⟨names, hnames⟩ := hforms.uses
    obtain ⟨names', huses, hdenotes⟩ := hrest.meaning
    refine ⟨names ++ names', names ++ names', ?_, huses hop'' hnames hcl'', fun n => Iff.rfl, ?_⟩
    · exact .dotted hop hnames hne hdot (huses hop' .nil hcl') hcl
    · intro T hT
      obtain ⟨hknown, hknown'⟩ := List.forall_mem_append.mp hT
      obtain ⟨vs, hxs⟩ := hnames.known hknown
      obtain ⟨w, hw⟩ := hdenotes T hknown'
      refine ⟨.ofList vs w, ?_, hw hop'' hxs hcl''⟩
      exact .dotted hop hxs (mt hxs.eq_nil_iff.mpr hne) hdot (hw hop' .nil hcl') hcl

/-- A token of most kinds is regular, whatever its text. -/
theorem regular_of_kind {tok : Token} {k : TokenKind} (hk : tok.kind = k)
    (hend : k ≠ .endOfInput) (hdecimal : k ≠ .integer .decimal) : tok.Regular where
  not_end := hk ▸ hend
  few_digits h := absurd (hk.symm.trans h) hdecimal

theorem SpelledOut.regular_iff {sugar plain : List Token} (h : SpelledOut sugar plain) :
    (∀ tok ∈ sugar, tok.Regular) ↔ ∀ tok ∈ plain, tok.Regular := by
  cases h with
  | marked hmark _ hop hname _ hcl =>
    have hmark := regular_of_kind hmark (by simp) (by simp)
    have hop := regular_of_kind hop (by simp) (by simp)
    have hname := regular_of_kind hname (by simp) (by simp)
    have hcl := regular_of_kind hcl (by simp) (by simp)
    simp only [List.forall_mem_cons, List.forall_mem_append, List.not_mem_nil, hmark, hop, hname,
      hcl, true_and, and_true, false_imp_iff, implies_true]
  | hash hop _ hcl hop' hname _ hcl' =>
    have hop := regular_of_kind hop (by simp) (by simp)
    have hcl := regular_of_kind hcl (by simp) (by simp)
    have hop' := regular_of_kind hop' (by simp) (by simp)
    have hname := regular_of_kind hname (by simp) (by simp)
    have hcl' := regular_of_kind hcl' (by simp) (by simp)
    simp only [List.forall_mem_cons, List.forall_mem_append, hop, hcl, hop', hname, hcl', true_and]
  | spliced hop _ _ hdot hop' _ hcl' hcl hop'' hcl'' =>
    have hop := regular_of_kind hop (by simp) (by simp)
    have hdot := regular_of_kind hdot (by simp) (by simp)
    have hop' := regular_of_kind hop' (by simp) (by simp)
    have hcl' := regular_of_kind hcl' (by simp) (by simp)
    have hcl := regular_of_kind hcl (by simp) (by simp)
    have hop'' := regular_of_kind hop'' (by simp) (by simp)
    have hcl'' := regular_of_kind hcl'' (by simp) (by simp)
    simp only [List.forall_mem_cons, List.forall_mem_append, List.not_mem_nil, hop, hdot, hop',
      hcl', hcl, hop'', hcl'', true_and, and_true, false_imp_iff, implies_true]

/-- **Where all names are known** both spellings denote the same value. -/
theorem SpelledOut.expr_iff {sugar plain : List Token} (h : SpelledOut sugar plain)
    (hreg : ∀ tok ∈ sugar, tok.Regular) {T : SymbolTable} {v : Value} :
    Expr sugar T v T ↔ Expr plain T v T := by
  obtain ⟨used, used', hsugar, hplain, hsame, hdenotes⟩ := h.meaning
  have hreg' := h.regular_iff.mp hreg
  constructor
  · intro hx
    obtain ⟨w, hw, hw'⟩ := hdenotes T (hx.mem_of_uses hreg hsugar)
    rwa [(hx.unique hw hreg).1]
  · intro hx
    have hknown := hx.mem_of_uses hreg' hplain
    obtain ⟨w, hw, hw'⟩ := hdenotes T fun n hn => hknown n ((hsame n).mp hn)
    rwa [(hx.unique hw' hreg').1]

theorem FormUses.isForm {toks : List Token} {names : List String} (h : FormUses toks names) :
    IsForm toks := by
  obtain ⟨v, hx⟩ := h.expr ∅
  exact ⟨_, _, _, hx⟩

/-- A form spelled out in a program that adds no name leaves its forms as they are. -/
theorem SpelledOut.exprs_iff {before sugar plain after : List Token} (h : SpelledOut sugar plain)
    {T : SymbolTable} {vs : List Value} :
    ((∀ tok ∈ before ++ (sugar ++ after), tok.Regular) ∧
        Exprs (before ++ (sugar ++ after)) T vs T) ↔
      (∀ tok ∈ before ++ (plain ++ after), tok.Regular) ∧
        Exprs (before ++ (plain ++ after)) T vs T := by
  obtain ⟨used, used', hsugar, hplain, -, -⟩ := h.meaning
  have hregs : (∀ tok ∈ before ++ (sugar ++ after), tok.Regular) ↔
      ∀ tok ∈ before ++ (plain ++ after), tok.Regular := by
    simp only [List.forall_mem_append, h.regular_iff]
  constructor
  · rintro ⟨hreg, hxs⟩
    have hregSugar := (List.forall_mem_append.mp (List.forall_mem_append.mp hreg).2).1
    exact ⟨hregs.mp hreg, hxs.replace hreg hsugar.isForm (h.regular_iff.mp hregSugar)
      fun v => (h.expr_iff hregSugar).mp⟩
  · rintro ⟨hreg, hxs⟩
    have hregPlain := (List.forall_mem_append.mp (List.forall_mem_append.mp hreg).2).1
    have hregSugar := h.regular_iff.mpr hregPlain
    exact ⟨hregs.mpr hreg, hxs.replace hreg hplain.isForm hregSugar
      fun v => (h.expr_iff hregSugar).mpr⟩

/-! ### Programs with and without sugar -/

mutual

/-- No end of the input is a token of a form. -/
theorem Expr.not_end {toks : List Token} {t t' : SymbolTable} {v : Value} (h : Expr toks t v t') :
    ∀ tok ∈ toks, tok.kind ≠ .endOfInput := by
  match h with
  | .atomic ha => cases ha <;> simp [*]
  | .marked hk hx => simpa [hk] using hx.not_end
  | .list hk hxs hcl | .array hk hxs hcl | .hash hk hxs hcl =>
    have := hxs.not_end
    grind
  | .dotted hk hxs _ hdot hx hcl =>
    have := hxs.not_end
    have := hx.not_end
    grind

theorem Exprs.not_end {toks : List Token} {t t' : SymbolTable} {vs : List Value}
    (h : Exprs toks t vs t') : ∀ tok ∈ toks, tok.kind ≠ .endOfInput := by
  match h with
  | .nil => simp
  | .cons hx hxs => exact List.forall_mem_append.mpr ⟨hx.not_end, hxs.not_end⟩

end

/-- What stands after an end in a list of tokens is not delivered. -/
theorem delivered_of_end {before : List Token} (h : ¬∀ tok ∈ before, tok.kind ≠ .endOfInput)
    (after after' : List Token) :
    delivered ((before ++ after).map .ok) = delivered ((before ++ after').map .ok) := by
  induction before with
  | nil => simp at h
  | cons tok before ih =>
    rw [List.cons_append, List.cons_append, List.map_cons, List.map_cons, delivered, delivered]
    by_cases hend : tok.kind = .endOfInput
    · rw [if_pos hend, if_pos hend]
    · rw [if_neg hend, if_neg hend, ih]
      intro hnone
      exact h (List.forall_mem_cons.mpr ⟨hend, hnone⟩)

/-- A rewrite is one of the tokens that are delivered, or it stands after their end. -/
theorem Rewrite.delivered {toks toks' : List Token} (h : Rewrite toks toks') :
    TokenSource.delivered (toks.map .ok) = TokenSource.delivered (toks'.map .ok) ∨
      Rewrite (TokenSource.delivered (toks.map .ok)) (TokenSource.delivered (toks'.map .ok)) := by
  cases h with
  | @place before sugar plain after h =>
    by_cases hend : ∀ tok ∈ before, tok.kind ≠ .endOfInput
    · obtain ⟨used, used', hsugar, hplain, -, -⟩ := h.meaning
      obtain ⟨_, _, _, hx⟩ := hsugar.isForm
      obtain ⟨_, _, _, hx'⟩ := hplain.isForm
      simp only [List.map_append, delivered_append hend, delivered_append hx.not_end,
        delivered_append hx'.not_end]
      exact .inr (.place h)
    · exact .inl (delivered_of_end hend _ _)

/-- **In a table that it adds nothing to**, a program gives the same forms whether or not its sugar
is spelled out, at any places. -/
theorem reads_iff_of_rewrites {toks toks' : List Token}
    (h : Relation.ReflTransGen Rewrite toks toks') (T : SymbolTable) (vs : List Value) :
    Reads toks T vs T ↔ Reads toks' T vs T := by
  induction h with
  | refl => rfl
  | tail _ hstep ih =>
    rw [ih, reads_iff, reads_iff]
    obtain hsame | hrewrite := hstep.delivered
    · rw [hsame]
    · generalize TokenSource.delivered _ = xs at hrewrite
      generalize TokenSource.delivered _ = ys at hrewrite
      cases hrewrite with
      | place hspelled => exact hspelled.exprs_iff

/-! ### NaN -/

mutual

/-- A form holds NaN only where a token spells it. -/
theorem Expr.exists_nan {toks : List Token} {t t' : SymbolTable} {v : Value}
    (h : Expr toks t v t') :
    v.HoldsNan → ∃ tok ∈ toks, tok.kind = .float ∧ tok.readFloat = .ok .nan := by
  intro hnan
  match h with
  | .atomic ha =>
    cases ha with
    | float hk hread =>
      cases hnan with
      | nan => exact ⟨_, List.mem_singleton_self _, hk, hread⟩
    | _ => cases hnan
  | .marked hk hx =>
    obtain ⟨w, hmem, hw⟩ | hnull := hnan.of_ofList
    · obtain hsymbol | hoperand := List.mem_cons.mp hmem
      · rw [hsymbol] at hw
        cases hw
      · rw [List.mem_singleton.mp hoperand] at hw
        obtain ⟨tok, htok, hspells⟩ := hx.exists_nan hw
        exact ⟨tok, by simp [htok], hspells⟩
    · exact absurd hnull Value.not_holdsNan_null
  | .list hk hxs hcl =>
    obtain hitem | hnull := hnan.of_ofList
    · obtain ⟨tok, htok, hspells⟩ := hxs.exists_nan hitem
      exact ⟨tok, by simp [htok], hspells⟩
    · exact absurd hnull Value.not_holdsNan_null
  | .dotted hk hxs hne hdot hx hcl =>
    obtain hitem | htail := hnan.of_ofList
    · obtain ⟨tok, htok, hspells⟩ := hxs.exists_nan hitem
      exact ⟨tok, by simp [htok], hspells⟩
    · obtain ⟨tok, htok, hspells⟩ := hx.exists_nan htail
      exact ⟨tok, by simp [htok], hspells⟩
  | .array hk hxs hcl =>
    cases hnan with
    | item hmem hw =>
      obtain ⟨tok, htok, hspells⟩ := hxs.exists_nan ⟨_, hmem, hw⟩
      exact ⟨tok, by simp [htok], hspells⟩
  | .hash hk hxs hcl =>
    cases hnan with
    | head hsymbol => cases hsymbol
    | tail htail =>
      obtain hitem | hnull := htail.of_ofList
      · obtain ⟨tok, htok, hspells⟩ := hxs.exists_nan hitem
        exact ⟨tok, by simp [htok], hspells⟩
      · exact absurd hnull Value.not_holdsNan_null

theorem Exprs.exists_nan {toks : List Token} {t t' : SymbolTable} {vs : List Value}
    (h : Exprs toks t vs t') : (∃ v ∈ vs, v.HoldsNan) →
      ∃ tok ∈ toks, tok.kind = .float ∧ tok.readFloat = .ok .nan := by
  rintro ⟨v, hmem, hnan⟩
  match h with
  | .nil => cases hmem
  | .cons hx hxs =>
    obtain hfirst | hlater := List.mem_cons.mp hmem
    · rw [hfirst] at hnan
      obtain ⟨tok, htok, hspells⟩ := hx.exists_nan hnan
      exact ⟨tok, List.mem_append_left _ htok, hspells⟩
    · obtain ⟨tok, htok, hspells⟩ := hxs.exists_nan ⟨v, hlater, hnan⟩
      exact ⟨tok, List.mem_append_right _ htok, hspells⟩

end

theorem mem_of_mem_delivered {toks : List Token} {tok : Token}
    (h : tok ∈ delivered (toks.map .ok)) : tok ∈ toks := by
  induction toks with
  | nil => cases h
  | cons tok' toks ih =>
    rw [List.map_cons, TokenSource.delivered] at h
    split at h
    · cases h
    · obtain rfl | h := List.mem_cons.mp h
      · exact List.mem_cons_self
      · exact List.mem_cons_of_mem tok' (ih h)

/-! ### Spelling out a program -/

/-- **Sugar and what it stands for read the same**, in every context. Let a list of tokens be read
as forms, and let some of its sugar, anywhere and at any depth, be spelled out.

* Read after that, in the environment as it is then or later, the rewritten tokens give the very
  same forms, and no name is new.
* Read in its place, they give forms that are the same by name, and the same names are known after
  them; and the tokens with their sugar, read after these, give the very same forms as these.
* Each form is equal to itself, so that the forms of both are equal one by one, unless it holds NaN.
  It holds NaN only if a token spells it. -/
theorem reads_spelledOut {toks toks' : List Token} (h : Relation.ReflTransGen Rewrite toks toks')
    {t T : SymbolTable} {vs : List Value} (hread : Reads toks t vs T) :
    (∀ later : SymbolTable, T.names <+: later.names → Reads toks' later vs later) ∧
    (∃ ws T', Reads toks' t ws T' ∧ ws.map Value.byName = vs.map Value.byName ∧
      (∀ n, n ∈ T' ↔ n ∈ T) ∧
      ∀ later : SymbolTable, T'.names <+: later.names → Reads toks later ws later) ∧
    (∀ v ∈ vs, v.equal v = true ∨ v.HoldsNan) ∧
    (∀ v ∈ vs, v.HoldsNan → ∃ tok ∈ toks, tok.kind = .float ∧ tok.readFloat = .ok .nan) := by
  have hafter (later : SymbolTable) (hle : T.names <+: later.names) : Reads toks' later vs later :=
    (reads_iff_of_rewrites h later vs).mp (hread.again hle)
  have hnow := hafter T (List.prefix_refl _)
  obtain ⟨ws, T', hinstead, hnames⟩ := hnow.elsewhere t
  have hback (later : SymbolTable) (hle : T'.names <+: later.names) : Reads toks later ws later :=
    (reads_iff_of_rewrites h later ws).mpr (hinstead.again hle)
  refine ⟨hafter, ⟨ws, T', hinstead, hnames, ?_, hback⟩, ?_, ?_⟩
  · intro n
    constructor
    · exact hinstead.mem_of_known hnow (fun n hn => hread.names_isPrefixOf.subset hn) n
    · exact hread.mem_of_known (hback T' (List.prefix_refl _))
        (fun n hn => hinstead.names_isPrefixOf.subset hn) n
  · intro v _
    exact v.equal_self_or_holdsNan
  · intro v hmem hnan
    obtain ⟨tok, htok, hspells⟩ := (reads_iff.mp hread).2.exists_nan ⟨v, hmem, hnan⟩
    exact ⟨tok, mem_of_mem_delivered htok, hspells⟩

/-! ### Programs at hand -/

/-- A token that stands anywhere. -/
def someToken (kind : TokenKind) (text : String) : Token := { kind, text }

def lparen : Token := someToken (.opening .round) "("

def rparen : Token := someToken (.closing .round) ")"

/-- The tokens of `(a . ({b}))`. -/
def sugared : List Token :=
  [lparen, someToken .symbol "a", someToken .dot ".", lparen, someToken (.opening .curly) "\x7b",
    someToken .symbol "b", someToken (.closing .curly) "\x7d", rparen, rparen]

/-- The tokens of `(a (hash b))`. -/
def unsugared : List Token :=
  [lparen, someToken .symbol "a", lparen, someToken .symbol "hash", someToken .symbol "b", rparen,
    rparen]

theorem areForms_symbol (text : String) : AreForms [someToken .symbol text] :=
  ⟨∅, _, _, .single (.atomic (.symbol rfl))⟩

/-- The hash after the dot is spelled out, and then the list around it is joined to the list before
the dot. -/
theorem rewrites_sugared : Relation.ReflTransGen Rewrite sugared unsugared := by
  have hhash := @SpelledOut.hash (someToken (.opening .curly) "\x7b") [someToken .symbol "b"]
    (someToken (.closing .curly) "\x7d") lparen (someToken .symbol "hash") rparen rfl
    (areForms_symbol "b") rfl rfl rfl rfl rfl
  obtain ⟨_, _, -, hcall, -⟩ := hhash.meaning
  obtain ⟨t, v, t', hx⟩ := hcall.isForm
  have hlist := @SpelledOut.spliced lparen [someToken .symbol "a"] (someToken .dot ".") lparen
    _ rparen rparen lparen rparen rfl (areForms_symbol "a") (by simp) rfl rfl
    (.forms ⟨t, _, _, .single hx⟩) rfl rfl rfl rfl
  exact .tail (.single (@Rewrite.place (sugared.take 4) _ _ [rparen, rparen] hhash))
    (@Rewrite.place [] _ _ [] hlist)

/-- **Both spellings of a list with a hash in it** are read as the same form, the second one in the
table that the first one leaves. -/
theorem reads_spelledOut_sugared :
    let vs : List Value :=
      [.ofList [.symbol ⟨"a", 0⟩, .ofList [.symbol ⟨"hash", 2⟩, .symbol ⟨"b", 1⟩]]]
    let T : SymbolTable := SymbolTable.insertAll ∅ ["a", "b", "hash"]
    Relation.ReflTransGen Rewrite sugared unsugared ∧ Reads sugared ∅ vs T ∧
      Reads unsugared T vs T := by
  intro vs T
  have hscan : (State.form []).scan sugared ∅ = ⟨vs, .ok (.form []), T⟩ := rfl
  obtain ⟨hreg, hxs⟩ := (scan_eq_iff (by decide)).mp hscan
  have hread := reads_of_exprs hreg hxs
  have hall := reads_spelledOut rewrites_sugared hread
  exact ⟨rewrites_sugared, hread, hall.1 T (List.prefix_refl _)⟩

/-- **NaN differs from itself**, also where one of two forms that hold it was written with a
marker. -/
theorem not_equal_spelledOut_nan :
    ¬∀ (toks toks' : List Token) (t T : SymbolTable) (vs ws : List Value),
      Relation.ReflTransGen Rewrite toks toks' → Reads toks t vs T → Reads toks' T ws T →
        vs.length = ws.length ∧ ∀ p ∈ vs.zip ws, p.1.equal p.2 = true := by
  intro hall
  let mark := someToken (.marker .quote) "'"
  let nan := someToken .float "nan"
  have hnan : Expr [nan] ∅ (.float .nan) ∅ := .atomic (.float rfl (by decide +kernel))
  have hspelled : SpelledOut (mark :: [nan]) _ :=
    @SpelledOut.marked mark .quote [nan] lparen (someToken .symbol "quote") rparen rfl
      ⟨_, _, _, hnan⟩ rfl rfl rfl rfl
  have hrewrites : Relation.ReflTransGen Rewrite _ _ := .single (@Rewrite.place [] _ _ [] hspelled)
  have hform : Expr (mark :: [nan]) ∅ _ _ := .marked rfl hnan
  have hread := reads_of_exprs (by decide) (.single hform)
  have hlater := hread.again (List.prefix_refl _)
  have hagain := (reads_iff_of_rewrites hrewrites _ _).mp hlater
  have hequal := (hall _ _ _ _ _ _ hrewrites hread hagain).2 _ (List.mem_singleton_self _)
  exact absurd hequal (by decide +kernel)

end LispCore.Reader
