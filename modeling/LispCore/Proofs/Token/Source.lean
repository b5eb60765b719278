import LispCore.Proofs.Token.Placement
import LispCore.Proofs.Token.Spelling

/-!
The tokens of a text as a source that ends, and what becomes of them when the text goes on.

* `exists_cutInto` — every text is cut into tokens of lexemes, and then its end or a failure of the
  lexer;
* `Lexeme.Written.followed` — a token does not depend on what follows it, as long as that begins
  as before, or with a blank or a comment;
* `exists_cutInto_append` — the tokens of a text stay when a line feed and more are put after it,
  and if the text was cut to its end the tokens of what was put there follow.
-/

namespace LispCore

/-! ### The end of a text -/

/-- The end of a text at a place. -/
def endAt (p : Position) : Token := { kind := .endOfInput, text := "", start := p }

/-- What the tokens of a text end with: the end at its place, or a failure of the lexer. -/
def EndsText (stop : Position) : Except Failure Token → Prop
  | .ok tok => tok = endAt stop
  | .error e => e.Lexical

/-- A source that ends is its tokens and what it ends with, in one way only. -/
theorem items_inj {toks toks' : List Token} {last last' : Except Failure Token}
    (h : toks.map Except.ok ++ [last] = toks'.map Except.ok ++ [last']) : toks = toks' ∧ last = last' := by
  obtain ⟨htoks, hlast⟩ := List.append_inj' h rfl
  exact ⟨(List.map_inj_right fun _ _ => Except.ok.inj).mp htoks, List.head_eq_of_cons_eq hlast⟩

/-- `CutInto p cs toks last`: a text that starts at a place is cut into tokens of lexemes, and then
into its end or a failure of the lexer. -/
structure CutInto (p : Position) (cs : List Char) (toks : List Token)
    (last : Except Failure Token) : Prop where
  tokens_eq : tokensFrom p cs = toks.map .ok ++ [last]
  lexed : ∀ tok ∈ toks, tok.Lexed
  ends : EndsText (p.advance cs) last

namespace CutInto

variable {p : Position} {cs raw rest : List Char} {form : LexemeForm} {toks toks' : List Token}
  {last last' : Except Failure Token}

theorem not_end (h : CutInto p cs toks last) : ∀ tok ∈ toks, tok.kind ≠ .endOfInput :=
  fun tok htok => (h.lexed tok htok).not_end

theorem nil (p : Position) : CutInto p [] [] (.ok (endAt p)) := ⟨tokensFrom_nil p, by simp, rfl⟩

/-- A gap is cut away. -/
theorem gap (h : CutInto (p.advance raw) rest toks last)
    (heq : tokensFrom p (raw ++ rest) = tokensFrom (p.advance raw) rest) :
    CutInto p (raw ++ rest) toks last :=
  ⟨heq.trans h.tokens_eq, h.lexed, by rw [Position.advance_append]; exact h.ends⟩

theorem token {tok : Token} (hw : Lexeme.Written form raw rest)
    (htok : Lexeme.token? ⟨form, raw, rest⟩ p = .ok (some tok))
    (h : CutInto (p.advance raw) rest toks last) : CutInto p (raw ++ rest) (tok :: toks) last := by
  refine ⟨?_, List.forall_mem_cons.mpr ⟨⟨hw, htok⟩, h.lexed⟩, ?_⟩
  · rw [tokensFrom_written hw, htok, h.tokens_eq]
    rfl
  · rw [Position.advance_append]
    exact h.ends

theorem failed {e : Failure} (hw : Lexeme.Written form raw rest)
    (htok : Lexeme.token? ⟨form, raw, rest⟩ p = .error e) : CutInto p (raw ++ rest) [] (.error e) :=
  ⟨by rw [tokensFrom_written hw, htok]; rfl, by simp, .lexeme hw htok⟩

theorem unclosed {body : List Char} (hbody : Unclosed body) (p : Position) :
    ∃ e, CutInto p ('"' :: body) [] (.error e) :=
  ⟨_, tokensFrom_unclosed hbody p, by simp, .unclosed⟩

/-- A text is cut in one way only. -/
theorem unique (h : CutInto p cs toks last) (heq : tokensFrom p cs = toks'.map .ok ++ [last']) :
    toks = toks' ∧ last = last' := items_inj (h.tokens_eq.symm.trans heq)

end CutInto

/-- **Every text is cut** into tokens of lexemes, and then its end or a failure of the lexer. -/
theorem exists_cutInto (p : Position) (cs : List Char) : ∃ toks last, CutInto p cs toks last := by
  induction cs using Lexeme.induction_on generalizing p with
  | nil => exact ⟨[], _, .nil p⟩
  | lexeme form raw rest hw ih =>
    obtain ⟨toks, last, h⟩ := ih (p.advance raw)
    cases htok : Lexeme.token? ⟨form, raw, rest⟩ p with
    | error e => exact ⟨[], _, .failed hw htok⟩
    | ok o =>
      cases o with
      | none => exact ⟨toks, last, h.gap (by rw [tokensFrom_written hw, htok])⟩
      | some tok => exact ⟨tok :: toks, last, .token hw htok h⟩
  | unclosed body hbody =>
    obtain ⟨e, h⟩ := CutInto.unclosed hbody p
    exact ⟨[], _, h⟩

/-- Items of sources can be compared, so the tokens of a given text can be decided. -/
instance decidableEqItem {ε α : Type} [DecidableEq ε] [DecidableEq α] : DecidableEq (Except ε α)
  | .ok x, .ok y => decidable_of_iff (x = y) ⟨congrArg Except.ok, Except.ok.inj⟩
  | .error x, .error y => decidable_of_iff (x = y) ⟨congrArg Except.error, Except.error.inj⟩
  | .ok _, .error _ | .error _, .ok _ => isFalse (by simp)

/-- The tokens of a text say how it is cut. -/
theorem CutInto.of_tokens {p : Position} {cs : List Char} {toks : List Token}
    {last : Except Failure Token} (h : tokensFrom p cs = toks.map .ok ++ [last]) :
    CutInto p cs toks last := by
  obtain ⟨toks', last', h'⟩ := exists_cutInto p cs
  obtain ⟨rfl, rfl⟩ := h'.unique h
  exact h'

/-! ### What follows a token -/

/-- What may follow a token in the place of something else: it begins as that does, or with a blank
or a comment, or it is empty. -/
def MayReplace (rest rest' : List Char) : Prop :=
  ∀ c ∈ rest'.head?, c ∈ rest.head? ∨ Text.isBlank c = true ∨ c = ';'

theorem MayReplace.startsDelimited {rest rest' : List Char} (h : MayReplace rest rest')
    (hrest : startsDelimited rest = true) : startsDelimited rest' = true := by
  rw [startsDelimited_iff] at hrest ⊢
  intro c hc
  obtain hsame | hblank | rfl := h c hc
  · exact hrest c hsame
  · simp [isDelimiter, hblank]
  · decide

namespace Lexeme.Written

variable {form : LexemeForm} {raw rest rest' : List Char}

/-- **A token does not depend on what follows it**, as long as that begins as before, or with a
blank or a comment. -/
theorem followed {p : Position} {tok : Token} (h : Written form raw rest)
    (htok : Lexeme.token? ⟨form, raw, rest⟩ p = .ok (some tok)) (hrest : MayReplace rest rest') :
    Written form raw rest' := by
  cases h with
  | blanks _ _ _ | comment _ _ => cases htok
  | tildeAt => exact .tildeAt
  | string hbody => exact .string hbody
  | character hbody hdelim => exact .character hbody (hrest.startsDelimited hdelim)
  | mark hkind htilde =>
    refine .mark hkind ?_
    rintro ⟨rfl, hat⟩
    obtain hsame | hblank | hcomment := hrest '@' hat
    · exact htilde ⟨rfl, hsame⟩
    · exact absurd hblank (by decide)
    · exact absurd hcomment (by decide)
  | atom hne hraw hdelim _ =>
    simp only [Lexeme.token?] at htok
    split at htok
    · cases htok
    · next hmark => exact IsAtom.written ⟨hne, hraw, hmark⟩ (hrest.startsDelimited hdelim)

/-- A gap goes on into blanks, and a comment stops at a line feed. -/
theorem gap_append (h : Written .gap raw rest) {more : List Char}
    (hmore : ∀ c ∈ more.head?, c = '\n') (p : Position) :
    tokensFrom p (raw ++ (rest ++ more)) = tokensFrom (p.advance raw) (rest ++ more) := by
  cases h with
  | blanks _ hraw _ => exact tokensFrom_blanks hraw p _
  | comment hbody hrest =>
    have hstop : ∀ c ∈ (rest ++ more).head?, c = '\n' := by
      intro c hc
      cases rest with
      | nil => exact hmore c hc
      | cons d rest => exact hrest c hc
    rw [tokensFrom_written (.comment hbody hstop)]
    rfl

end Lexeme.Written

/-! ### Texts that go on -/

theorem mayReplace_append {more : List Char} (hmore : ∀ c ∈ more.head?, c = '\n')
    (rest : List Char) : MayReplace rest (rest ++ more) := by
  intro c hc
  cases rest with
  | nil =>
    rw [hmore c hc]
    exact .inr (.inl rfl)
  | cons d rest => exact .inl hc

/-- **The tokens of a text stay when it goes on with a line feed.** If the text was cut to its end,
the tokens of what follows come next. -/
theorem exists_cutInto_append {more : List Char} (hmore : ∀ c ∈ more.head?, c = '\n')
    (p : Position) (cs : List Char) :
    ∃ toks last toks' last', CutInto p cs toks last ∧
      CutInto p (cs ++ more) (toks ++ toks') last' ∧
      ((∃ tok, last = .ok tok) → CutInto (p.advance cs) more toks' last') := by
  induction cs using Lexeme.induction_on generalizing p with
  | nil =>
    obtain ⟨toks', last', h⟩ := exists_cutInto p more
    exact ⟨[], _, toks', last', .nil p, h, fun _ => h⟩
  | lexeme form raw rest hw ih =>
    obtain ⟨toks, last, toks', last', h, hwhole, hnext⟩ := ih (p.advance raw)
    rw [← Position.advance_append] at hnext
    cases htok : Lexeme.token? ⟨form, raw, rest⟩ p with
    | error e =>
      obtain ⟨toks', last', h⟩ := exists_cutInto p (raw ++ rest ++ more)
      exact ⟨[], _, toks', last', .failed hw htok, h, fun ⟨tok, h⟩ => nomatch h⟩
    | ok o =>
      rw [List.append_assoc]
      cases o with
      | none =>
        obtain rfl := Lexeme.eq_gap_of_token? htok
        refine ⟨toks, last, toks', last', h.gap ?_, hwhole.gap (hw.gap_append hmore p), hnext⟩
        rw [tokensFrom_written hw, htok]
      | some tok =>
        have hw' := hw.followed htok (mayReplace_append hmore rest)
        exact ⟨tok :: toks, last, toks', last', .token hw htok h, .token hw' htok hwhole, hnext⟩
  | unclosed body hbody =>
    obtain ⟨e, h⟩ := CutInto.unclosed hbody p
    obtain ⟨toks', last', h'⟩ := exists_cutInto p ('"' :: body ++ more)
    exact ⟨[], _, toks', last', h, h', fun ⟨tok, h⟩ => nomatch h⟩

end LispCore
