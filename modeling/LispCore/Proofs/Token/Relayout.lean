import LispCore.Proofs.Token.Source

/-!
Another layout of the same tokens.

`Relaid cs 0 spans ds` says that a text `ds` is made of a text `cs` by putting other blanks and
comments between the spans of its tokens, before the first and after the last. Two tokens that were
apart stay apart; two that stood together may be moved apart.

* `Span.LiesIn.tokensFrom_eq` — a token of one text is the same in another, if what follows it there
  begins as before, or with a blank or a comment;
* `tokensFrom_relaid` — the tokens of a text in another layout are those of its spans, their places
  apart.
-/

namespace LispCore

/-! ### Other gaps -/

/-- Blanks and comments, each comment with the line feed that ends it. -/
inductive Spacing : List Char → Prop where
  | nil : Spacing []
  | blank {c cs} : Text.isBlank c = true → Spacing cs → Spacing (c :: cs)
  | comment {body cs} : (∀ c ∈ body, c ≠ '\n') → Spacing cs →
      Spacing (';' :: body ++ '\n' :: cs)

/-- `Relaid cs o spans ds`: what stands in a text `cs` after `o` characters, the tokens of spans and
the gaps around them, is `ds` with other gaps. -/
inductive Relaid (cs : List Char) : Nat → List Span → List Char → Prop where
  | last {o gap} : Gap gap [] → Relaid cs o [] gap
  | token {o s spans gap rest} : Spacing gap → (0 < o → o < s.offset → gap ≠ []) →
      Relaid cs s.stop spans rest → Relaid cs o (s :: spans) (gap ++ (s.raw cs ++ rest))

/-- What starts with a blank or a comment. -/
def StartsGap (cs : List Char) : Prop := ∀ c ∈ cs.head?, Text.isBlank c = true ∨ c = ';'

theorem Gap.startsGap {gap : List Char} (h : Gap gap []) : StartsGap gap := by
  rintro c hc
  cases h with
  | refl => cases hc
  | blank hblank _ =>
    cases hc
    exact .inl hblank
  | comment _ _ _ =>
    cases hc
    exact .inr rfl

/-- Such a gap is one wherever it stands. -/
theorem Spacing.gap {cs : List Char} (h : Spacing cs) (rest : List Char) :
    Gap (cs ++ rest) rest := by
  induction h with
  | nil => exact .refl
  | blank hc _ ih => exact .blank hc ih
  | @comment body cs hbody _ ih =>
    have hafter : Gap ('\n' :: (cs ++ rest)) rest := .blank rfl ih
    simpa using Gap.comment hbody (by simp) hafter

theorem Spacing.startsGap {cs : List Char} (h : Spacing cs) (hne : cs ≠ []) (rest : List Char) :
    StartsGap (cs ++ rest) := by
  rintro c hc
  cases h with
  | nil => exact absurd rfl hne
  | blank hblank _ =>
    cases hc
    exact .inl hblank
  | comment _ _ =>
    cases hc
    exact .inr rfl

theorem mayReplace_of_startsGap {rest rest' : List Char} (h : StartsGap rest') :
    MayReplace rest rest' := fun c hc => .inr (h c hc)

/-- A gap leaves no token. -/
theorem Gap.tokensFrom_nowhere {cs rest : List Char} (h : Gap cs rest) (p q : Position) :
    (tokensFrom p cs).map (movedItem nowhere) = (tokensFrom q rest).map (movedItem nowhere) := by
  induction h generalizing p with
  | refl => exact LispCore.tokensFrom_nowhere p q _
  | @blank c cs rest hc _ ih =>
    rw [← List.singleton_append, tokensFrom_blanks (List.forall_mem_singleton.mpr hc), ih]
  | comment hbody hstop _ ih =>
    rw [tokensFrom_written (.comment hbody hstop)]
    exact ih _

/-! ### The same tokens -/

/-- **A token of one text is one in another**, if what follows it there begins as before, or with a
blank or a comment. -/
theorem Span.LiesIn.tokensFrom_eq {s : Span} {cs rest : List Char} (h : s.LiesIn cs)
    (hrest : MayReplace (cs.drop s.stop) rest) (p : Position) :
    tokensFrom p (s.raw cs ++ rest) =
      .ok (s.token.placed p) :: tokensFrom (p.advance (s.raw cs)) rest := by
  obtain ⟨form, hform, hw⟩ := h.written
  have halone := h.alone
  rw [tokens, String.toList_ofList, ← List.append_nil (s.raw cs), tokensFrom_written hw.alone]
    at halone
  cases htok : Lexeme.token? ⟨form, s.raw cs, []⟩ {} with
  | error e =>
    rw [htok] at halone
    cases halone
  | ok o =>
    cases o with
    | none => exact absurd (Lexeme.eq_gap_of_token? htok) hform
    | some tok =>
      rw [htok] at halone
      obtain ⟨rfl⟩ : tok = s.token.placed {} := Except.ok.inj (List.cons.inj halone).1
      have hplaced := (hw.alone.token? htok).2.2.2.2 p
      have htok' : Lexeme.token? ⟨form, s.raw cs, rest⟩ p = .ok (some (s.token.placed p)) := hplaced
      rw [tokensFrom_written (hw.followed htok hrest), htok']

/-- What stands in a text from a token on. -/
theorem Span.drop_offset (s : Span) (cs : List Char) :
    cs.drop s.offset = s.raw cs ++ cs.drop s.stop := by
  rw [Span.raw, Span.stop, ← List.drop_drop, List.take_append_drop]

/-- A gap and a token after it leave that token, its place apart. -/
theorem tokensFrom_span {s : Span} {cs ds rest : List Char} (hgap : Gap ds (s.raw cs ++ rest))
    (hs : s.LiesIn cs) (hrest : MayReplace (cs.drop s.stop) rest) (p : Position) :
    (tokensFrom p ds).map (movedItem nowhere) =
      .ok (s.token.moved nowhere) :: (tokensFrom {} rest).map (movedItem nowhere) := by
  rw [hgap.tokensFrom_nowhere p p, hs.tokensFrom_eq hrest p, List.map_cons,
    tokensFrom_nowhere _ {} rest]
  rfl

/-- A gap up to the end of a text leaves the end, its place apart. -/
theorem tokensFrom_lastGap {ds : List Char} (hgap : Gap ds []) (p : Position) :
    (tokensFrom p ds).map (movedItem nowhere) = [.ok (endAt {})] := by
  rw [hgap.tokensFrom_nowhere p p, tokensFrom_nil]
  rfl

section Relaid

variable {cs ds : List Char} {o : Nat} {spans : List Span} {tok : Token}

/-- **The tokens of a text** are those of its spans, their places apart. -/
theorem tokensFrom_of_layout (hlayout : Layout cs o spans (.ok tok)) (p : Position) :
    (tokensFrom p (cs.drop o)).map (movedItem nowhere) =
      spans.map (fun s => .ok (s.token.moved nowhere)) ++ [.ok (endAt {})] := by
  generalize he : (.ok tok : Except Failure Token) = e at hlayout
  induction hlayout generalizing p with
  | closing hclosing =>
    subst he
    cases hclosing with
    | endOfInput hgap _ => exact tokensFrom_lastGap hgap p
  | @token o s spans e _ hgap hs _ ih =>
    rw [s.drop_offset] at hgap
    rw [tokensFrom_span hgap hs (fun c hc => .inl hc), ih {} he]
    rfl

/-- What follows a token in another layout begins as before, or with a blank or a comment. -/
theorem Relaid.mayReplace {e : Except Failure Token} (h : Relaid cs o spans ds)
    (hlayout : Layout cs o spans e) (ho : 0 < o) : MayReplace (cs.drop o) ds := by
  cases h with
  | last hgap => exact mayReplace_of_startsGap hgap.startsGap
  | @token _ s spans gap rest hspacing hkeep _ =>
    by_cases hne : gap = []
    · cases hlayout with
      | token hle _ hs _ =>
        -- No gap may be closed, so there was none, and the same token follows.
        have heq : o = s.offset := Nat.le_antisymm hle (Nat.le_of_not_lt fun h => hkeep ho h hne)
        obtain ⟨form, -, hw⟩ := hs.written
        obtain ⟨d, raw, hraw⟩ := List.exists_cons_of_ne_nil hw.ne_nil
        intro c hc
        left
        rw [hne, hraw] at hc
        rw [heq, s.drop_offset, hraw]
        exact hc
    · exact mayReplace_of_startsGap (hspacing.startsGap hne _)

/-- **The tokens of a text in another layout** are those of its spans, their places apart. -/
theorem tokensFrom_relaid (h : Relaid cs o spans ds) (hlayout : Layout cs o spans (.ok tok))
    (p : Position) :
    (tokensFrom p ds).map (movedItem nowhere) =
      spans.map (fun s => .ok (s.token.moved nowhere)) ++ [.ok (endAt {})] := by
  induction h generalizing p with
  | last hgap => exact tokensFrom_lastGap hgap p
  | @token o s spans gap rest hspacing _ hrest ih =>
    cases hlayout with
    | token _ _ hs hlayout =>
      have hpos : 0 < s.stop := Nat.lt_of_lt_of_le hs.length_pos (Nat.le_add_left _ _)
      rw [tokensFrom_span (hspacing.gap _) hs (hrest.mayReplace hlayout hpos), ih hlayout]
      rfl

end Relaid

end LispCore
