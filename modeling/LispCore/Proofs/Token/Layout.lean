import LispCore.Proofs.Token.Lexeme

/-!
Cutting a text into tokens loses nothing and places every token.

* `Position.isAt_advance` — lines and columns are those of the text before a place;
* `tokens_layout` — the tokens of a text lie in it one after another, each at its place and with its
  length, and there is nothing but blanks and comments between two, before the first and after the
  last. Each is the token of its own characters alone. What ends them is the end of the text, at the
  place after it, or a failure at the characters that are to blame.
-/

namespace LispCore

/-! ### Places -/

/-- The place after a text: its line counts the line feeds, its column the characters after the last
one. -/
structure Position.IsAt (p : Position) (before : List Char) : Prop where
  line : p.line = before.count '\n'
  column : ∃ lines last, before = lines ++ last ∧ '\n' ∉ last ∧
    (∀ c ∈ lines.getLast?, c = '\n') ∧ p.column = last.length

theorem Position.IsAt.next {p : Position} {before : List Char} (h : p.IsAt before) (c : Char) :
    (p.next c).IsAt (before ++ [c]) := by
  obtain ⟨hline, lines, last, rfl, hlast, hlines, hcolumn⟩ := h
  unfold Position.next
  split
  · next hc =>
    subst hc
    exact ⟨by simp [hline, Nat.add_assoc], lines ++ last ++ ['\n'], [], by simp, by simp, by simp,
      rfl⟩
  · next hc =>
    refine ⟨by simp [hline, hc], lines, last ++ [c], by simp, ?_, hlines, by simp [hcolumn]⟩
    simp [hlast, Ne.symm hc]

theorem Position.IsAt.advance {p : Position} {before : List Char} (h : p.IsAt before)
    (cs : List Char) : (p.advance cs).IsAt (before ++ cs) := by
  induction cs generalizing p before with
  | nil => simpa using h
  | cons c cs ih =>
    have htail := ih (h.next c)
    rwa [List.append_assoc, List.singleton_append] at htail

/-- **Line and column are those of the text before.** -/
theorem Position.isAt_advance (before : List Char) : (Position.advance {} before).IsAt before :=
  Position.IsAt.advance ⟨rfl, [], [], rfl, by simp, by simp, rfl⟩ before

/-! ### Gaps -/

/-- `Gap cs rest`: nothing but blanks and comments stands in `cs` before `rest`. A comment goes up
to a line feed or to the end of the text. -/
inductive Gap : List Char → List Char → Prop where
  | refl {rest} : Gap rest rest
  | blank {c cs rest} : Text.isBlank c = true → Gap cs rest → Gap (c :: cs) rest
  | comment {body cs rest} : (∀ c ∈ body, c ≠ '\n') → (∀ c ∈ cs.head?, c = '\n') → Gap cs rest →
      Gap (';' :: body ++ cs) rest

theorem Gap.trans {cs ds es : List Char} (h : Gap cs ds) (h' : Gap ds es) : Gap cs es := by
  induction h with
  | refl => exact h'
  | blank hc _ ih => exact .blank hc (ih h')
  | comment hbody hstop _ ih => exact .comment hbody hstop (ih h')

theorem Gap.blanks {raw rest : List Char} (h : ∀ c ∈ raw, Text.isBlank c = true) :
    Gap (raw ++ rest) rest := by
  induction raw with
  | nil => exact .refl
  | cons c raw ih =>
    obtain ⟨hc, hraw⟩ := List.forall_mem_cons.mp h
    exact .blank hc (ih hraw)

theorem Lexeme.Written.gap {raw rest : List Char} (h : Lexeme.Written .gap raw rest) :
    Gap (raw ++ rest) rest := by
  cases h with
  | blanks _ hraw _ => exact .blanks hraw
  | comment hbody hstop => exact .comment hbody hstop .refl

/-! ### Layouts -/

/-- A token and how many characters stand before it. -/
structure Span where
  offset : Nat
  token : Token

namespace Span

/-- Where the characters of a token end. -/
def stop (s : Span) : Nat := s.offset + s.token.length

/-- The characters of a token. -/
def raw (s : Span) (cs : List Char) : List Char := (cs.drop s.offset).take s.token.length

/-- A token lies in a text: it has characters there, which are a lexeme before what follows, names
its place and is what those characters are by themselves. -/
structure LiesIn (s : Span) (cs : List Char) : Prop where
  not_end : s.token.kind ≠ .endOfInput
  length_pos : 0 < s.token.length
  stop_le : s.stop ≤ cs.length
  written : ∃ form, form ≠ .gap ∧ Lexeme.Written form (s.raw cs) (cs.drop s.stop)
  start : s.token.start.IsAt (cs.take s.offset)
  alone : tokens (String.ofList (s.raw cs)) =
    [.ok (s.token.placed {}),
      .ok { kind := .endOfInput, text := "", start := Position.advance {} (s.raw cs) }]

end Span

/-- `Closing cs o e`: after `o` characters of a text, `e` ends its tokens. -/
inductive Closing (cs : List Char) (o : Nat) : Except Failure Token → Prop where
  | endOfInput {start} : Gap (cs.drop o) [] → start.IsAt cs →
      Closing cs o (.ok { kind := .endOfInput, text := "", start })
  | unterminatedString {o' body start} : o ≤ o' → Gap (cs.drop o) (cs.drop o') →
      cs.drop o' = '"' :: body → Unclosed body → start.IsAt (cs.take o') →
      Closing cs o (.error (.read (.unterminatedString
        { kind := .string, text := String.ofList ('"' :: body), start,
          length := body.length + 1 })))
  | malformedCharacter {o' body rest start} : o ≤ o' → Gap (cs.drop o) (cs.drop o') →
      cs.drop o' = '#' :: '\\' :: body ++ rest → (∀ c ∈ body, isDelimiter c = false) →
      startsDelimited rest = true → ¬StartsCharacter (cs.drop o') → start.IsAt (cs.take o') →
      Closing cs o (.error (.read (.malformedCharacter
        { kind := .char, text := String.ofList ('#' :: '\\' :: body), start,
          length := body.length + 2 })))
  | unknownCharacterName {o' name rest} : o ≤ o' → Gap (cs.drop o) (cs.drop o') →
      cs.drop o' = '#' :: '\\' :: name ++ rest → CharacterBody name → startsDelimited rest = true →
      characterValue? name = none →
      Closing cs o (.error (.unknownCharacterName (String.ofList name)))

/-- `Layout cs o spans e`: from `o` characters on, a text is gaps and tokens in turn, and then what
`e` says. -/
inductive Layout (cs : List Char) : Nat → List Span → Except Failure Token → Prop where
  | closing {o e} : Closing cs o e → Layout cs o [] e
  | token {o s spans e} : o ≤ s.offset → Gap (cs.drop o) (cs.drop s.offset) → s.LiesIn cs →
      Layout cs s.stop spans e → Layout cs o (s :: spans) e

theorem Closing.gap {cs : List Char} {o o' : Nat} {e : Except Failure Token} (h : Closing cs o' e)
    (hle : o ≤ o') (hgap : Gap (cs.drop o) (cs.drop o')) : Closing cs o e := by
  cases h with
  | endOfInput hend hstart => exact .endOfInput (hgap.trans hend) hstart
  | unterminatedString hle' hgap' hcs hbody hstart =>
    exact .unterminatedString (Nat.le_trans hle hle') (hgap.trans hgap') hcs hbody hstart
  | malformedCharacter hle' hgap' hcs hbody hrest hchar hstart =>
    exact .malformedCharacter (Nat.le_trans hle hle') (hgap.trans hgap') hcs hbody hrest hchar
      hstart
  | unknownCharacterName hle' hgap' hcs hname hrest hnone =>
    exact .unknownCharacterName (Nat.le_trans hle hle') (hgap.trans hgap') hcs hname hrest hnone

/-- A gap may go before a layout. -/
theorem Layout.gap {cs : List Char} {o o' : Nat} {spans : List Span} {e : Except Failure Token}
    (h : Layout cs o' spans e) (hle : o ≤ o') (hgap : Gap (cs.drop o) (cs.drop o')) :
    Layout cs o spans e := by
  cases h with
  | closing h => exact .closing (h.gap hle hgap)
  | token hle' hgap' hs h => exact .token (Nat.le_trans hle hle') (hgap.trans hgap') hs h

theorem Layout.offset_le {cs : List Char} {o : Nat} {spans : List Span} {e : Except Failure Token}
    (h : Layout cs o spans e) : ∀ s ∈ spans, o ≤ s.offset := by
  induction h with
  | closing _ => simp
  | @token o s spans e hle _ _ _ ih =>
    refine List.forall_mem_cons.mpr ⟨hle, ?_⟩
    intro s' hs'
    exact Nat.le_trans hle (Nat.le_trans (Nat.le_add_right _ _) (ih s' hs'))

/-- The tokens of a layout stand in order and do not overlap. -/
theorem Layout.pairwise {cs : List Char} {o : Nat} {spans : List Span} {e : Except Failure Token}
    (h : Layout cs o spans e) :
    spans.Pairwise fun a b => a.offset < b.offset ∧ a.stop ≤ b.offset := by
  induction h with
  | closing _ => exact .nil
  | token _ _ hs h ih =>
    refine .cons ?_ ih
    intro s' hs'
    have hle := h.offset_le s' hs'
    have hpos := hs.length_pos
    unfold Span.stop at hle ⊢
    omega

/-! ### The tokens of a text -/

section Step

variable {before raw rest : List Char} {form : LexemeForm}

/-- The token of a lexeme lies where the lexeme is written. -/
theorem Lexeme.Written.liesIn {t : Token} (h : Lexeme.Written form raw rest)
    (ht : Lexeme.token? ⟨form, raw, rest⟩ (Position.advance {} before) = .ok (some t)) :
    Span.LiesIn ⟨before.length, t⟩ (before ++ (raw ++ rest)) := by
  obtain ⟨hstart, hlength, hend, halone, hplaced⟩ := h.token? ht
  have hraw : Span.raw ⟨before.length, t⟩ (before ++ (raw ++ rest)) = raw := by
    simp [Span.raw, hlength]
  have hstop : (before ++ (raw ++ rest)).drop (Span.stop ⟨before.length, t⟩) = rest := by
    rw [Span.stop, hlength, ← List.length_append, ← List.append_assoc, List.drop_left]
  refine ⟨hend, ?_, ?_, ?_, ?_, ?_⟩
  · rw [hlength]
    exact List.length_pos_iff.mpr h.ne_nil
  · simp only [Span.stop, hlength, List.length_append]
    omega
  · rw [hraw, hstop]
    refine ⟨form, ?_, h⟩
    rintro rfl
    cases ht
  · rw [hstart, List.take_left]
    exact Position.isAt_advance before
  · rw [hraw, tokens, String.toList_ofList, ← List.append_nil raw, tokensFrom_written halone,
      hplaced, List.append_nil]
    simp [tokensFrom_nil]

/-- A lexeme that stands for no token ends the tokens where it is written. -/
theorem Lexeme.Written.closing {e : Failure} (h : Lexeme.Written form raw rest)
    (ht : Lexeme.token? ⟨form, raw, rest⟩ (Position.advance {} before) = .error e) :
    Closing (before ++ (raw ++ rest)) before.length (.error e) := by
  have hdrop : (before ++ (raw ++ rest)).drop before.length = raw ++ rest := List.drop_left
  cases h with
  | blanks _ _ _ | comment _ _ | mark _ _ | tildeAt | string _ => cases ht
  | @character name _ hname hrest =>
    simp only [Lexeme.token?] at ht
    split at ht
    · cases ht
    · next hnone =>
      cases ht
      exact .unknownCharacterName (Nat.le_refl _) .refl hdrop hname hrest hnone
  | atom _ hraw hrest hchar =>
    simp only [Lexeme.token?] at ht
    split at ht
    · next hmark =>
      obtain ⟨body, rfl⟩ : ∃ body, raw = '#' :: '\\' :: body :=
        ⟨raw.drop 2, by rw [← List.take_append_drop 2 raw, hmark]; rfl⟩
      cases ht
      refine .malformedCharacter (Nat.le_refl _) .refl hdrop ?_ hrest (by rwa [hdrop]) ?_
      · intro c hc
        exact hraw c (by simp [hc])
      · rw [List.take_left]
        exact Position.isAt_advance before
    · cases ht

end Step

/-- What is left of a text is laid out after what was cut before. -/
theorem tokensFrom_layout (before cs : List Char) :
    ∃ spans e, tokensFrom (Position.advance {} before) cs = spans.map (.ok ·.token) ++ [e] ∧
      Layout (before ++ cs) before.length spans e := by
  have hdrop (before cs : List Char) : (before ++ cs).drop before.length = cs := List.drop_left
  induction cs using Lexeme.induction_on generalizing before with
  | nil =>
    refine ⟨[], _, by rw [tokensFrom_nil]; rfl, .closing (.endOfInput ?_ ?_)⟩
    · rw [hdrop]
      exact .refl
    · simpa using Position.isAt_advance before
  | lexeme form raw rest hw ih =>
    -- The lexeme belongs to what stands before the text that is left.
    obtain ⟨spans, e, htoks, hlayout⟩ := ih (before ++ raw)
    rw [List.append_assoc] at hlayout
    rw [tokensFrom_written hw, ← Position.advance_append]
    have hafter : (before ++ (raw ++ rest)).drop (before ++ raw).length = rest := by
      rw [← List.append_assoc, List.drop_left]
    split
    · next e ht => exact ⟨[], _, rfl, .closing (hw.closing ht)⟩
    · next ht =>
      refine ⟨spans, e, htoks, hlayout.gap (by simp) ?_⟩
      obtain rfl := Lexeme.eq_gap_of_token? ht
      rw [hdrop, hafter]
      exact hw.gap
    · next t ht =>
      have hlength := (hw.token? ht).2.1
      refine ⟨⟨before.length, t⟩ :: spans, e, by rw [htoks]; rfl, ?_⟩
      refine .token (Nat.le_refl _) .refl (hw.liesIn ht) ?_
      rwa [Span.stop, hlength, ← List.length_append]
  | unclosed body hbody =>
    refine ⟨[], _, tokensFrom_unclosed hbody _, .closing ?_⟩
    refine .unterminatedString (Nat.le_refl _) .refl (hdrop _ _) hbody ?_
    rw [List.take_left]
    exact Position.isAt_advance before

/-- **Cutting a text into tokens loses nothing and places every token.** Every text is gaps and
tokens in turn, the tokens in order and apart, each at its place and the token of its own characters
alone; what comes last is the end at the place after the text, or a failure at its own place. -/
theorem tokens_layout (text : String) :
    ∃ spans e, tokens text = spans.map (.ok ·.token) ++ [e] ∧ Layout text.toList 0 spans e ∧
      spans.Pairwise fun a b => a.offset < b.offset ∧ a.stop ≤ b.offset := by
  obtain ⟨spans, e, htoks, hlayout⟩ := tokensFrom_layout [] text.toList
  exact ⟨spans, e, htoks, hlayout, hlayout.pairwise⟩

end LispCore
