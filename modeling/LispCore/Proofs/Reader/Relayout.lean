import LispCore.Proofs.Reader.Placement
import LispCore.Proofs.Reader.Text
import LispCore.Proofs.Token.Relayout

/-!
The layout of a text does not change what it means.

Texts whose tokens differ in their places only are read as the same forms with the same symbols, and
what stops the reading of one stops that of the other (`reading_nowhere`). `parseAll_relaid` draws
the conclusion for a text and the same text in another layout.
-/

namespace LispCore.Reader

/-- **Texts with the same tokens are read alike**, the places of the tokens apart. -/
theorem reading_nowhere {text text' : String}
    (h : (tokens text').map (movedItem nowhere) = (tokens text).map (movedItem nowhere))
    (t : SymbolTable) :
    (ofText text' t).reading.moved nowhere = (ofText text t).reading.moved nowhere := by
  obtain ⟨toks, last, hcut⟩ := exists_cutInto {} text.toList
  obtain ⟨toks', last', hcut'⟩ := exists_cutInto {} text'.toList
  have hitems : (toks'.map (Token.moved nowhere)).map .ok ++ [movedItem nowhere last'] =
      (toks.map (Token.moved nowhere)).map .ok ++ [movedItem nowhere last] := by
    rw [← map_movedItem, ← map_movedItem, ← hcut.tokens_eq, ← hcut'.tokens_eq]
    exact h
  obtain ⟨htoks, hlast⟩ := items_inj hitems
  rw [reading_ofText hcut, reading_ofText hcut', ← Scan.finish_moved, ← Scan.finish_moved,
    ← State.scan_moved, ← State.scan_moved, htoks, hlast]

/-- **A failure at another place** is of the same family and says the same of a token of the same
kind and text. -/
theorem read_of_moved_eq {err : ReadError} {e : Failure}
    (h : e.moved nowhere = (Failure.read err).moved nowhere) :
    ∃ err', e = .read err' ∧ err'.family = err.family ∧ err'.text = err.text ∧
      err'.token?.map (fun tok => (tok.kind, tok.text)) =
        err.token?.map fun tok => (tok.kind, tok.text) := by
  cases e with
  | read err' =>
    have hmoved : err'.moved nowhere = err.moved nowhere := Failure.read.inj h
    have htoken := congrArg (fun e => e.token?.map fun tok => (tok.kind, tok.text)) hmoved
    refine ⟨err', rfl, ?_, ?_, ?_⟩
    · simpa using congrArg ReadError.family hmoved
    · simpa using congrArg ReadError.text hmoved
    · simp only [ReadError.token?_moved, Option.map_map] at htoken
      exact htoken
  | _ => cases h

/-- **The layout of a text does not change what it means.** Let a text be cut into the tokens of
some spans and its end, and let another text have other blanks and comments around them.

* It has the same tokens, their places apart.
* The same names are known after it, and what no reading recovers from stops both.
* The forms are the same, and so is the failure, its place apart: its family, its message and the
  kind and the text of its token. -/
theorem parseAll_relaid {text text' : String} {spans : List Span} {tok : Token}
    (hlayout : Layout text.toList 0 spans (.ok tok))
    (hrelaid : Relaid text.toList 0 spans text'.toList) :
    (tokens text').map (movedItem nowhere) = (tokens text).map (movedItem nowhere) ∧
    ∀ t, (ofText text' t).parseAll.2.symbols = (ofText text t).parseAll.2.symbols ∧
      (∀ e, (ofText text t).parseAll.1 = .error e → (ofText text' t).parseAll.1 = .error e) ∧
      ∀ p, (ofText text t).parseAll.1 = .ok p → ∃ p', (ofText text' t).parseAll.1 = .ok p' ∧
        p'.forms = p.forms ∧
        p'.failure.map (Failure.moved nowhere) = p.failure.map (Failure.moved nowhere) ∧
        ∀ err, p.failure = some (.read err) → ∃ err', p'.failure = some (.read err') ∧
          err'.family = err.family ∧ err'.text = err.text ∧
          err'.token?.map (fun tok => (tok.kind, tok.text)) =
            err.token?.map fun tok => (tok.kind, tok.text) := by
  have htokens : (tokens text').map (movedItem nowhere) = (tokens text).map (movedItem nowhere) :=
    (tokensFrom_relaid hrelaid hlayout {}).trans (tokensFrom_of_layout hlayout {}).symm
  refine ⟨htokens, ?_⟩
  intro t
  have hreading := reading_nowhere htokens t
  have hparsed : (ofText text' t).reading.parsed.map (Parsed.moved nowhere) =
      (ofText text t).reading.parsed.map (Parsed.moved nowhere) := by
    rw [← parsed_moved, ← parsed_moved, hreading]
  simp only [parseAll_fst, symbols_parseAll]
  refine ⟨?_, ?_, ?_⟩
  · simpa [Reading.moved] using congrArg Reading.symbols hreading
  · intro e he
    rw [he] at hparsed
    cases h : (ofText text' t).reading.parsed with
    | ok p' =>
      rw [h] at hparsed
      cases hparsed
    | error e' =>
      rw [h] at hparsed
      exact congrArg Except.error (Except.error.inj hparsed)
  · intro p hp
    rw [hp] at hparsed
    cases h : (ofText text' t).reading.parsed with
    | error e' =>
      rw [h] at hparsed
      cases hparsed
    | ok p' =>
      rw [h] at hparsed
      have hmoved : p'.moved nowhere = p.moved nowhere := Except.ok.inj hparsed
      have hfailure : p'.failure.map (Failure.moved nowhere) =
          p.failure.map (Failure.moved nowhere) := congrArg Parsed.failure hmoved
      have hforms : p'.forms = p.forms := by
        simpa [Parsed.moved] using congrArg Parsed.forms hmoved
      refine ⟨p', rfl, hforms, hfailure, ?_⟩
      intro err herr
      rw [herr] at hfailure
      obtain ⟨e, he, hsame⟩ := Option.map_eq_some_iff.mp hfailure
      obtain ⟨err', rfl, hrest⟩ := read_of_moved_eq hsame
      exact ⟨err', he, hrest⟩

/-! ### A marker and a name that stay apart -/

/-- The tokens of `~ @)`, of which the first two would be one without the blank. -/
def apartSpans : List Span :=
  [⟨0, { kind := .marker .tilde, text := "~", length := 1 }⟩,
    ⟨2, { kind := .symbol, text := "@", start := ⟨0, 2⟩, length := 1 }⟩,
    ⟨3, { kind := .closing .round, text := ")", start := ⟨0, 3⟩, length := 1 }⟩]

theorem apartSpans_layout : Layout ['~', ' ', '@', ')'] 0 apartSpans (.ok (endAt ⟨0, 4⟩)) := by
  have htilde : Lexeme.Written (.mark (.marker .tilde)) ['~'] [' ', '@', ')'] :=
    .mark rfl (by decide)
  have hat : Lexeme.Written .atom ['@'] [')'] := IsAtom.written (by decide) (by decide)
  have hclose : Lexeme.Written (.mark (.closing .round)) [')'] [] := .mark rfl (by decide)
  refine .token (by decide) .refl
    (@Lexeme.Written.liesIn [] _ _ _ _ htilde (by decide +kernel)) ?_
  refine .token (by decide) (.blank rfl .refl)
    (@Lexeme.Written.liesIn ['~', ' '] _ _ _ _ hat (by decide +kernel)) ?_
  refine .token (by decide) .refl
    (@Lexeme.Written.liesIn ['~', ' ', '@'] _ _ _ _ hclose (by decide +kernel)) ?_
  exact .closing (.endOfInput .refl (Position.isAt_advance ['~', ' ', '@', ')']))

theorem apartSpans_relaid :
    Relaid ['~', ' ', '@', ')'] 0 apartSpans ['~', ';', '\n', '@', '\t', ')'] := by
  have hcomment : Spacing [';', '\n'] := @Spacing.comment [] [] (by simp) .nil
  have htab : Spacing ['\t'] := .blank (by decide) .nil
  refine @Relaid.token _ _ _ _ [] _ .nil (by simp) ?_
  refine @Relaid.token _ _ _ _ [';', '\n'] _ hcomment (by simp) ?_
  refine @Relaid.token _ _ _ _ ['\t'] _ htab (by simp) ?_
  exact .last .refl

/-- With a comment for the blank, and a tab that nothing asks for, the marker still wraps the name,
and the bracket is still the one that closes nothing. -/
theorem parseAll_apartSpans :
    Layout "~ @)".toList 0 apartSpans (.ok (endAt ⟨0, 4⟩)) ∧
    Relaid "~ @)".toList 0 apartSpans "~;\n@\t)".toList ∧
    ∃ p, (ofText "~;\n@\t)").parseAll.1 = .ok p ∧
      p.forms = [.ofList [.symbol ⟨"unquote", 1⟩, .symbol ⟨"@", 0⟩]] ∧
      ∃ err, p.failure = some (.read err) ∧ err.family = .structural ∧
        err.token?.map (fun tok => (tok.kind, tok.text)) = some (.closing .round, ")") := by
  have hlayout : Layout "~ @)".toList 0 apartSpans (.ok (endAt ⟨0, 4⟩)) := by
    have htext : "~ @)".toList = ['~', ' ', '@', ')'] := by decide
    rw [htext]
    exact apartSpans_layout
  have hrelaid : Relaid "~ @)".toList 0 apartSpans "~;\n@\t)".toList := by
    have htext : "~ @)".toList = ['~', ' ', '@', ')'] := by decide
    have htext' : "~;\n@\t)".toList = ['~', ';', '\n', '@', '\t', ')'] := by decide
    rw [htext, htext']
    exact apartSpans_relaid
  have hcut : CutInto {} "~ @)".toList (apartSpans.map Span.token) (.ok (endAt ⟨0, 4⟩)) :=
    .of_tokens (by decide +kernel)
  have hp : (ofText "~ @)").parseAll.1 = .ok
      ⟨[.ofList [.symbol ⟨"unquote", 1⟩, .symbol ⟨"@", 0⟩]], some (.read (.noForm
        { kind := .closing .round, text := ")", start := ⟨0, 3⟩, length := 1 }))⟩ := by
    rw [parseAll_fst, reading_ofText hcut]
    rfl
  obtain ⟨p, hp', hforms, -, hfailure⟩ := ((parseAll_relaid hlayout hrelaid).2 ∅).2.2 _ hp
  obtain ⟨err, herr, hfamily, -, htoken⟩ := hfailure _ rfl
  exact ⟨hlayout, hrelaid, p, hp', hforms, err, herr, hfamily, htoken⟩

end LispCore.Reader
