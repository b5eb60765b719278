import LispCore.Proofs.Reader.Fault
import LispCore.Proofs.Token.Relayout

/-!
Where the diagnostic of a text stands.

The failure that is reported shows at a token: the end of the text, or characters of it. `Extent`
says which characters these are, and how they can be told from the text alone.

* `Layout.liesIn`, `Closing.extent` — every token of a text has its characters there, and so has the
  one at which the lexer gives up;
* `Reader.failure_shown` — what stops the reading of a text shows at one of these, or at the end;
* `Position.IsAt.right_iff` — going right by a number of columns passes over as many characters
  exactly if no line ends among them;
* `Diagnostic.ofText_extent` — the main statement. A diagnostic goes right from the first character
  by as many columns as there are, so it ends where they end unless a line does before.
-/

namespace LispCore

/-! ### Going right -/

/-- The place some columns further right. -/
def Position.right (n : Nat) (p : Position) : Position := { p with column := p.column + n }

/-- **Going right passes over a text exactly if no line ends in it.** -/
theorem Position.IsAt.right_iff {p : Position} {before : List Char} (h : p.IsAt before)
    (raw : List Char) : (p.right raw.length).IsAt (before ++ raw) ↔ '\n' ∉ raw := by
  obtain ⟨hline, lines, last, rfl, hlast, hlines, hcolumn⟩ := h
  constructor
  · intro hright
    have hcount : p.line = (lines ++ last ++ raw).count '\n' := hright.line
    rw [List.count_append, ← hline] at hcount
    exact List.count_eq_zero.mp (by omega)
  · intro hraw
    refine ⟨?_, lines, last ++ raw, by simp, by simp [hlast, hraw], hlines, ?_⟩
    · rw [List.count_append, List.count_eq_zero.mpr hraw]
      exact hline
    · rw [Position.right, hcolumn, List.length_append]

/-! ### The characters of a token -/

/-- The token that an item of a source is, or shows at. -/
def shown? : Except Failure Token → Option Token
  | .ok tok => some tok
  | .error (.read err) => err.token?
  | .error _ => none

/-- `Extent tok before raw after`: a token, which is one of the text `before ++ raw ++ after` or the
one at which cutting it fails, has the characters `raw` there. They are as many as it says, it names
the place before them, and they alone are a text that is cut into it, or fails at it. -/
structure Extent (tok : Token) (before raw after : List Char) : Prop where
  shown : ∃ item ∈ tokens (String.ofList (before ++ raw ++ after)), shown? item = some tok
  start : tok.start.IsAt before
  length : tok.length = raw.length
  ne_nil : raw ≠ []
  not_end : tok.kind ≠ .endOfInput
  alone : ∃ item ∈ tokens (String.ofList raw), shown? item = some (tok.placed {})

section Cut

variable {cs : List Char} {o : Nat} {spans : List Span} {e : Except Failure Token}

/-- Every token of a layout lies in its text. -/
theorem Layout.liesIn (h : Layout cs o spans e) : ∀ s ∈ spans, s.LiesIn cs := by
  induction h with
  | closing _ => simp
  | token _ _ hs _ ih => exact List.forall_mem_cons.mpr ⟨hs, ih⟩

theorem Layout.exists_closing (h : Layout cs o spans e) : ∃ o', Closing cs o' e := by
  induction h with
  | closing h => exact ⟨_, h⟩
  | token _ _ _ _ ih => exact ih

/-- A token that lies in a text has its characters there. -/
theorem Span.LiesIn.extent {s : Span} (h : s.LiesIn cs)
    (hmem : .ok s.token ∈ tokens (String.ofList cs)) :
    Extent s.token (cs.take s.offset) (s.raw cs) (cs.drop s.stop) := by
  have htext : cs.take s.offset ++ s.raw cs ++ cs.drop s.stop = cs := by
    rw [List.append_assoc, ← s.drop_offset, List.take_append_drop]
  have hlength : (s.raw cs).length = s.token.length := by
    have hle := h.stop_le
    rw [Span.stop] at hle
    rw [Span.raw, List.length_take, List.length_drop]
    omega
  refine ⟨⟨_, by rwa [htext], rfl⟩, h.start, hlength.symm, ?_, h.not_end, ?_⟩
  · exact List.length_pos_iff.mp (hlength ▸ h.length_pos)
  · rw [h.alone]
    exact ⟨_, List.mem_cons_self, rfl⟩

/-- The token at which cutting a text fails has its characters there. -/
theorem Closing.extent {err : ReadError} (h : Closing cs o (.error (.read err)))
    (hmem : .error (.read err) ∈ tokens (String.ofList cs)) :
    ∃ tok before raw after, err.token? = some tok ∧ cs = before ++ raw ++ after ∧
      Extent tok before raw after := by
  cases h with
  | @unterminatedString o' body start hle hgap hcs hbody hstart =>
    have htext : cs.take o' ++ '"' :: body ++ [] = cs := by
      rw [List.append_nil, ← hcs, List.take_append_drop]
    refine ⟨_, cs.take o', '"' :: body, [], rfl, htext.symm, ?_⟩
    refine ⟨⟨_, by rwa [htext], rfl⟩, hstart, rfl, by simp, by simp, ?_⟩
    rw [tokens, String.toList_ofList, tokensFrom_unclosed hbody]
    exact ⟨_, List.mem_cons_self, rfl⟩
  | @malformedCharacter o' body rest start hle hgap hcs hbody hrest hchar hstart =>
    have htext : cs.take o' ++ '#' :: '\\' :: body ++ rest = cs := by
      rw [List.append_assoc, List.cons_append, List.cons_append, ← List.cons_append,
        ← List.cons_append, ← hcs, List.take_append_drop]
    rw [hcs] at hchar
    have hw : Lexeme.Written .atom ('#' :: '\\' :: body) rest :=
      .atom (by simp) (by simpa using ⟨by decide, by decide, hbody⟩) hrest hchar
    refine ⟨_, cs.take o', '#' :: '\\' :: body, rest, rfl, htext.symm, ?_⟩
    refine ⟨⟨_, by rwa [htext], rfl⟩, hstart, rfl, by simp, by simp, ?_⟩
    have hitems := tokensFrom_written hw.alone {}
    rw [List.append_nil] at hitems
    rw [tokens, String.toList_ofList, hitems]
    exact ⟨_, List.mem_cons_self, rfl⟩

end Cut

namespace Reader

/-- **What stops the reading of a text shows at characters of it, or at its end.** -/
theorem failure_shown {text : String} {t : SymbolTable} {err : ReadError}
    (hfailure : (ofText text t).reading.failure = some (.read err)) :
    ∃ tok, err.token? = some tok ∧ (tok = endAt (Position.advance {} text.toList) ∨
      ∃ before raw after, text.toList = before ++ raw ++ after ∧ Extent tok before raw after) := by
  obtain ⟨spans, last, htokens, hlayout, -⟩ := tokens_layout text
  have hcut : CutInto {} text.toList (spans.map Span.token) last :=
    .of_tokens (htokens.trans (by rw [List.map_map]; rfl))
  have htext : String.ofList text.toList = text := String.ofList_toList
  rw [reading_ofText hcut] at hfailure
  obtain hstop | ⟨-, ⟨-, err', herr, htok, -⟩ | ⟨rfl, -⟩⟩ :=
    Scan.finish_cases hcut.ends hfailure
  · -- A token of the text is refused.
    obtain ⟨before, tok, later, st, t', hspans, -, hstep⟩ := State.scan_failed hstop
    have hmem : tok ∈ spans.map Span.token := by simp [hspans]
    obtain ⟨err', he, hshown⟩ | ⟨-, he, -⟩ :=
      State.step_failed_cases (hcut.not_end tok hmem) hstep
    · cases he
      obtain ⟨s, hs, rfl⟩ := List.mem_map.mp hmem
      have hitem : .ok s.token ∈ tokens (String.ofList text.toList) := by
        rw [htext, htokens]
        exact List.mem_append_left _ (List.mem_map.mpr ⟨s, hs, rfl⟩)
      have hextent := (hlayout.liesIn s hs).extent hitem
      refine ⟨s.token, hshown, .inr ⟨_, _, _, ?_, hextent⟩⟩
      rw [List.append_assoc, ← s.drop_offset, List.take_append_drop]
    · cases he
  · cases herr
    exact ⟨_, htok, .inl rfl⟩
  · -- The text cannot be cut further.
    obtain ⟨o, hclosing⟩ := hlayout.exists_closing
    have hitem : .error (.read err) ∈ tokens (String.ofList text.toList) := by
      rw [htext, htokens]
      exact List.mem_append_right _ (List.mem_singleton_self _)
    obtain ⟨tok, before, raw, after, htok, hcs, hextent⟩ := hclosing.extent hitem
    exact ⟨tok, htok, .inr ⟨before, raw, after, hcs, hextent⟩⟩

/-- A failure that reading a text recovers from is one of these. -/
theorem failure_of_parsed {text : String} {t : SymbolTable} {forms : List Value} {e : Failure}
    (h : (ofText text t).parseAll.1 = .ok ⟨forms, some e⟩) :
    ∃ err, e = .read err ∧ ∃ tok, err.token? = some tok ∧
      (tok = endAt (Position.advance {} text.toList) ∨
        ∃ before raw after, text.toList = before ++ raw ++ after ∧
          Extent tok before raw after) := by
  have hfailure : (ofText text t).reading.failure = some e := by
    rw [parseAll_fst] at h
    exact (congrArg Parsed.failure (Reading.forms_of_parsed h)).symm
  obtain ⟨err, -, rfl, -⟩ | hfaults := failure_cases hfailure
  · exact ⟨err, rfl, failure_shown hfailure⟩
  · rw [(parseAll_eq_error_iff text t e).mpr hfaults] at h
    cases h

end Reader

namespace Diagnostic

/-- The diagnostic of a failure that shows at a token. -/
theorem ofFailure_read {err : ReadError} {tok : Token} (htok : err.token? = some tok) :
    ofFailure (.read err) = ⟨tok.start, tok.start.right (width tok), err.text⟩ := by
  simp only [ofFailure, htok]
  rfl

theorem width_endAt (p : Position) : width (endAt p) = 1 := rfl

/-- A token is as wide as it has characters. -/
theorem width_of_extent {tok : Token} {before raw after : List Char}
    (h : Extent tok before raw after) : width tok = raw.length := by
  have hpos := List.length_pos_iff.mpr h.ne_nil
  rw [width, h.length, if_neg (by omega)]
  omega

/-- There is one diagnostic, of a failure that shows at a token, or none. -/
theorem eq_of_mem_ofText {text : String} {ds : List Diagnostic} {d : Diagnostic}
    (h : ofText text = .ok ds) (hd : d ∈ ds) :
    ∃ forms e, (Reader.ofText text).parseAll.1 = .ok ⟨forms, some e⟩ ∧ ds = [d] ∧
      d = ofFailure e := by
  rw [ofText] at h
  cases hparsed : (Reader.ofText text).parseAll.1 with
  | error e =>
    rw [hparsed] at h
    cases h
  | ok p =>
    obtain ⟨forms, failure⟩ := p
    rw [hparsed] at h
    cases h
    cases failure with
    | none => cases hd
    | some e =>
      obtain rfl := List.mem_singleton.mp hd
      exact ⟨forms, e, rfl, rfl, rfl⟩

/-- **A diagnostic goes over the characters of the token that it is about.** A text has one
diagnostic at most. It gives the message of the failure that reading the text stops at, and starts
where the token of that failure does.

* At the end of the text it starts there and is one column wide.
* Any other token has characters in the text, before which the diagnostic starts. It is as many
  columns wide as they are, so it ends after them exactly if none of them ends a line. -/
theorem ofText_extent {text : String} {ds : List Diagnostic} {d : Diagnostic}
    (h : ofText text = .ok ds) (hd : d ∈ ds) :
    ds = [d] ∧ ∃ forms err tok,
      (Reader.ofText text).parseAll.1 = .ok ⟨forms, some (.read err)⟩ ∧
      err.token? = some tok ∧ d.message = err.text ∧ d.start = tok.start ∧
      ((tok = endAt d.start ∧ d.start.IsAt text.toList ∧ d.stop = d.start.right 1) ∨
        ∃ before raw after, text.toList = before ++ raw ++ after ∧ Extent tok before raw after ∧
          d.stop = d.start.right raw.length ∧ (d.stop.IsAt (before ++ raw) ↔ '\n' ∉ raw)) := by
  obtain ⟨forms, e, hparsed, rfl, rfl⟩ := eq_of_mem_ofText h hd
  refine ⟨rfl, ?_⟩
  obtain ⟨err, rfl, tok, htok, hplace⟩ := Reader.failure_of_parsed hparsed
  refine ⟨forms, err, tok, hparsed, htok, ?_⟩
  rw [ofFailure_read htok]
  refine ⟨rfl, rfl, ?_⟩
  obtain rfl | ⟨before, raw, after, htext, hextent⟩ := hplace
  · exact .inl ⟨rfl, Position.isAt_advance _, by rw [width_endAt]⟩
  · refine .inr ⟨before, raw, after, htext, hextent, ?_⟩
    rw [width_of_extent hextent]
    exact ⟨rfl, hextent.start.right_iff raw⟩

/-- The radix mark of an integer is covered with its digits, here of one that stands after the tail
of a list, on the second line of a text. -/
theorem ofText_extent_hexadecimal :
    ofText "(a\n . b 0x1f)" = .ok [⟨⟨1, 5⟩, ⟨1, 9⟩, "extra value in dotted pair"⟩] ∧
    ∃ before raw after, "(a\n . b 0x1f)".toList = before ++ raw ++ after ∧ raw.length = 4 ∧
      (⟨1, 5⟩ : Position).IsAt before ∧ (⟨1, 9⟩ : Position).IsAt (before ++ raw) := by
  have hcut : CutInto {} "(a\n . b 0x1f)".toList
      [{ kind := .opening .round, text := "(", length := 1 },
        { kind := .symbol, text := "a", start := ⟨0, 1⟩, length := 1 },
        { kind := .dot, text := ".", start := ⟨1, 1⟩, length := 1 },
        { kind := .symbol, text := "b", start := ⟨1, 3⟩, length := 1 },
        { kind := .integer .hexadecimal, text := "1f", start := ⟨1, 5⟩, length := 4 },
        { kind := .closing .round, text := ")", start := ⟨1, 9⟩, length := 1 }]
      (.ok (endAt ⟨1, 10⟩)) := .of_tokens (by decide +kernel)
  have h : ofText "(a\n . b 0x1f)" = .ok [⟨⟨1, 5⟩, ⟨1, 9⟩, "extra value in dotted pair"⟩] := by
    rw [ofText, Reader.parseAll_fst, Reader.reading_ofText hcut]
    rfl
  refine ⟨h, ?_⟩
  obtain ⟨-, forms, err, tok, -, -, -, hstart, ⟨-, -, hstop⟩ | ⟨before, raw, after, htext, hextent,
    hstop, hends⟩⟩ := ofText_extent h (List.mem_singleton_self _)
  · cases hstop
  · have hplace : (⟨1, 5⟩ : Position) = tok.start := hstart
    have hbefore : (⟨1, 5⟩ : Position).IsAt before := by
      rw [hplace]
      exact hextent.start
    -- The one line feed of the text stands before the token.
    have hline : 1 = before.count '\n' := hbefore.line
    have hcount : (before ++ raw ++ after).count '\n' = 1 := by
      rw [← htext]
      decide
    have hraw : '\n' ∉ raw := by
      rw [List.count_append, List.count_append] at hcount
      exact List.count_eq_zero.mp (by omega)
    have hcolumn : 9 = 5 + raw.length := congrArg Position.column hstop
    exact ⟨before, raw, after, htext, by omega, hbefore, hends.mpr hraw⟩

/-- A string that is not closed goes on over the end of a line. Its diagnostic does not: it stays in
the first line, four columns wide, though the four characters end in the second one. -/
theorem ofText_unclosed_lines :
    ofText "\"a\nb" = .ok [⟨⟨0, 0⟩, ⟨0, 4⟩, "Unterminated string"⟩] ∧
      (⟨1, 1⟩ : Position).IsAt "\"a\nb".toList ∧ ¬(⟨0, 4⟩ : Position).IsAt "\"a\nb".toList := by
  have hcut : CutInto {} "\"a\nb".toList [] (.error (.read (.unterminatedString
      { kind := .string, text := "\"a\nb", length := 4 }))) := .of_tokens (by decide +kernel)
  refine ⟨?_, Position.isAt_advance "\"a\nb".toList, ?_⟩
  · rw [ofText, Reader.parseAll_fst, Reader.reading_ofText hcut]
    rfl
  · intro h
    exact absurd h.line (by decide)

end Diagnostic

end LispCore
