import LispCore.Proofs.Diagnostic.Agreement
import LispCore.Proofs.Reader.EntryPoints
import LispCore.Proofs.Reader.RoundTrip

/-!
Programs that are saved line by line.

A file may hold the printed texts of some values, one a line, whatever ends the lines. Loading it
gives the values back, each from its own line. No value kind may put a line end into its text for
that: strings escape it, characters have names for it, and no atom holds a blank.

* `Text.Lined.normalize` — lines stay lines when all line ends are written as line feeds;
* `Value.Readable.oneLine` — the text of a readable value is one line;
* `CutInto.onLine` — the tokens of one line lie in it;
* `Reader.forms_lined`, `Reader.calls_lined` — lines of printed texts are read one a form;
* `SourceRoots.load_saved` — the main statement.
-/

namespace LispCore

namespace Text

/-! ### Lines -/

/-- A text within one line. -/
def OneLine (cs : List Char) : Prop := ∀ c ∈ cs, c ≠ '\n' ∧ c ≠ '\r'

theorem OneLine.append {xs ys : List Char} (hx : OneLine xs) (hy : OneLine ys) :
    OneLine (xs ++ ys) := List.forall_mem_append.mpr ⟨hx, hy⟩

instance (cs : List Char) : Decidable (OneLine cs) :=
  List.decidableBAll (fun c => c ≠ '\n' ∧ c ≠ '\r') cs

/-- What may end a line of a file. -/
def lineEnds : List (List Char) := [['\n'], ['\r'], ['\r', '\n']]

/-- `Lined ends lines text`: a text is some lines, each with one of some ends after it. The last
one may go without. -/
inductive Lined (ends : List (List Char)) : List (List Char) → List Char → Prop where
  | nil : Lined ends [] []
  | last {line} : Lined ends [line] line
  | line {line stop lines text} : stop ∈ ends → Lined ends lines text →
      Lined ends (line :: lines) (line ++ (stop ++ text))

variable {ends lines : List (List Char)} {text : List Char}

theorem Lined.head?_ne (h : Lined ends lines text) (hlines : ∀ l ∈ lines, l ≠ [] ∧ OneLine l) :
    text.head? ≠ some '\n' := by
  have hhead {line : List Char} (hline : line ≠ [] ∧ OneLine line) (more : List Char) :
      (line ++ more).head? ≠ some '\n' := by
    obtain ⟨hne, hone⟩ := hline
    cases line with
    | nil => exact absurd rfl hne
    | cons c line => simpa using (hone c List.mem_cons_self).1
  cases h with
  | nil => simp
  | last => simpa using hhead (hlines _ (by simp)) []
  | line => exact hhead (hlines _ (by simp)) _

/-- **Lines stay lines** when all line ends are written as line feeds. -/
theorem Lined.normalize (h : Lined lineEnds lines text)
    (hlines : ∀ l ∈ lines, l ≠ [] ∧ OneLine l) : Lined [['\n']] lines (normalizeNewlines text) := by
  have hline {line : List Char} (hone : OneLine line) : '\r' ∉ line :=
    fun hmem => (hone _ hmem).2 rfl
  induction h with
  | nil => exact .nil
  | last =>
    rw [normalizeNewlines_of_not_mem (hline (hlines _ (by simp)).2)]
    exact .last
  | @line line stop lines text hstop hlined ih =>
    obtain ⟨hfirst, hlines⟩ := List.forall_mem_cons.mp hlines
    have hreturn := hline hfirst.2
    have hlast : line.getLast? ≠ some '\r' := fun h => hreturn (List.mem_of_getLast? h)
    have hstopped : normalizeNewlines (stop ++ text) = ['\n'] ++ normalizeNewlines text := by
      simp only [lineEnds, List.mem_cons, List.not_mem_nil, or_false] at hstop
      rcases hstop with rfl | rfl | rfl
      · exact normalizeNewlines_cons_of_ne (by decide) text
      · -- A line feed right after the carriage return would belong to it.
        exact normalizeNewlines_cons fun _ => hlined.head?_ne hlines
      · rfl
    rw [normalizeNewlines_append fun h => absurd h hlast, normalizeNewlines_of_not_mem hreturn,
      hstopped]
    exact .line (by simp) (ih hlines)

/-- A character that separates no tokens ends no line. -/
theorem OneLine.of_not_delimiter {cs : List Char} (h : ∀ c ∈ cs, isDelimiter c = false) :
    OneLine cs := by
  intro c hc
  constructor
  · rintro rfl
    exact absurd (h _ hc) (by decide)
  · rintro rfl
    exact absurd (h _ hc) (by decide)

end Text

open Text

/-! ### Printed texts -/

theorem StringLiteral.oneLine_escape (c : Char) : OneLine (escape c) := by
  unfold escape
  split
  all_goals first
    | decide
    | next hnewline _ hreturn _ => exact List.forall_mem_singleton.mpr ⟨hnewline, hreturn⟩

theorem StringLiteral.oneLine_encode (cs : List Char) : OneLine (encode cs) := by
  have hbody : OneLine (cs.flatMap escape) := by
    intro d hd
    obtain ⟨c, -, hc⟩ := List.mem_flatMap.mp hd
    exact oneLine_escape c d hc
  have hquote : OneLine ['"'] := by decide
  exact (hquote.append hbody).append hquote

theorem oneLine_characterLiteral (c : Char) : OneLine (characterLiteral c) := by
  unfold characterLiteral characterName?
  split
  all_goals first
    | decide
    | next _ hnewline _ hreturn =>
      have hmark : OneLine ['#', '\\'] := by decide
      exact hmark.append (List.forall_mem_singleton.mpr ⟨hnewline, hreturn⟩)

namespace Value

variable {t : SymbolTable} {v : Value} {items : List Value}

theorem Readable.chars_ne_nil (h : v.Readable t) : v.chars ≠ [] := by
  cases h with
  | @bool b => cases b <;> decide
  | @int n => exact (isAtom_intText n).ne_nil
  | @float negative rank => exact (isAtom_floatText negative rank).ne_nil
  | symbol _ hatom => exact hatom.ne_nil
  | _ => exact List.cons_ne_nil _ _

theorem oneLine_itemChars (h : ∀ v ∈ items, OneLine v.chars) : OneLine (itemChars items) := by
  induction items with
  | nil => simp [itemChars, OneLine]
  | cons x xs ih =>
    obtain ⟨hx, hxs⟩ := List.forall_mem_cons.mp h
    cases xs with
    | nil => exact hx
    | cons y ys =>
      have hspace : OneLine [' '] := by decide
      exact hx.append (hspace.append (ih hxs))

/-- **The text of a readable value is one line**, and so is the rest of a list that ends in it. -/
theorem Readable.oneLine (h : v.Readable t) : OneLine v.chars ∧ OneLine (tailChars v) := by
  have hopen : OneLine ['('] := by decide
  have hclose : OneLine [')'] := by decide
  have hspace : OneLine [' '] := by decide
  have hdot : OneLine [' ', '.', ' '] := by decide
  have hleaf {v : Value} (hv : OneLine v.chars)
      (htail : tailChars v = [' ', '.', ' '] ++ (v.chars ++ [')'])) :
      OneLine v.chars ∧ OneLine (tailChars v) :=
    ⟨hv, htail ▸ hdot.append (hv.append hclose)⟩
  induction h with
  | null => exact ⟨hopen.append hclose, hclose⟩
  | @bool b => exact hleaf (by cases b <;> decide) rfl
  | @int n => exact hleaf (.of_not_delimiter (isAtom_intText n).plain) rfl
  | @float negative rank =>
    exact hleaf (.of_not_delimiter (isAtom_floatText negative rank).plain) rfl
  | @str s => exact hleaf (StringLiteral.oneLine_encode s.toList) rfl
  | @char c => exact hleaf (oneLine_characterLiteral c) rfl
  | symbol _ hatom => exact hleaf (.of_not_delimiter hatom.plain) rfl
  | array _ ih =>
    have hsquare : OneLine ['['] ∧ OneLine [']'] := by decide
    have hitems := oneLine_itemChars fun v hv => (ih v hv).1
    refine hleaf (hsquare.1.append (hitems.append hsquare.2)) ?_
    simp [tailChars, chars]
  | pair _ _ ihHead ihTail =>
    have hboth := ihHead.1.append ihTail.2
    exact ⟨hopen.append hboth, hspace.append hboth⟩

end Value

/-! ### Tokens of a line -/

/-- A text within one line ends on that line, as far to the right as it is long. -/
theorem Position.advance_oneLine {cs : List Char} (h : OneLine cs) (p : Position) :
    p.advance cs = p.right cs.length := by
  induction cs generalizing p with
  | nil => rfl
  | cons c cs ih =>
    obtain ⟨hc, hcs⟩ := List.forall_mem_cons.mp h
    have hnext : p.next c = p.right 1 := if_neg hc.1
    have hrest := ih hcs (p.right 1)
    rw [Position.advance, List.foldl_cons, hnext]
    refine hrest.trans ?_
    simp [Position.right, Nat.add_assoc, Nat.add_comm 1]

/-- A token lies on a line, not further right than some column. -/
structure Token.OnLine (tok : Token) (line stop : Nat) : Prop where
  line : tok.start.line = line
  stop_le : tok.start.column + tok.length ≤ stop

/-- **The tokens of one line lie in it.** -/
theorem CutInto.onLine {p : Position} {cs : List Char} {toks : List Token}
    {last : Except Failure Token} (h : CutInto p cs toks last) (hcs : OneLine cs) :
    ∀ tok ∈ toks, tok.OnLine p.line (p.column + cs.length) := by
  induction cs using Lexeme.induction_on generalizing p toks last with
  | nil =>
    obtain ⟨rfl, -⟩ := (CutInto.nil p).unique h.tokens_eq
    simp
  | lexeme form raw rest hw ih =>
    obtain ⟨hraw, hrest⟩ := List.forall_mem_append.mp hcs
    obtain ⟨toks', last', h'⟩ := exists_cutInto (p.advance raw) rest
    have htoks := ih h' hrest
    rw [Position.advance_oneLine hraw] at htoks
    have hline : ∀ tok ∈ toks', tok.OnLine p.line (p.column + (raw ++ rest).length) := by
      intro tok hmem
      obtain ⟨hline, hstop⟩ := htoks tok hmem
      exact ⟨hline, by simpa [Position.right, Nat.add_assoc] using hstop⟩
    cases htok : Lexeme.token? ⟨form, raw, rest⟩ p with
    | error e =>
      obtain ⟨rfl, -⟩ := (CutInto.failed hw htok).unique h.tokens_eq
      simp
    | ok o =>
      cases o with
      | none =>
        have hgap := h'.gap (by rw [tokensFrom_written hw, htok])
        obtain ⟨rfl, -⟩ := hgap.unique h.tokens_eq
        exact hline
      | some tok =>
        obtain ⟨rfl, -⟩ := (CutInto.token hw htok h').unique h.tokens_eq
        obtain ⟨hstart, hlength, -⟩ := hw.token? htok
        refine List.forall_mem_cons.mpr ⟨⟨congrArg Position.line hstart, ?_⟩, hline⟩
        rw [hstart, hlength, List.length_append]
        omega
  | unclosed body hbody =>
    obtain ⟨e, hfailed⟩ := CutInto.unclosed hbody p
    obtain ⟨rfl, -⟩ := hfailed.unique h.tokens_eq
    simp

/-- A text that is cut to its end is cut so too where a line ends after it. -/
theorem Cuts.newline {p : Position} {cs more : List Char} {toks : List Token}
    (h : Cuts p cs [] toks) (hmore : ∀ c ∈ more.head?, c = '\n') :
    CutInto p cs toks (.ok (endAt (p.advance cs))) ∧ Cuts p cs more toks := by
  have halone := h.tokens
  rw [List.append_nil, tokensFrom_nil] at halone
  obtain ⟨toks', last', toks'', last'', hcut, hwhole, hnext⟩ := exists_cutInto_append hmore p cs
  obtain ⟨rfl, rfl⟩ := hcut.unique halone
  have hafter := hnext ⟨_, rfl⟩
  refine ⟨hcut, ?_, h.regular⟩
  rw [hwhole.tokens_eq, hafter.tokens_eq, List.map_append, List.append_assoc]

/-! ### Reading line by line -/

namespace Reader

/-- `TakesLine line v r r'`: reading a form gives a value and takes nothing but tokens of one line,
within the columns of the text of the value. -/
structure TakesLine (line : Nat) (v : Value) (r r' : Reader) : Prop where
  form : r.form = (.ok (some v.unlabel), r')
  symbols : r'.symbols = r.symbols
  tokens : ∃ (toks : List Token) (rest : TokenSource), r.stream = .ofSource (toks.map .ok ++ rest) ∧
    r'.stream = .ofSource rest ∧ ∀ tok ∈ toks, tok.OnLine line v.chars.length

/-- `TakesLines line vs r r'`: from some line on, every line is read as one value, up to the end of
the input. -/
inductive TakesLines : Nat → List Value → Reader → Reader → Prop where
  | nil {line r r'} : r.form = (.ok none, r') → r'.symbols = r.symbols → TakesLines line [] r r'
  | cons {line v vs r r₁ r'} : TakesLine line v r r₁ → TakesLines (line + 1) vs r₁ r' →
      TakesLines line (v :: vs) r r'

variable {t : SymbolTable} {v : Value} {vs : List Value} {line : Nat} {r r' : Reader}

/-- The forms of a program are the values of its lines, and no name is new. -/
theorem TakesLines.forms (h : TakesLines line vs r r') :
    r.forms = (vs.map Value.unlabel, none, r') ∧ r'.symbols = r.symbols := by
  induction h with
  | nil hform hsymbols => exact ⟨forms_of_none hform, hsymbols⟩
  | cons hv _ ih =>
    refine ⟨?_, ih.2.trans hv.symbols⟩
    rw [forms_of_form hv.form, ih.1]
    rfl

/-- Each call for the next form takes the next line. -/
theorem TakesLines.takesLine (h : TakesLines line vs r r') {i : Nat} (hi : vs[i]? = some v) :
    TakesLine (line + i) v (r.calls i).2 (r.calls (i + 1)).2 := by
  induction h generalizing i with
  | nil => cases hi
  | cons hv _ ih =>
    rw [calls_succ hv.form]
    cases i with
    | zero =>
      cases hi
      exact hv
    | succ i =>
      have hnext := ih hi
      rw [calls_succ hv.form]
      rwa [Nat.add_right_comm] at hnext

/-- At the start of a line, the printed text of a readable value is read as that value. -/
theorem takesLine_printed (h : v.Readable t) (line : Nat) (rest : List Char)
    (hrest : ∀ c ∈ rest.head?, c = '\n') :
    TakesLine line v ⟨.ofSource (tokensFrom ⟨line, 0⟩ (v.chars ++ rest)), t⟩
      ⟨.ofSource (tokensFrom ⟨line, v.chars.length⟩ rest), t⟩ := by
  obtain ⟨toks, hcuts, hexpr⟩ := h.reads_tail.1 ⟨line, 0⟩ [] rfl
  obtain ⟨hcut, hmore⟩ := hcuts.newline hrest
  have hstop : Position.advance ⟨line, 0⟩ v.chars = ⟨line, v.chars.length⟩ := by
    rw [Position.advance_oneLine h.oneLine.1]
    simp [Position.right]
  have htokens := hmore.tokens
  rw [hstop] at htokens
  refine ⟨?_, rfl, toks, _, ?_, rfl, ?_⟩
  · rw [htokens]
    exact form_of_expr hmore.regular hexpr _
  · rw [htokens]
  · simpa using hcut.onLine h.oneLine.1

/-- **Lines of printed texts are read one a form.** -/
theorem takesLines_printed {cs : List Char} (hvs : ∀ v ∈ vs, v.Readable t)
    (hcs : Lined [['\n']] (vs.map Value.chars) cs) (line : Nat) :
    ∃ r', TakesLines line vs ⟨.ofSource (tokensFrom ⟨line, 0⟩ cs), t⟩ r' := by
  have hend (p : Position) (line : Nat) :
      ∃ r', TakesLines line [] ⟨.ofSource (tokensFrom p []), t⟩ r' := by
    obtain ⟨r', hforms, hsymbols⟩ := forms_end p t
    exact ⟨r', .nil (form_of_forms_nil hforms) hsymbols⟩
  generalize hlines : vs.map Value.chars = lines at hcs
  induction hcs generalizing vs line with
  | nil =>
    obtain rfl := List.map_eq_nil_iff.mp hlines
    exact hend _ line
  | last =>
    obtain ⟨v, vs, rfl, rfl, hnil⟩ := List.map_eq_cons_iff.mp hlines
    obtain rfl := List.map_eq_nil_iff.mp hnil
    have hv := takesLine_printed (hvs v (by simp)) line [] (by simp)
    rw [List.append_nil] at hv
    obtain ⟨r', hr'⟩ := hend ⟨line, v.chars.length⟩ (line + 1)
    exact ⟨r', .cons hv hr'⟩
  | @line _ stop lines text hstop _ ih =>
    obtain ⟨v, vs, rfl, rfl, hmore⟩ := List.map_eq_cons_iff.mp hlines
    obtain ⟨hv, hvs⟩ := List.forall_mem_cons.mp hvs
    obtain rfl := List.mem_singleton.mp hstop
    obtain ⟨r', hr'⟩ := ih hvs (line + 1) hmore
    have htakes := takesLine_printed hv line (['\n'] ++ text) (by simp)
    -- The line feed only moves the place to the start of the next line.
    rw [tokensFrom_blanks (List.forall_mem_singleton.mpr rfl)] at htakes
    exact ⟨r', .cons htakes hr'⟩

/-- **A text of printed lines is read one line a form.** -/
theorem takesLines_ofText {text : String} (hvs : ∀ v ∈ vs, v.Readable t)
    (htext : Lined [['\n']] (vs.map (·.print.toList)) text.toList) :
    ∃ r', TakesLines 0 vs (ofText text t) r' := by
  have hprint : vs.map (·.print.toList) = vs.map Value.chars :=
    List.map_congr_left fun v _ => String.toList_ofList
  rw [hprint] at htext
  exact takesLines_printed hvs htext 0

end Reader

/-! ### Files -/

namespace SourceRoots

variable {roots : SourceRoots} {name : String} {path : Path} {text : String} {t : SymbolTable}
  {vs : List Value}

/-- **Saved programs load back.** Let a file hold the printed texts of readable values, one a line,
whatever ends the lines.

* No text holds a line end.
* Loading the file gives the values, with no failure and no new name.
* The text that it is loaded from has the same lines, and each form is read from its own line
  only. -/
theorem load_saved (hpath : roots.resolve name = .ok (some path))
    (hfile : roots.files.contents? path = some text.toUTF8) (hvs : ∀ v ∈ vs, v.Readable t)
    (htext : Lined lineEnds (vs.map (·.print.toList)) text.toList) :
    (∀ v ∈ vs, OneLine v.print.toList) ∧
    roots.load name t = (.ok ⟨vs.map Value.unlabel, none⟩, t) ∧
    ∃ text', roots.text name = .ok text' ∧
      Lined [['\n']] (vs.map (·.print.toList)) text'.toList ∧
      ∀ i v, vs[i]? = some v → Reader.TakesLine i v
        ((Reader.ofText text' t).calls i).2 ((Reader.ofText text' t).calls (i + 1)).2 := by
  have hprint (v : Value) : v.print.toList = v.chars := String.toList_ofList
  have hone : ∀ v ∈ vs, OneLine v.print.toList := by
    intro v hv
    rw [hprint]
    exact (hvs v hv).oneLine.1
  have hlines : ∀ l ∈ vs.map (·.print.toList), l ≠ [] ∧ OneLine l := by
    intro l hl
    obtain ⟨v, hv, rfl⟩ := List.mem_map.mp hl
    refine ⟨?_, hone v hv⟩
    rw [hprint]
    exact (hvs v hv).chars_ne_nil
  have hlined := htext.normalize hlines
  rw [← String.toList_ofList (l := normalizeNewlines text.toList)] at hlined
  obtain ⟨r', htakes⟩ := Reader.takesLines_ofText hvs hlined
  obtain ⟨hforms, hsymbols⟩ := htakes.forms
  have hname := text_of_toUTF8 hpath hfile
  refine ⟨hone, ?_, _, hname, hlined, ?_⟩
  · rw [load, hname]
    dsimp only
    rw [Reader.parseAll, hforms]
    exact congrArg _ hsymbols
  · intro i v hi
    have hline := htakes.takesLine hi
    rwa [Nat.zero_add] at hline

/-- A list with both line ends in its string, a character that is one, and an empty array. -/
def savedValues : List Value :=
  [.cons (.symbol ⟨"ab", 0⟩) (.str "\r\n"), .char '\r', .array []]

/-- The texts of `savedValues`, with each line end once. -/
def savedText : String := "(ab . \"\\r\\n\")\r#\\return\r\n[]\n"

/-- Three values are loaded from a file with all three line ends, the second from the second
line. -/
theorem load_saved_mixedEnds :
    (ofContents savedText).resolve "a.lisp" = .ok (some ⟨.relative, ["a.lisp"]⟩) ∧
    (ofContents savedText).files.contents? ⟨.relative, ["a.lisp"]⟩ = some savedText.toUTF8 ∧
    (∀ v ∈ savedValues, v.Readable Reader.printedNames) ∧
    Lined lineEnds (savedValues.map (·.print.toList)) savedText.toList ∧
    (ofContents savedText).load "a.lisp" Reader.printedNames =
      (.ok ⟨savedValues, none⟩, Reader.printedNames) ∧
    ∃ text', (ofContents savedText).text "a.lisp" = .ok text' ∧
      Reader.TakesLine 1 (.char '\r') ((Reader.ofText text' Reader.printedNames).calls 1).2
        ((Reader.ofText text' Reader.printedNames).calls 2).2 := by
  have hvs : ∀ v ∈ savedValues, v.Readable Reader.printedNames := by
    intro v hv
    simp only [savedValues, List.mem_cons, List.not_mem_nil, or_false] at hv
    rcases hv with rfl | rfl | rfl
    · exact .pair (.symbol (by decide) (by decide) (by decide)) .str
    · exact .char
    · exact .array (by simp)
  have hlast : Lined lineEnds ["[]".toList] ("[]".toList ++ (['\n'] ++ [])) :=
    .line (by decide) .nil
  have htext : Lined lineEnds (savedValues.map (·.print.toList)) savedText.toList :=
    @Lined.line _ "(ab . \"\\r\\n\")".toList ['\r'] _ _ (by decide)
      (@Lined.line _ "#\\return".toList ['\r', '\n'] _ _ (by decide) hlast)
  obtain ⟨-, hload, text', hname, -, hlines⟩ :=
    load_saved (resolve_ofContents _) (contents?_ofContents _) hvs htext
  exact ⟨rfl, rfl, hvs, htext, hload, text', hname, hlines 1 _ rfl⟩

end SourceRoots

end LispCore
