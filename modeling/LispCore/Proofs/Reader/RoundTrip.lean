import LispCore.Proofs.Reader.Acceptance
import LispCore.Proofs.Value.Readable
import LispCore.Reader.Program
import LispCore.Value.Printer

/-!
What is printed is read back.

* `Readable.reads_tail` — the printed text of a readable value is cut into the tokens of a form that
  denotes it, wherever a delimiter or the end of the text follows;
* `readAll_printed` — texts of readable values with blanks between them are read as those values,
  and no name is new.
-/

namespace LispCore

/-! ### Texts cut into tokens -/

/-- `Cuts p cs rest toks`: a text that starts at a place is cut into regular tokens, and what
follows it is cut on its own. -/
structure Cuts (p : Position) (cs rest : List Char) (toks : List Token) : Prop where
  tokens : tokensFrom p (cs ++ rest) = toks.map .ok ++ tokensFrom (p.advance cs) rest
  regular : ∀ tok ∈ toks, tok.Regular

namespace Cuts

variable {p : Position} {cs ds rest : List Char} {xs ys : List Token}

theorem append (h : Cuts p cs (ds ++ rest) xs) (h' : Cuts (p.advance cs) ds rest ys) :
    Cuts p (cs ++ ds) rest (xs ++ ys) := by
  refine ⟨?_, List.forall_mem_append.mpr ⟨h.regular, h'.regular⟩⟩
  rw [List.append_assoc, h.tokens, h'.tokens, List.map_append, List.append_assoc,
    Position.advance_append]

theorem blanks (h : ∀ c ∈ cs, Text.isBlank c = true) : Cuts p cs rest [] :=
  ⟨tokensFrom_blanks h p rest, by simp⟩

theorem space : Cuts p [' '] rest [] := blanks (List.forall_mem_singleton.mpr rfl)

theorem token {form : LexemeForm} {tok : Token} (h : Lexeme.Written form cs rest)
    (htok : Lexeme.token? ⟨form, cs, rest⟩ p = .ok (some tok)) (hreg : tok.Regular) :
    Cuts p cs rest [tok] := by
  refine ⟨?_, by simpa using hreg⟩
  rw [tokensFrom_written h, htok]
  rfl

/-- A mark is a token by itself, whatever follows. -/
theorem mark {c : Char} {kind : TokenKind} (h : markKind? c = some kind) (hc : c ≠ '~')
    (p : Position) (rest : List Char) : ∃ tok, tok.kind = kind ∧ Cuts p [c] rest [tok] := by
  have hkind := Lexeme.isMark_of_markKind? h
  have hend : kind ≠ .endOfInput := TokenKind.ne_of_isMark hkind rfl
  have hinteger : kind ≠ .integer .decimal := TokenKind.ne_of_isMark hkind rfl
  exact ⟨_, rfl, token (.mark h fun hmark => hc hmark.1) rfl
    ⟨hend, fun hdecimal => absurd hdecimal hinteger⟩⟩

/-- An atom is a token of its kind, with the text that its kind gives it. -/
theorem atom {kind : TokenKind} {text : List Char} (h : IsAtom cs)
    (hclass : classifyAtom cs = (kind, text)) (hrest : startsDelimited rest = true) (p : Position)
    (hdigits : kind = .integer .decimal →
      text.countP Radix.decimal.isDigit ≤ maxDecimalDigits) :
    ∃ tok, tok.kind = kind ∧ tok.text.toList = text ∧ Cuts p cs rest [tok] := by
  have htok := @IsAtom.token? cs rest h p
  have hend := Lexeme.classifyAtom_ne_endOfInput cs
  rw [hclass] at htok hend
  refine ⟨_, ?_, ?_, token (h.written hrest) htok ⟨hend, ?_⟩⟩
  · rfl
  · exact String.toList_ofList
  · intro hkind
    rw [String.toList_ofList]
    exact hdigits hkind

end Cuts

/-! ### Texts that are read as one value -/

namespace Value

open Reader

variable {t : SymbolTable} {v : Value} {cs : List Char}

/-- `Reads t cs v`: a text is the tokens of a form that denotes a value, where a delimiter or the
end of the text follows it, and all its names are known. -/
def Reads (t : SymbolTable) (cs : List Char) (v : Value) : Prop :=
  ∀ p rest, startsDelimited rest = true → ∃ toks, Cuts p cs rest toks ∧ Expr toks t v t

/-- A text that is one atom is read as the value of its token. -/
theorem Reads.of_atom {kind : TokenKind} {text : List Char} (h : IsAtom cs)
    (hclass : classifyAtom cs = (kind, text))
    (hdigits : kind = .integer .decimal → text.countP Radix.decimal.isDigit ≤ maxDecimalDigits)
    (hvalue : ∀ tok : Token, tok.kind = kind → tok.text.toList = text → Atomic tok t v t) :
    Reads t cs v := by
  intro p rest hrest
  obtain ⟨tok, hkind, htext, hcuts⟩ := Cuts.atom h hclass hrest p hdigits
  exact ⟨[tok], hcuts, .atomic (hvalue tok hkind htext)⟩

theorem Reads.bool (b : Bool) : Reads t (leafChars (.bool b)) (.bool b) := by
  have hclass : classifyAtom (leafChars (.bool b)) = (.bool, leafChars (.bool b)) := by
    cases b <;> decide
  refine .of_atom (by cases b <;> decide) hclass (by simp) ?_
  intro tok hkind htext
  have hb : (tok.text == "true") = b := by
    rw [← String.ofList_toList (s := tok.text), htext]
    cases b <;> decide
  rw [← hb]
  exact .bool hkind

theorem Reads.int {n : Int} (hmin : minInt ≤ n) (hmax : n ≤ maxInt) :
    Reads t (intText n) (.int n) := by
  refine .of_atom (isAtom_intText n) (classifyAtom_intText n) ?_ ?_
  · intro _
    exact countP_intText_le hmin hmax
  intro tok hkind htext
  exact .integer hkind (htext ▸ spells_intText n) hmin hmax

theorem Reads.float (negative : Bool) (rank : Fin Binary64.rankCount) :
    Reads t (Binary64.finite negative rank).text (.float (.finite negative rank)) := by
  refine .of_atom (isAtom_floatText negative rank) (classifyAtom_floatText negative rank) (by simp)
    ?_
  intro tok hkind htext
  exact .float hkind (readFloat_text htext)

theorem Reads.symbol {s : Symbol} (hs : t.find? s.name = some s) (hatom : IsAtom s.name.toList)
    (hkind : (classifyAtom s.name.toList).1 = .symbol) : Reads t s.name.toList (.symbol s) := by
  refine .of_atom hatom (classifyAtom_symbol hkind) (by simp) ?_
  intro tok hkind htext
  have hsymbol := Atomic.symbol (t := t) hkind
  rwa [String.toList_inj.mp htext, SymbolTable.intern_of_find? hs] at hsymbol

/-- The text between the quotes of a printed string. -/
theorem stringBody_escape (cs : List Char) : StringBody (cs.flatMap StringLiteral.escape) := by
  induction cs with
  | nil => exact .nil
  | cons c cs ih =>
    rw [List.flatMap_cons]
    rcases StringLiteral.escape_eq c with ⟨h, hback, hquote⟩ | ⟨d, h, -⟩ <;> rw [h]
    · exact .plain hback hquote ih
    · exact .escaped ih

theorem Reads.str (s : String) : Reads t (StringLiteral.encode s.toList) (.str s) := by
  intro p rest _
  have htoken : Lexeme.token? ⟨.string, StringLiteral.encode s.toList, rest⟩ p =
      .ok (some { kind := .string, text := s, start := p,
                  length := (StringLiteral.encode s.toList).length }) := by
    simp [Lexeme.token?]
  exact ⟨_, Cuts.token (.string (stringBody_escape s.toList)) htoken ⟨by simp, by simp⟩,
    .atomic (.string rfl)⟩

/-- What stands after the mark of a printed character is a character or its name. -/
theorem characterBody_name (c : Char) : CharacterBody ((characterName? c).getD [c]) ∧
    characterValue? ((characterName? c).getD [c]) = some c := by
  unfold characterName?
  split
  all_goals first | decide | exact ⟨.inl rfl, rfl⟩

theorem Reads.char (c : Char) : Reads t (characterLiteral c) (.char c) := by
  intro p rest hrest
  obtain ⟨hbody, hvalue⟩ := characterBody_name c
  have htoken : Lexeme.token? ⟨.character, characterLiteral c, rest⟩ p =
      .ok (some { kind := .char, text := String.ofList [c], start := p,
                  length := (characterLiteral c).length }) := by
    simp [Lexeme.token?, characterLiteral, hvalue]
  exact ⟨_, Cuts.token (.character hbody hrest) htoken ⟨by simp, by simp⟩,
    .atomic (.char rfl String.toList_ofList)⟩

/-! ### Brackets -/

/-- `ListEnd t toks v`: the tokens end a list after an element; what they add to it is `v`. -/
inductive ListEnd (t : SymbolTable) : List Token → Value → Prop where
  | null {cl} : cl.kind = .closing .round → ListEnd t [cl] .null
  | dotted {dot toks cl v} : dot.kind = .dot → Expr toks t v t → cl.kind = .closing .round →
      ListEnd t (dot :: (toks ++ [cl])) v
  | cons {xs ys head tail} : Expr xs t head t → ListEnd t ys tail →
      ListEnd t (xs ++ ys) (.cons head tail)

/-- The end of a list closes the elements before it. -/
theorem ListEnd.expr {op : Token} {xs ys : List Token} {vs : List Value} (h : ListEnd t ys v)
    (hop : op.kind = .opening .round) (hvs : Exprs xs t vs t) (hne : vs ≠ []) :
    Expr (op :: (xs ++ ys)) t (.ofList vs v) t := by
  induction h generalizing xs vs with
  | null hcl => exact .list hop hvs hcl
  | dotted hdot hv hcl => exact .dotted hop hvs hne hdot hv hcl
  | cons hhead _ ih =>
    have hexpr := ih (hvs.snoc hhead) (by simp)
    rwa [List.append_assoc, ofList_append] at hexpr

/-- What is printed after an element of a list ends that list. -/
def ReadsTail (t : SymbolTable) (v : Value) : Prop :=
  ∀ p rest, ∃ toks, Cuts p (tailChars v) rest toks ∧ ListEnd t toks v.unlabel

theorem Reads.null : Reads t ['(', ')'] .null := by
  intro p rest _
  obtain ⟨op, hop, hcuts⟩ := Cuts.mark (c := '(') rfl (by decide) p (')' :: rest)
  obtain ⟨cl, hcl, hcuts'⟩ := Cuts.mark (c := ')') rfl (by decide) (p.advance ['(']) rest
  have hboth := hcuts.append hcuts'
  exact ⟨[op, cl], hboth, .list hop .nil hcl⟩

theorem ReadsTail.null : ReadsTail t .null := by
  intro p rest
  obtain ⟨cl, hcl, hcuts⟩ := Cuts.mark (c := ')') rfl (by decide) p rest
  exact ⟨[cl], hcuts, .null hcl⟩

/-- A list that ends in a value is printed with a dot before it. -/
theorem Reads.tail (h : Reads t v.chars v.unlabel)
    (htail : tailChars v = [' '] ++ (['.'] ++ ([' '] ++ (v.chars ++ [')'])))) : ReadsTail t v := by
  intro p rest
  have hdotAtom : IsAtom ['.'] := by decide
  have hdelim : startsDelimited ([' '] ++ (v.chars ++ [')']) ++ rest) = true := rfl
  obtain ⟨dot, hdot, -, hcutsDot⟩ := Cuts.atom hdotAtom rfl hdelim (p.advance [' ']) (by simp)
  obtain ⟨toks, hcuts, hexpr⟩ := h (((p.advance [' ']).advance ['.']).advance [' '])
    ([')'] ++ rest) rfl
  obtain ⟨cl, hcl, hcutsClose⟩ := Cuts.mark (c := ')') rfl (by decide) _ rest
  rw [htail]
  refine ⟨dot :: (toks ++ [cl]), ?_, .dotted hdot hexpr hcl⟩
  exact Cuts.space.append (hcutsDot.append (Cuts.space.append (hcuts.append hcutsClose)))

theorem startsDelimited_tailChars (v : Value) (rest : List Char) :
    startsDelimited (tailChars v ++ rest) = true := by
  cases v <;> rfl

/-- A pair is printed in brackets. -/
theorem Reads.pair {cell : Option Nat} {head tail : Value} (h : Reads t head.chars head.unlabel)
    (htail : ReadsTail t tail) :
    Reads t (Value.pair cell head tail).chars (Value.pair cell head tail).unlabel := by
  intro p rest _
  obtain ⟨op, hop, hcutsOpen⟩ := Cuts.mark (c := '(') rfl (by decide) p
    (head.chars ++ tailChars tail ++ rest)
  obtain ⟨xs, hcutsHead, hexpr⟩ := h (p.advance ['(']) (tailChars tail ++ rest)
    (startsDelimited_tailChars tail rest)
  obtain ⟨ys, hcutsTail, hend⟩ := htail ((p.advance ['(']).advance head.chars) rest
  have hcuts := hcutsOpen.append (hcutsHead.append hcutsTail)
  exact ⟨op :: (xs ++ ys), hcuts, hend.expr hop (.single hexpr) (by simp)⟩

/-- A pair in the tail of a list is printed as one more element. -/
theorem ReadsTail.pair {cell : Option Nat} {head tail : Value}
    (h : Reads t head.chars head.unlabel) (htail : ReadsTail t tail) :
    ReadsTail t (.pair cell head tail) := by
  intro p rest
  obtain ⟨xs, hcutsHead, hexpr⟩ := h (p.advance [' ']) (tailChars tail ++ rest)
    (startsDelimited_tailChars tail rest)
  obtain ⟨ys, hcutsTail, hend⟩ := htail ((p.advance [' ']).advance head.chars) rest
  exact ⟨xs ++ ys, Cuts.space.append (hcutsHead.append hcutsTail), .cons hexpr hend⟩

/-- The items of an array are printed with a space between two. -/
theorem cuts_items {items : List Value} (h : ∀ v ∈ items, Reads t v.chars v.unlabel) (p : Position)
    {rest : List Char} (hrest : startsDelimited rest = true) :
    ∃ toks, Cuts p (itemChars items) rest toks ∧ Exprs toks t (items.map unlabel) t := by
  induction items generalizing p with
  | nil => exact ⟨[], .blanks (by simp [itemChars]), .nil⟩
  | cons x xs ih =>
    obtain ⟨hx, hxs⟩ := List.forall_mem_cons.mp h
    cases xs with
    | nil =>
      obtain ⟨toks, hcuts, hexpr⟩ := hx p rest hrest
      exact ⟨toks, hcuts, .single hexpr⟩
    | cons y ys =>
      obtain ⟨toks, hcuts, hexpr⟩ := hx p ([' '] ++ itemChars (y :: ys) ++ rest) rfl
      obtain ⟨toks', hcuts', hexprs⟩ := ih hxs ((p.advance x.chars).advance [' '])
      exact ⟨toks ++ toks', hcuts.append (Cuts.space.append hcuts'), .cons hexpr hexprs⟩

theorem Reads.array {items : List Value} (h : ∀ v ∈ items, Reads t v.chars v.unlabel) :
    Reads t (Value.array items).chars (Value.array items).unlabel := by
  intro p rest _
  obtain ⟨op, hop, hcutsOpen⟩ := Cuts.mark (c := '[') rfl (by decide) p
    (itemChars items ++ [']'] ++ rest)
  have hdelim : startsDelimited ([']'] ++ rest) = true := rfl
  obtain ⟨toks, hcutsItems, hexprs⟩ := cuts_items h (p.advance ['[']) hdelim
  obtain ⟨cl, hcl, hcutsClose⟩ := Cuts.mark (c := ']') rfl (by decide)
    ((p.advance ['[']).advance (itemChars items)) rest
  have hcuts := hcutsOpen.append (hcutsItems.append hcutsClose)
  refine ⟨op :: (toks ++ [cl]), hcuts, ?_⟩
  rw [unlabel, unlabelItems_eq_map]
  exact .array hop hexprs hcl

/-! ### Readable values -/

/-- **The printed text of a readable value is read as that value**, and so is the rest of a list
that ends in it. -/
theorem Readable.reads_tail (h : Readable t v) :
    Reads t v.chars v.unlabel ∧ ReadsTail t v := by
  have hleaf {v : Value} (hreads : Reads t v.chars v.unlabel)
      (htail : tailChars v = [' '] ++ (['.'] ++ ([' '] ++ (v.chars ++ [')'])))) :
      Reads t v.chars v.unlabel ∧ ReadsTail t v := ⟨hreads, hreads.tail htail⟩
  induction h with
  | null => exact ⟨.null, .null⟩
  | @bool b => exact hleaf (.bool b) rfl
  | int hmin hmax => exact hleaf (.int hmin hmax) rfl
  | @float negative rank => exact hleaf (.float negative rank) rfl
  | @str s => exact hleaf (.str s) rfl
  | @char c => exact hleaf (.char c) rfl
  | symbol hs hatom hkind => exact hleaf (.symbol hs hatom hkind) rfl
  | array _ ih => exact hleaf (.array fun v hv => (ih v hv).1) (by simp [tailChars, chars])
  | pair _ _ ihHead ihTail => exact ⟨.pair ihHead.1 ihTail.2, .pair ihHead.1 ihTail.2⟩

end Value

/-! ### Programs -/

/-- `Joined texts cs`: a text is some texts with one or more blanks between two. -/
inductive Joined : List (List Char) → List Char → Prop where
  | nil : Joined [] []
  | single {cs} : Joined [cs] cs
  | cons {cs gap text texts} : gap ≠ [] → (∀ c ∈ gap, Text.isBlank c = true) → texts ≠ [] →
      Joined texts text → Joined (cs :: texts) (cs ++ (gap ++ text))

namespace Reader

variable {t : SymbolTable} {r r' : Reader} {v : Value}

theorem forms_of_form (h : r.form = (.ok (some v), r')) :
    r.forms = (v :: r'.forms.1, r'.forms.2) := by
  rw [forms]
  split
  · next heq => rw [h] at heq; cases heq
  · next heq => rw [h] at heq; cases heq
  · next heq => rw [h] at heq; cases heq; rfl

theorem forms_of_none (h : r.form = (.ok none, r')) : r.forms = ([], none, r') := by
  rw [forms]
  split
  · next heq => rw [h] at heq; cases heq; rfl
  · next heq => rw [h] at heq; cases heq
  · next heq => rw [h] at heq; cases heq

/-- At the end of a text there is no form, and no name is new. -/
theorem forms_end (p : Position) (t : SymbolTable) :
    ∃ r, (Reader.mk (.ofSource (tokensFrom p [])) t).forms = ([], none, r) ∧ r.symbols = t := by
  have hform : (Reader.mk (.ofSource (tokensFrom p [])) t).form.1 = .ok none ∧
      (Reader.mk (.ofSource (tokensFrom p [])) t).form.2.symbols = t := by
    rw [tokensFrom_nil, form, resume]
    simp [TokenStream.ofSource, TokenStream.next, TokenStream.pull, TokenStream.pulled,
      State.atEnd]
  exact ⟨_, forms_of_none (Prod.ext hform.1 rfl), hform.2⟩

/-- A text that begins with the printed text of a readable value is read as that value and what
follows. -/
theorem forms_printed (h : v.Readable t) {p : Position} {rest : List Char} {vs : List Value}
    {failure : Option Failure} (hrest : startsDelimited rest = true)
    (hforms : (Reader.mk (.ofSource (tokensFrom (p.advance v.chars) rest)) t).forms =
      (vs, failure, r)) :
    (Reader.mk (.ofSource (tokensFrom p (v.chars ++ rest))) t).forms =
      (v.unlabel :: vs, failure, r) := by
  obtain ⟨toks, hcuts, hexpr⟩ := h.reads_tail.1 p rest hrest
  rw [hcuts.tokens, forms_of_form (form_of_expr hcuts.regular hexpr _), hforms]

theorem forms_joined {vs : List Value} {cs : List Char} (hvs : ∀ v ∈ vs, v.Readable t)
    (hcs : Joined (vs.map Value.chars) cs) (p : Position) :
    ∃ r, (Reader.mk (.ofSource (tokensFrom p cs)) t).forms = (vs.map Value.unlabel, none, r) ∧
      r.symbols = t := by
  generalize htexts : vs.map Value.chars = texts at hcs
  induction hcs generalizing vs p with
  | nil =>
    obtain rfl := List.map_eq_nil_iff.mp htexts
    exact forms_end p t
  | @single cs =>
    obtain ⟨v, vs, rfl, rfl, hnil⟩ := List.map_eq_cons_iff.mp htexts
    obtain rfl := List.map_eq_nil_iff.mp hnil
    obtain ⟨r, hr, hsymbols⟩ := forms_end (p.advance v.chars) t
    have hforms := forms_printed (hvs v (by simp)) rfl hr
    rw [List.append_nil] at hforms
    exact ⟨r, hforms, hsymbols⟩
  | @cons cs gap text texts hne hblank _ _ ih =>
    obtain ⟨v, vs, rfl, rfl, hmore⟩ := List.map_eq_cons_iff.mp htexts
    obtain ⟨hv, hvs⟩ := List.forall_mem_cons.mp hvs
    obtain ⟨r, hr, hsymbols⟩ := ih hvs ((p.advance v.chars).advance gap) hmore
    have hdelim : startsDelimited (gap ++ text) = true := by
      rcases gap with _ | ⟨c, gap⟩
      · exact absurd rfl hne
      · simp [startsDelimited, isDelimiter, hblank c (by simp)]
    rw [← tokensFrom_blanks hblank] at hr
    exact ⟨r, forms_printed hv hdelim hr, hsymbols⟩

/-- **What is printed is read back.** The printed texts of readable values, with one or more blanks
between two, are read as those values in their order, and no name is new. -/
theorem readAll_printed {vs : List Value} {text : String} (hvs : ∀ v ∈ vs, v.Readable t)
    (htext : Joined (vs.map (·.print.toList)) text.toList) :
    (Reader.ofText text t).readAll.1 = .ok (vs.map Value.unlabel) ∧
      (Reader.ofText text t).readAll.2.symbols = t := by
  have hprint : vs.map (·.print.toList) = vs.map Value.chars :=
    List.map_congr_left fun v _ => String.toList_ofList
  rw [hprint] at htext
  obtain ⟨r, hr, hsymbols⟩ := forms_joined hvs htext {}
  have hall : (Reader.ofText text t).readAll = (.ok (vs.map Value.unlabel), r) := by
    rw [readAll, ofText, TokenStream.ofText, tokens, hr]
  rw [hall]
  exact ⟨rfl, hsymbols⟩

/-- The names of `printedValues`. -/
def printedNames : SymbolTable := (∅ : SymbolTable).insert "ab"

/-- A list with a dot, its first pair labelled, and an array. -/
def printedValues : List Value :=
  [.pair (some 7) (.symbol ⟨"ab", 0⟩) (.pair none (.int (-42)) (.str "say \"hi\"\n")),
    .array [.char ' ', .float (.finite true ⟨0, Binary64.rankCount_pos⟩), .null, .bool true]]

/-- The texts of `printedValues` with a tab and a space between them. -/
def printedText : String := "(ab -42 . \"say \\\"hi\\\"\\n\")\t [#\\space -0.0 () true]"

/-- Two values are read back with their variants, a known name and the sign of a zero. -/
theorem readAll_printedValues :
    (∀ v ∈ printedValues, v.Readable printedNames) ∧
    Joined (printedValues.map (·.print.toList)) printedText.toList ∧
    (Reader.ofText printedText printedNames).readAll.1 =
      .ok [.cons (.symbol ⟨"ab", 0⟩) (.cons (.int (-42)) (.str "say \"hi\"\n")),
        .array [.char ' ', .float (.finite true ⟨0, Binary64.rankCount_pos⟩), .null, .bool true]] ∧
    (Reader.ofText printedText printedNames).readAll.2.symbols = printedNames := by
  have hsymbol : Value.Readable printedNames (.symbol ⟨"ab", 0⟩) :=
    .symbol (by decide) (by decide) (by decide)
  have hvs : ∀ v ∈ printedValues, v.Readable printedNames := by
    refine List.forall_mem_cons.mpr ⟨?_, List.forall_mem_singleton.mpr ?_⟩
    · exact .pair hsymbol (.pair (.int (by decide) (by decide)) .str)
    · refine .array ?_
      intro v hv
      simp only [List.mem_cons, List.not_mem_nil, or_false] at hv
      rcases hv with rfl | rfl | rfl | rfl
      · exact .char
      · exact .float
      · exact .null
      · exact .bool
  have htexts : printedValues.map (·.print.toList) =
      ["(ab -42 . \"say \\\"hi\\\"\\n\")".toList, "[#\\space -0.0 () true]".toList] := rfl
  have htext : printedText.toList = "(ab -42 . \"say \\\"hi\\\"\\n\")".toList ++
      (['\t', ' '] ++ "[#\\space -0.0 () true]".toList) := rfl
  have hblank : ∀ c ∈ ['\t', ' '], Text.isBlank c = true :=
    List.forall_mem_cons.mpr ⟨rfl, List.forall_mem_singleton.mpr rfl⟩
  have hjoined : Joined (printedValues.map (·.print.toList)) printedText.toList := by
    rw [htexts, htext]
    exact .cons (by simp) hblank (by simp) .single
  exact ⟨hvs, hjoined, readAll_printed hvs hjoined⟩

end Reader

end LispCore
