import LispCore.Proofs.Token.Atom
import LispCore.Reader.Literal

/-!
What the lexer promises of the tokens it cuts.

`Token.Lexed` says that a token is that of a lexeme. `Token.Lexed.spelled` lists what the reader may
rely on then: a symbol is one whole atom, an integer has the digits of its radix and a
floating-point number is a numeral. So no integer is malformed, and no number that is read is
infinite or NaN (`Token.Spelled.readFloat_finite`).

`Failure.Lexical` are the failures of the lexer. Each but one kind shows at a token;
`Failure.Lexical.cases` says which the others are: names of characters spelled with one of three
letters whose lower case is none of the name.
-/

namespace LispCore

/-! ### Lexed tokens and failures of the lexer -/

/-- A token is that of a lexeme, somewhere in some text. -/
inductive Token.Lexed (tok : Token) : Prop where
  | intro {form raw rest p} : Lexeme.Written form raw rest →
      Lexeme.token? ⟨form, raw, rest⟩ p = .ok (some tok) → tok.Lexed

/-- A failure that ends the tokens of a text: a lexeme stands for no token, or a string is not
closed. -/
inductive Failure.Lexical : Failure → Prop where
  | lexeme {form raw rest p e} : Lexeme.Written form raw rest →
      Lexeme.token? ⟨form, raw, rest⟩ p = .error e → Lexical e
  | unclosed {tok} : Lexical (.read (.unterminatedString tok))

theorem Token.Lexed.not_end {tok : Token} (h : tok.Lexed) : tok.kind ≠ .endOfInput := by
  obtain ⟨hw, htok⟩ := h
  exact (hw.token? htok).2.2.1

/-- The letters that match one of a name without regard to case, and whose lower case is not that
one. -/
def isOddLetter (c : Char) : Bool := ['ſ', 'ı', 'İ'].contains c

theorem toLower_of_matchesLetter {l c : Char} (h : matchesLetter l c = true)
    (hodd : isOddLetter c = false) : c.toLower = l := by
  simp only [isOddLetter, List.contains_eq_mem, List.mem_cons, List.not_mem_nil, or_false,
    decide_eq_false_iff_not, not_or] at hodd
  simpa [matchesLetter, hodd] using h

/-- A name without such letters is that of its lower case. -/
theorem map_toLower_of_matchesName {name cs : List Char} (h : matchesName name cs = true)
    (hodd : ∀ c ∈ cs, isOddLetter c = false) : cs.map Char.toLower = name := by
  fun_induction matchesName name cs with
  | case1 => rfl
  | case2 l ls c cs ih =>
    obtain ⟨hc, hcs⟩ := List.forall_mem_cons.mp hodd
    obtain ⟨hletter, hname⟩ := Bool.and_eq_true_iff.mp h
    rw [List.map_cons, toLower_of_matchesLetter hletter hc, ih hname hcs]
  | case3 => cases h

theorem exists_oddLetter {cs : List Char} (hbody : CharacterBody cs)
    (hnone : characterValue? cs = none) : ∃ c ∈ cs, isOddLetter c = true := by
  have hvalue : ∀ entry ∈ characterNames, characterOfName? entry.1 ≠ none := by decide
  have hlength : ∀ entry ∈ characterNames, 1 < entry.1.length := by decide
  refine Decidable.byContradiction fun hnot => ?_
  have hplain : ∀ c ∈ cs, isOddLetter c = false := by simpa using hnot
  obtain hone | ⟨entry, hentry, hname⟩ := hbody
  · obtain ⟨c, rfl⟩ := List.length_eq_one_iff.mp hone
    cases hnone
  · have hlower := map_toLower_of_matchesName hname hplain
    rw [characterValue?.eq_2 _ ?_, hlower] at hnone
    · exact hvalue entry hentry hnone
    · rintro c rfl
      have hlen := hlength entry hentry
      rw [← matchesName_length hname] at hlen
      simp at hlen

/-- **A failure of the lexer shows at a token**, and is about the source, unless a character has a
name in which one of three letters stands for another. -/
theorem Failure.Lexical.cases {e : Failure} (h : e.Lexical) :
    (∃ err tok, e = .read err ∧ err.token? = some tok ∧ err.family = .source) ∨
      ∃ name, e = .unknownCharacterName name ∧ ∃ c ∈ name.toList, isOddLetter c = true := by
  cases h with
  | unclosed => exact .inl ⟨_, _, rfl, rfl, rfl⟩
  | lexeme hw htok =>
    cases hw with
    | blanks _ _ _ | comment _ _ | mark _ _ | tildeAt | string _ => cases htok
    | character hbody _ =>
      simp only [Lexeme.token?] at htok
      split at htok
      · cases htok
      · next hnone =>
        cases htok
        refine .inr ⟨_, rfl, ?_⟩
        rw [String.toList_ofList]
        exact exists_oddLetter hbody hnone
    | atom _ _ _ _ =>
      simp only [Lexeme.token?] at htok
      split at htok
      · cases htok
        exact .inl ⟨_, _, rfl, rfl, rfl⟩
      · cases htok

/-! ### Spelling -/

/-- The sign of a number that may be negative. -/
def minusSign (negative : Bool) : List Char := if negative then ['-'] else []

theorem minusSign_cases (negative : Bool) : minusSign negative = [] ∨ minusSign negative = ['-'] := by
  cases negative <;> simp [minusSign]

/-- What the text of a token is, for the kinds of token whose texts the reader looks into. -/
structure Token.Spelled (tok : Token) : Prop where
  symbol : tok.kind = .symbol →
    IsAtom tok.text.toList ∧ (classifyAtom tok.text.toList).1 = .symbol
  integer : ∀ r, tok.kind = .integer r → ∃ n, r.Spells tok.text.toList n
  float : tok.kind = .float → ∃ negative cs n,
    tok.text.toList = minusSign negative ++ cs ∧ Numeral.ofChars? cs = some n

/-- The reader looks into no other texts. -/
theorem Token.Spelled.of_kind {tok : Token} (hsymbol : tok.kind ≠ .symbol)
    (hinteger : ∀ r, tok.kind ≠ .integer r) (hfloat : tok.kind ≠ .float) : tok.Spelled :=
  ⟨fun h => absurd h hsymbol, fun r h => absurd h (hinteger r), fun h => absurd h hfloat⟩

theorem splitMinus_eq (cs : List Char) :
    ∃ body, splitMinus cs = (minusSign (cs.head? == some '-'), body) ∧
      cs = minusSign (cs.head? == some '-') ++ body := by
  unfold splitMinus
  split
  · exact ⟨_, rfl, rfl⟩
  · next hminus =>
    have hhead : (cs.head? == some '-') = false := by
      refine beq_eq_false_iff_ne.mpr fun h => ?_
      obtain ⟨rest, hrest⟩ := List.head?_eq_some_iff.mp h
      exact hminus rest hrest
    rw [hhead]
    exact ⟨_, rfl, rfl⟩

theorem Radix.spells_minusSign {r : Radix} {ds : List Char} (h : r.isNatural ds = true)
    (negative : Bool) : ∃ n, r.Spells (minusSign negative ++ ds) n := by
  cases negative with
  | true => exact ⟨_, .minus h⟩
  | false => exact ⟨_, .unsigned h⟩

/-- The mark of a radix, which stands between the sign of an integer and its digits. -/
def Radix.mark : Radix → List Char
  | hexadecimal => ['0', 'x']
  | binary => ['0', 'b']
  | octal => ['0']
  | decimal => []

/-- What of its mark an integer keeps in the text of its token: a zero that is a digit too. -/
def Radix.keptMark : Radix → List Char
  | octal => ['0']
  | _ => []

/-- What is kept of a mark adds a digit. -/
theorem Radix.isNatural_keptMark {r : Radix} {ds : List Char} (h : r.isNatural ds = true) :
    r.isNatural (r.keptMark ++ ds) = true := by
  cases r with
  | octal =>
    obtain ⟨-, hall⟩ := Bool.and_eq_true_iff.mp h
    exact Bool.and_eq_true_iff.mpr ⟨rfl, List.all_cons.trans (Bool.and_eq_true_iff.mpr ⟨rfl, hall⟩)⟩
  | _ => exact h

/-- **An atom that is taken for an integer** is a minus sign, if there is one, the mark of its radix
and digits. -/
theorem classifyAtom_integer_cases {cs text : List Char} {r : Radix}
    (h : classifyAtom cs = (.integer r, text)) :
    ∃ ds, r.isNatural ds = true ∧ cs = minusSign (cs.head? == some '-') ++ (r.mark ++ ds) ∧
      text = minusSign (cs.head? == some '-') ++ (r.keptMark ++ ds) := by
  obtain ⟨body, hsplit, hcs⟩ := splitMinus_eq cs
  have hmarked {n : Nat} {mark : List Char} (hmark : body.take n = mark) :
      cs = minusSign (cs.head? == some '-') ++ (mark ++ body.drop n) := by
    rw [← hmark, List.take_append_drop]
    exact hcs
  unfold classifyAtom at h
  rw [hsplit] at h
  dsimp only at h
  split at h
  · cases h
  split at h
  · cases h
  split at h
  · next hx => cases h; exact ⟨_, hx.2, hmarked hx.1, rfl⟩
  split at h
  · next hb => cases h; exact ⟨_, hb.2, hmarked hb.1, rfl⟩
  split at h
  · next ho => cases h; exact ⟨_, ho.2, hmarked ho.1, hmarked ho.1⟩
  split at h
  · next hd => cases h; exact ⟨body, hd, hcs, hcs⟩
  split at h <;> cases h

/-- **An atom that is taken for an integer has the digits of its radix**, perhaps with a minus
sign. -/
theorem classifyAtom_integer {cs text : List Char} {r : Radix}
    (h : classifyAtom cs = (.integer r, text)) : ∃ n, r.Spells text n := by
  obtain ⟨ds, hds, -, rfl⟩ := classifyAtom_integer_cases h
  exact Radix.spells_minusSign (Radix.isNatural_keptMark hds) _

/-- **An atom that is taken for a floating-point number is a numeral**, perhaps with a minus
sign. -/
theorem classifyAtom_float {cs text : List Char} (h : classifyAtom cs = (.float, text)) :
    ∃ negative body n, text = minusSign negative ++ body ∧ Numeral.ofChars? body = some n := by
  obtain ⟨body, hsplit, hcs⟩ := splitMinus_eq cs
  unfold classifyAtom at h
  rw [hsplit] at h
  dsimp only at h
  repeat' split at h
  all_goals cases h
  next hfrac =>
    unfold isFractionalNumeral at hfrac
    cases hn : Numeral.ofChars? body with
    | none =>
      rw [hn] at hfrac
      cases hfrac
    | some n => exact ⟨_, body, n, hcs, hn⟩

/-- **Every token of a text is spelled as its kind says.** -/
theorem Token.Lexed.spelled {tok : Token} (h : tok.Lexed) : tok.Spelled := by
  obtain @⟨form, raw, rest, p, hw, htok⟩ := h
  cases hw with
  | blanks _ _ _ | comment _ _ => cases htok
  | mark hkind _ =>
    cases htok
    have hmark := Lexeme.isMark_of_markKind? hkind
    exact .of_kind (TokenKind.ne_of_isMark hmark rfl)
      (fun _ => TokenKind.ne_of_isMark hmark rfl) (TokenKind.ne_of_isMark hmark rfl)
  | tildeAt | string _ =>
    cases htok
    exact .of_kind (by simp) (by simp) (by simp)
  | character _ _ =>
    simp only [Lexeme.token?] at htok
    split at htok
    · cases htok
      exact .of_kind (by simp) (by simp) (by simp)
    · cases htok
  | atom hne hraw _ _ =>
    simp only [Lexeme.token?] at htok
    split at htok
    · cases htok
    · next hmark =>
      have hatom : IsAtom raw := ⟨hne, hraw, hmark⟩
      rcases hclass : classifyAtom raw with ⟨kind, text⟩
      rw [hclass] at htok
      cases htok
      refine ⟨?_, ?_, ?_⟩
      · rintro rfl
        have hsymbol := classifyAtom_symbol (congrArg Prod.fst hclass)
        rw [hclass] at hsymbol
        cases hsymbol
        rw [String.toList_ofList, hclass]
        exact ⟨hatom, rfl⟩
      · rintro r rfl
        rw [String.toList_ofList]
        exact classifyAtom_integer hclass
      · rintro rfl
        rw [String.toList_ofList]
        exact classifyAtom_float hclass

/-! ### Numbers that are read -/

/-- A decimal number is rounded to a finite number or to infinity with its sign. -/
theorem Binary64.ofDecimal_cases (negative : Bool) (digits : Nat) (exponent : Int) :
    (∃ rank, ofDecimal negative digits exponent = .finite negative rank) ∨
      ofDecimal negative digits exponent = .infinity negative := by
  obtain ⟨r, hr⟩ := ofDecimal_eq_ofRank digits exponent
  rw [hr, ofRank]
  split
  · exact .inl ⟨_, rfl⟩
  · exact .inr rfl

/-- **A floating-point number of a text is finite**, or refused as too large. -/
theorem Token.Spelled.readFloat_finite {tok : Token} (h : tok.Spelled) (hkind : tok.kind = .float)
    {x : Binary64} (hread : tok.readFloat = .ok x) : ∃ negative rank, x = .finite negative rank := by
  obtain ⟨negative, cs, n, htext, hn⟩ := h.float hkind
  unfold Token.readFloat at hread
  rw [htext, minusSign, FloatText.ofChars?_numeral hn] at hread
  dsimp only at hread
  split at hread
  · cases hread
  · next hover =>
    cases hread
    obtain ⟨rank, hfinite⟩ | hinfinite := Binary64.ofDecimal_cases negative
      (Radix.decimal.value (n.whole ++ n.fraction.getD []))
      (n.exponent.getD 0 - (n.fraction.getD []).length)
    · exact ⟨negative, rank, hfinite⟩
    · refine absurd ?_ hover
      exact beq_iff_eq.mpr hinfinite

end LispCore
