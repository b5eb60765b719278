import LispCore.Token.Atom
import LispCore.Token.Literal
import LispCore.Token.Stream

/-!
Cutting a text into tokens.

A text is a sequence of lexemes: gaps, which are runs of blanks and comments up to the end of a
line, and the written forms of tokens. `Lexeme.first?` splits the first one off; it fails only at a
double quote that no other one closes. `Lexeme.raw_append_rest` says that the split loses nothing
and `Lexeme.raw_ne_nil` that it makes progress.
-/

namespace LispCore

/-- What the first characters of a text are. -/
inductive LexemeForm where
  | gap
  | mark (kind : TokenKind)
  | string
  | character
  | atom
deriving DecidableEq, Repr

/-- A text split after its first lexeme. -/
structure Lexeme where
  form : LexemeForm
  raw : List Char
  rest : List Char
deriving DecidableEq, Repr

/-- The kind of a token that is a single character. -/
def markKind? : Char → Option TokenKind
  | '(' => some (.opening .round)
  | ')' => some (.closing .round)
  | '[' => some (.opening .square)
  | ']' => some (.closing .square)
  | '{' => some (.opening .curly)
  | '}' => some (.closing .curly)
  | '\'' => some (.marker .quote)
  | '\x60' => some (.marker .backtick)
  | '~' => some (.marker .tilde)
  | _ => none

/-! ### Strings and characters -/

/-- Splits a text, which follows an opening quote, after the quote that closes the string. A
backslash takes the character after it along. -/
def splitString? : List Char → Option (List Char × List Char)
  | '"' :: rest => some (['"'], rest)
  | '\\' :: c :: rest => (splitString? rest).map fun (raw, rest) => ('\\' :: c :: raw, rest)
  | c :: rest => (splitString? rest).map fun (raw, rest) => (c :: raw, rest)
  | [] => none

/-- Whether a character matches a lower-case letter regardless of case. The long s and the two
letters i with and without a dot that are not ASCII match too. -/
def matchesLetter (letter c : Char) : Bool :=
  c.toLower == letter || (letter == 's' && c == 'ſ')
    || (letter == 'i' && (c == 'ı' || c == 'İ'))

/-- Whether a text matches a lower-case name regardless of case. -/
def matchesName : List Char → List Char → Bool
  | [], [] => true
  | l :: ls, c :: cs => matchesLetter l c && matchesName ls cs
  | _, _ => false

/-- Whether a character literal may end before a text. -/
def startsDelimited (rest : List Char) : Bool := rest.head?.all isDelimiter

/-- Splits a text after `n` characters, if they are acceptable and a delimiter or the end of the
text follows them. -/
def splitDelimited? (accepts : List Char → Bool) (n : Nat) (cs : List Char) :
    Option (List Char × List Char) :=
  let (raw, rest) := cs.splitAt n
  if accepts raw && startsDelimited rest then some (raw, rest) else none

/-- Splits a text, which follows the mark of a character literal, after the name of a character or
else after one character. -/
def splitCharacter? (cs : List Char) : Option (List Char × List Char) :=
  (characterNames.findSome? fun (name, _) => splitDelimited? (matchesName name) name.length cs).or
    (splitDelimited? (·.length == 1) 1 cs)

/-- The character that a character or its name stands for. -/
def characterValue? : List Char → Option Char
  | [c] => some c
  | name => characterOfName? (name.map Char.toLower)

/-! ### Lexemes -/

namespace Lexeme

/-- The first lexeme of a text that is not empty, given by its first character and the others. -/
def first? (c : Char) (cs : List Char) : Option Lexeme :=
  if Text.isBlank c then some ⟨.gap, c :: cs.takeWhile Text.isBlank, cs.dropWhile Text.isBlank⟩
  else if c = ';' then some ⟨.gap, c :: cs.takeWhile (· ≠ '\n'), cs.dropWhile (· ≠ '\n')⟩
  else if c = '~' ∧ cs.head? = some '@' then some ⟨.mark (.marker .tildeAt), [c, '@'], cs.drop 1⟩
  else
    match markKind? c with
    | some kind => some ⟨.mark kind, [c], cs⟩
    | none =>
      if c = '"' then (splitString? cs).map fun (raw, rest) => ⟨.string, c :: raw, rest⟩
      else
        let character? :=
          if c = '#' ∧ cs.head? = some '\\' then splitCharacter? (cs.drop 1) else none
        match character? with
        | some (raw, rest) => some ⟨.character, c :: '\\' :: raw, rest⟩
        | none =>
          some ⟨.atom, c :: cs.takeWhile (!isDelimiter ·), cs.dropWhile (!isDelimiter ·)⟩

/-- The token that a lexeme is, a gap being none, if it starts at a position. -/
def token? (l : Lexeme) (start : Position) : Except Failure (Option Token) :=
  let token (kind : TokenKind) (text : List Char) : Token :=
    { kind, text := String.ofList text, start, length := l.raw.length }
  match l.form with
  | .gap => .ok none
  | .mark kind => .ok (some (token kind l.raw))
  | .string => .ok (some (token .string (StringLiteral.decode l.raw)))
  | .character =>
    match characterValue? (l.raw.drop 2) with
    | some c => .ok (some (token .char [c]))
    | none => .error (.unknownCharacterName (String.ofList (l.raw.drop 2)))
  | .atom =>
    if l.raw.take 2 = ['#', '\\'] then .error (.read (.malformedCharacter (token .char l.raw)))
    else
      let (kind, text) := classifyAtom l.raw
      .ok (some (token kind text))

end Lexeme

theorem append_of_splitString? {cs raw rest : List Char}
    (h : splitString? cs = some (raw, rest)) : raw ++ rest = cs := by
  fun_induction splitString? cs generalizing raw rest with
  | case1 => cases h; rfl
  | case2 c cs ih =>
    obtain ⟨⟨r, s⟩, hs, he⟩ := Option.map_eq_some_iff.1 h
    cases he
    simp [ih hs]
  | case3 c cs _ _ ih =>
    obtain ⟨⟨r, s⟩, hs, he⟩ := Option.map_eq_some_iff.1 h
    cases he
    simp [ih hs]
  | case4 => cases h

theorem append_of_splitDelimited? {accepts : List Char → Bool} {n : Nat} {cs raw rest : List Char}
    (h : splitDelimited? accepts n cs = some (raw, rest)) : raw ++ rest = cs := by
  simp only [splitDelimited?, List.splitAt_eq, Option.ite_none_right_eq_some, Option.some.injEq,
    Prod.mk.injEq] at h
  obtain ⟨-, rfl, rfl⟩ := h
  exact List.take_append_drop n cs

theorem append_of_splitCharacter? {cs raw rest : List Char}
    (h : splitCharacter? cs = some (raw, rest)) : raw ++ rest = cs := by
  rcases Option.or_eq_some_iff.1 h with h | ⟨-, h⟩
  · obtain ⟨_, -, h⟩ := List.exists_of_findSome?_eq_some h
    exact append_of_splitDelimited? h
  · exact append_of_splitDelimited? h

namespace Lexeme

/-- Splitting a lexeme off loses nothing. -/
theorem raw_append_rest {c : Char} {cs : List Char} {l : Lexeme} (h : first? c cs = some l) :
    l.raw ++ l.rest = c :: cs := by
  unfold first? at h
  split at h
  · cases h; simp
  split at h
  · cases h; simp
  split at h
  · next ht =>
    cases h
    obtain ⟨-, ht⟩ := ht
    obtain ⟨cs, rfl⟩ := List.head?_eq_some_iff.1 ht
    rfl
  split at h
  · cases h; rfl
  split at h
  · obtain ⟨⟨r, s⟩, hs, rfl⟩ := Option.map_eq_some_iff.1 h
    simp [append_of_splitString? hs]
  · dsimp only at h
    split at h
    · next hc =>
      cases h
      split at hc
      · next hm =>
        obtain ⟨-, ht⟩ := hm
        obtain ⟨cs, rfl⟩ := List.head?_eq_some_iff.1 ht
        simpa using append_of_splitCharacter? hc
      · cases hc
    · cases h; simp

/-- A lexeme has at least one character, the first of the text. -/
theorem raw_ne_nil {c : Char} {cs : List Char} {l : Lexeme} (h : first? c cs = some l) :
    l.raw ≠ [] := by
  unfold first? at h
  split at h
  · cases h; simp
  split at h
  · cases h; simp
  split at h
  · cases h; simp
  split at h
  · cases h; simp
  split at h
  · obtain ⟨⟨r, s⟩, hs, rfl⟩ := Option.map_eq_some_iff.1 h
    simp
  · dsimp only at h
    split at h <;> cases h <;> simp

theorem length_rest_lt {c : Char} {cs : List Char} {l : Lexeme} (h : first? c cs = some l) :
    l.rest.length < (c :: cs).length := by
  have := List.length_pos_iff.2 (raw_ne_nil h)
  rw [← raw_append_rest h, List.length_append]
  omega

end Lexeme

/-! ### Texts -/

/-- The tokens of a text that starts at a position. -/
def tokensFrom (start : Position) : List Char → TokenSource
  | [] => [.ok { kind := .endOfInput, text := "", start }]
  | c :: cs =>
    match _h : Lexeme.first? c cs with
    | none =>
      let text := c :: cs
      [.error (.read (.unterminatedString
        { kind := .string, text := String.ofList text, start, length := text.length }))]
    | some l =>
      match l.token? start with
      | .error e => [.error e]
      | .ok none => tokensFrom (start.advance l.raw) l.rest
      | .ok (some t) => .ok t :: tokensFrom (start.advance l.raw) l.rest
termination_by cs => cs.length
decreasing_by all_goals exact Lexeme.length_rest_lt _h

/-- The tokens of a text: those up to a failure, or all of them and the end. -/
def tokens (text : String) : TokenSource := tokensFrom {} text.toList

/-- The stream of the tokens of a text. -/
def TokenStream.ofText (text : String) : TokenStream := .ofSource (tokens text)

end LispCore
