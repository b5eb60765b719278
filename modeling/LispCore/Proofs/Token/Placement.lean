import LispCore.Proofs.Token.Layout

/-!
Tokens and failures at other places.

A map of places moves tokens, and the failures that show at them, without a change of their kinds,
texts and lengths.

* `ReadError.text_moved`, `ReadError.family_moved`, `ReadError.token?_moved` — a failure that moves
  keeps its message and its family, and its token moves with it;
* `tokensFrom_below` — the tokens of a text that starts some lines lower down are those of the text,
  lower down;
* `tokensFrom_nowhere` — a text has the same tokens wherever it starts, their places apart.

`TokenAlike`, `FailureAlike` and `ItemAlike` compare more freely: strings and characters may differ
in what they stand for, which no message tells.
-/

namespace LispCore

/-! ### Moving tokens and failures -/

/-- The token at the place that a map gives for its own. -/
def Token.moved (f : Position → Position) (tok : Token) : Token :=
  { tok with start := f tok.start }

/-- The error with its token moved. -/
def ReadError.moved (f : Position → Position) : ReadError → ReadError
  | unterminatedString tok => unterminatedString (tok.moved f)
  | malformedCharacter tok => malformedCharacter (tok.moved f)
  | reported message => reported message
  | endInside b tok => endInside b (tok.moved f)
  | endForOperand tok => endForOperand (tok.moved f)
  | endAfterDottedTail tok => endAfterDottedTail (tok.moved f)
  | extraAfterDottedTail tok => extraAfterDottedTail (tok.moved f)
  | noForm tok => noForm (tok.moved f)
  | notOneCharacter tok => notOneCharacter (tok.moved f)
  | malformedInteger r tok => malformedInteger r (tok.moved f)
  | integerRange tok => integerRange (tok.moved f)
  | malformedFloat tok => malformedFloat (tok.moved f)
  | floatRange tok => floatRange (tok.moved f)

/-- The failure with its token, if it has one, moved. -/
def Failure.moved (f : Position → Position) : Failure → Failure
  | read e => read (e.moved f)
  | e => e

/-- An item of a source, a token or a failure, moved. -/
def movedItem (f : Position → Position) : Except Failure Token → Except Failure Token
  | .ok tok => .ok (tok.moved f)
  | .error e => .error (e.moved f)

/-- What a lexeme stands for, a token, a failure or nothing, moved. -/
def movedLexeme (f : Position → Position) :
    Except Failure (Option Token) → Except Failure (Option Token)
  | .ok o => .ok (o.map (Token.moved f))
  | .error e => .error (e.moved f)

section Moved

variable {f : Position → Position}

@[simp] theorem Token.kind_moved (tok : Token) : (tok.moved f).kind = tok.kind := rfl

@[simp] theorem Token.text_moved (tok : Token) : (tok.moved f).text = tok.text := rfl

/-- A failure that moves keeps its message, its place apart. -/
@[simp] theorem ReadError.text_moved (e : ReadError) : (e.moved f).text = e.text := by
  cases e <;> rfl

@[simp] theorem ReadError.family_moved (e : ReadError) : (e.moved f).family = e.family := by
  cases e <;> rfl

/-- The token of a failure moves with it. -/
@[simp] theorem ReadError.token?_moved (e : ReadError) :
    (e.moved f).token? = e.token?.map (Token.moved f) := by
  cases e <;> rfl

@[simp] theorem Failure.isRecoverable_moved (e : Failure) :
    (e.moved f).isRecoverable = e.isRecoverable := by
  cases e <;> rfl

/-- A failure that nothing recovers from shows at no place. -/
theorem Failure.moved_of_not_recoverable {e : Failure} (h : ¬e.isRecoverable = true) :
    e.moved f = e := by
  cases e with
  | read e => exact absurd rfl h
  | _ => rfl

/-- What a lexeme stands for at another place is moved there. -/
theorem Lexeme.token?_moved (l : Lexeme) (f : Position → Position) (p : Position) :
    l.token? (f p) = movedLexeme f (l.token? p) := by
  obtain ⟨form, raw, rest⟩ := l
  cases form with
  | gap | mark | string => rfl
  | character =>
    simp only [Lexeme.token?]
    split <;> rfl
  | atom =>
    simp only [Lexeme.token?]
    split <;> rfl

/-- Moving the items of a source moves its tokens and what it ends with. -/
theorem map_movedItem (toks : List Token) (last : Except Failure Token) :
    (toks.map Except.ok ++ [last]).map (movedItem f) =
      (toks.map (Token.moved f)).map Except.ok ++ [movedItem f last] := by
  rw [List.map_append, List.map_map, List.map_map]
  rfl

end Moved

/-! ### Lower down -/

/-- The place some lines lower down. -/
def Position.below (n : Nat) (p : Position) : Position := { p with line := p.line + n }

theorem Position.below_next (n : Nat) (p : Position) (c : Char) :
    (p.below n).next c = (p.next c).below n := by
  unfold Position.next
  split
  · simp [Position.below, Nat.add_right_comm]
  · rfl

theorem Position.below_advance (n : Nat) (p : Position) (cs : List Char) :
    (p.below n).advance cs = (p.advance cs).below n := by
  induction cs generalizing p with
  | nil => rfl
  | cons c cs ih =>
    simp only [Position.advance, List.foldl_cons] at ih ⊢
    rw [Position.below_next, ih]

/-- After a line feed a text goes on at the start of a line, below all lines before. -/
theorem Position.advance_newline (cs : List Char) :
    Position.advance {} (cs ++ ['\n']) = Position.below (cs.count '\n' + 1) {} := by
  have hline : (Position.advance {} cs).line = cs.count '\n' := (Position.isAt_advance cs).line
  rw [Position.advance_append, Position.advance, List.foldl_cons, List.foldl_nil, Position.next,
    if_pos rfl, hline, Position.below, Nat.zero_add]

/-- **The tokens of a text lower down are those of the text, lower down.** -/
theorem tokensFrom_below (n : Nat) (p : Position) (cs : List Char) :
    tokensFrom (p.below n) cs = (tokensFrom p cs).map (movedItem (Position.below n)) := by
  induction cs using Lexeme.induction_on generalizing p with
  | nil =>
    rw [tokensFrom_nil, tokensFrom_nil]
    rfl
  | lexeme form raw rest hw ih =>
    rw [tokensFrom_written hw, tokensFrom_written hw, Lexeme.token?_moved,
      Position.below_advance, ih]
    rcases Lexeme.token? ⟨form, raw, rest⟩ p with e | _ | tok <;> rfl
  | unclosed body hbody =>
    rw [tokensFrom_unclosed hbody, tokensFrom_unclosed hbody]
    rfl

/-! ### Nowhere -/

/-- One place for all tokens, to compare them by everything else. -/
def nowhere (_ : Position) : Position := {}

@[simp] theorem Failure.moved_nowhere (f : Position → Position) (e : Failure) :
    (e.moved f).moved nowhere = e.moved nowhere := by
  cases e with
  | read e => cases e <;> rfl
  | _ => rfl

/-- **Where a text starts matters only for the places of its tokens.** -/
theorem tokensFrom_nowhere (p q : Position) (cs : List Char) :
    (tokensFrom p cs).map (movedItem nowhere) = (tokensFrom q cs).map (movedItem nowhere) := by
  induction cs using Lexeme.induction_on generalizing p q with
  | nil =>
    rw [tokensFrom_nil, tokensFrom_nil]
    rfl
  | lexeme form raw rest hw ih =>
    have hplace (p : Position) := Lexeme.token?_moved ⟨form, raw, rest⟩ (fun _ => p) {}
    rw [tokensFrom_written hw, tokensFrom_written hw, hplace p, hplace q]
    rcases Lexeme.token? ⟨form, raw, rest⟩ {} with e | _ | tok
    · simp [movedLexeme, movedItem]
    · exact ih _ _
    · simp only [movedLexeme, Option.map_some, List.map_cons, ih _ (q.advance raw)]
      rfl
  | unclosed body hbody =>
    rw [tokensFrom_unclosed hbody, tokensFrom_unclosed hbody]
    rfl

/-! ### Tokens that differ in what they stand for -/

section Alike

variable {place : Position → Position → Prop}

/-- Two tokens at places that belong together: the same one, or two strings, or two characters. -/
inductive TokenAlike (place : Position → Position → Prop) : Token → Token → Prop where
  | same {tok q} : tok.kind ≠ .string → tok.kind ≠ .char → place tok.start q →
      TokenAlike place tok (tok.placed q)
  | string {tok tok'} : tok.kind = .string → tok'.kind = .string → place tok.start tok'.start →
      TokenAlike place tok tok'
  | char {tok tok' c c'} : tok.kind = .char → tok'.kind = .char → tok.text.toList = [c] →
      tok'.text.toList = [c'] → place tok.start tok'.start → TokenAlike place tok tok'

/-- Two failures say the same: they show at places that belong together, or they are one that shows
at no place. -/
inductive FailureAlike (place : Position → Position → Prop) : Failure → Failure → Prop where
  | read {err err' tok tok'} : err.token? = some tok → err'.token? = some tok' →
      err'.text = err.text → place tok.start tok'.start →
      FailureAlike place (.read err) (.read err')
  | other {e} : (∀ err, e ≠ .read err) → FailureAlike place e e

/-- Two items of sources are tokens that are alike, or failures that are. -/
inductive ItemAlike (place : Position → Position → Prop) :
    Except Failure Token → Except Failure Token → Prop where
  | token {tok tok'} : TokenAlike place tok tok' → ItemAlike place (.ok tok) (.ok tok')
  | failure {e e'} : FailureAlike place e e' → ItemAlike place (.error e) (.error e')

theorem TokenAlike.start {tok tok' : Token} (h : TokenAlike place tok tok') :
    place tok.start tok'.start := by
  cases h with
  | same _ _ hplace => exact hplace
  | string _ _ hplace => exact hplace
  | char _ _ _ _ hplace => exact hplace

/-- Ends of texts are alike at places that belong together. -/
theorem TokenAlike.endOfInput {p q : Position} (h : place p q) :
    TokenAlike place { kind := .endOfInput, text := "", start := p }
      { kind := .endOfInput, text := "", start := q } :=
  .same (by simp) (by simp) h

/-- A failure that shows at a token is alike where the token is moved. -/
theorem FailureAlike.moved {err : ReadError} {tok : Token} (htok : err.token? = some tok)
    {q : Position} (h : place tok.start q) :
    FailureAlike place (.read err) ((Failure.read err).moved fun _ => q) := by
  have htok' : (err.moved fun _ => q).token? = some (tok.moved fun _ => q) := by
    rw [ReadError.token?_moved, htok]
    rfl
  exact .read htok htok' (ReadError.text_moved err) h

end Alike

end LispCore
