import LispCore.Proofs.Token.Literal

/-!
What the lexemes of a text are, said without the order in which the lexer tries them.

`Lexeme.Written form raw rest` says that a text `raw ++ rest` begins with a lexeme `raw` of a form:
each form has its own condition on `raw` and on what follows.

* `Lexeme.first?_eq_some_iff` — the lexer splits off exactly the lexeme that is written there, so
  there is one at most;
* `Lexeme.first?_eq_none_iff` — there is none only where an opening quote is never closed;
* `Lexeme.Written.alone` — a lexeme is one by itself, whatever followed it;
* `Lexeme.Written.token?` — its token depends on the place only in the place that it names.

`tokensFrom_written` and `tokensFrom_unclosed` say what the tokens of a text are by its first
lexeme, and `Lexeme.induction_on` is the induction that goes with them.
-/

namespace LispCore

/-! ### Runs -/

section Runs

variable {p : Char → Bool} {run rest : List Char}

theorem takeWhile_run (hrun : ∀ c ∈ run, p c = true) (hrest : ∀ c ∈ rest.head?, p c = false) :
    (run ++ rest).takeWhile p = run := by
  rw [List.takeWhile_append_of_pos hrun]
  cases rest with
  | nil => simp
  | cons c rest => simp [hrest c rfl]

theorem dropWhile_run (hrun : ∀ c ∈ run, p c = true) (hrest : ∀ c ∈ rest.head?, p c = false) :
    (run ++ rest).dropWhile p = rest := by
  rw [List.dropWhile_append_of_pos hrun]
  cases rest with
  | nil => rfl
  | cons c rest => simp [hrest c rfl]

theorem of_mem_takeWhile {cs : List Char} : ∀ c ∈ cs.takeWhile p, p c = true :=
  List.all_eq_true.mp List.all_takeWhile

theorem head?_dropWhile {cs : List Char} : ∀ c ∈ (cs.dropWhile p).head?, p c = false := by
  intro c hc
  have h := List.head?_dropWhile_not p cs
  rw [Option.mem_def.mp hc] at h
  simpa using h

end Runs

theorem startsDelimited_iff {rest : List Char} :
    startsDelimited rest = true ↔ ∀ c ∈ rest.head?, isDelimiter c = true := by
  cases rest <;> simp [startsDelimited]

/-- The token at another place. -/
def Token.placed (t : Token) (start : Position) : Token := { t with start }

/-! ### The written forms -/

/-- A text that begins with the mark of a character literal, a literal and a delimiter or the end of
the text. -/
def StartsCharacter (cs : List Char) : Prop :=
  ∃ body rest, CharacterBody body ∧ startsDelimited rest = true ∧ cs = '#' :: '\\' :: body ++ rest

/-- Whether tokens of a kind are brackets or markers, which have no text to look into. -/
def TokenKind.isMark : TokenKind → Bool
  | opening _ | closing _ | marker _ => true
  | _ => false

theorem TokenKind.ne_of_isMark {kind kind' : TokenKind} (h : kind.isMark = true)
    (h' : kind'.isMark = false) : kind ≠ kind' := by
  rintro rfl
  rw [h] at h'
  cases h'

namespace Lexeme

/-- What a lexeme of a form looks like and what may follow it: a run of blanks or of atom characters
is as long as can be, a comment goes up to the end of the line, and an atom stands only where no
character literal does. -/
inductive Written : LexemeForm → List Char → List Char → Prop where
  | blanks {raw rest} : raw ≠ [] → (∀ c ∈ raw, Text.isBlank c = true) →
      (∀ c ∈ rest.head?, Text.isBlank c = false) → Written .gap raw rest
  | comment {body rest} : (∀ c ∈ body, c ≠ '\n') → (∀ c ∈ rest.head?, c = '\n') →
      Written .gap (';' :: body) rest
  | mark {c kind rest} : markKind? c = some kind → ¬(c = '~' ∧ rest.head? = some '@') →
      Written (.mark kind) [c] rest
  | tildeAt {rest} : Written (.mark (.marker .tildeAt)) ['~', '@'] rest
  | string {body rest} : StringBody body → Written .string ('"' :: body ++ ['"']) rest
  | character {body rest} : CharacterBody body → startsDelimited rest = true →
      Written .character ('#' :: '\\' :: body) rest
  | atom {raw rest} : raw ≠ [] → (∀ c ∈ raw, isDelimiter c = false) → startsDelimited rest = true →
      ¬StartsCharacter (raw ++ rest) → Written .atom raw rest

theorem isBlank_of_markKind? {c : Char} {kind : TokenKind} (h : markKind? c = some kind) :
    Text.isBlank c = false ∧ c ≠ ';' := by
  unfold markKind? at h
  split at h <;> first | exact ⟨by decide, by decide⟩ | cases h

theorem isDelimiter_eq_false {c : Char} (h : isDelimiter c = false) :
    Text.isBlank c = false ∧ c ≠ ';' ∧ c ≠ '~' ∧ c ≠ '"' ∧ markKind? c = none := by
  obtain ⟨hblank, hmem⟩ := Bool.or_eq_false_iff.mp h
  simp only [List.contains_eq_mem, decide_eq_false_iff_not, List.mem_cons, not_or] at hmem
  refine ⟨hblank, by simp [hmem], by simp [hmem], by simp [hmem], ?_⟩
  unfold markKind?
  split <;> simp_all

theorem markKind?_of_isDelimiter {c : Char} (h : isDelimiter c = true)
    (hblank : Text.isBlank c = false) (hcomment : c ≠ ';') (hquote : c ≠ '"') :
    markKind? c ≠ none := by
  rw [isDelimiter, hblank, Bool.false_or, List.contains_iff_mem] at h
  simp only [List.mem_cons, hcomment, hquote, List.not_mem_nil, or_false] at h
  rcases h with rfl | rfl | rfl | rfl | rfl | rfl | rfl | rfl | rfl <;> decide

/-! ### The first lexeme -/

variable {c : Char} {cs raw rest : List Char} {form : LexemeForm}

/-- The text after the mark of a character literal, split after the literal. -/
def splitMarked? (c : Char) (cs : List Char) : Option (List Char × List Char) :=
  if c = '#' ∧ cs.head? = some '\\' then splitCharacter? (cs.drop 1) else none

theorem splitMarked?_eq_some_iff :
    splitMarked? c cs = some (raw, rest) ↔
      c :: cs = '#' :: '\\' :: raw ++ rest ∧ CharacterBody raw ∧ startsDelimited rest = true := by
  constructor
  · intro h
    obtain ⟨⟨rfl, hhead⟩, h⟩ := Option.ite_none_right_eq_some.mp h
    obtain ⟨cs, rfl⟩ := List.head?_eq_some_iff.mp hhead
    obtain ⟨hcs, hraw, hrest⟩ := splitCharacter?_eq_some_iff.mp h
    exact ⟨by simpa using hcs, hraw, hrest⟩
  · rintro ⟨h, hraw, hrest⟩
    cases h
    exact (if_pos ⟨rfl, rfl⟩).trans (splitCharacter?_eq_some_iff.mpr ⟨rfl, hraw, hrest⟩)

theorem splitMarked?_eq_none_iff : splitMarked? c cs = none ↔ ¬StartsCharacter (c :: cs) := by
  constructor
  · rintro h ⟨raw, rest, hraw, hrest, hcs⟩
    rw [splitMarked?_eq_some_iff.mpr ⟨hcs, hraw, hrest⟩] at h
    cases h
  · intro h
    cases hs : splitMarked? c cs with
    | none => rfl
    | some split =>
      obtain ⟨hcs, hraw, hrest⟩ := splitMarked?_eq_some_iff.mp hs
      exact absurd ⟨_, _, hraw, hrest, hcs⟩ h

theorem first?_of_marked (h : isDelimiter c = false)
    (hsplit : splitMarked? c cs = some (raw, rest)) :
    first? c cs = some ⟨.character, c :: '\\' :: raw, rest⟩ := by
  obtain ⟨hblank, hcomment, htilde, hquote, hmark⟩ := isDelimiter_eq_false h
  unfold splitMarked? at hsplit
  simp only [first?, hblank, hcomment, htilde, hquote, hmark, Bool.false_eq_true, ↓reduceIte,
    false_and, hsplit]

theorem first?_of_unmarked (h : isDelimiter c = false) (hsplit : splitMarked? c cs = none) :
    first? c cs =
      some ⟨.atom, c :: cs.takeWhile (!isDelimiter ·), cs.dropWhile (!isDelimiter ·)⟩ := by
  obtain ⟨hblank, hcomment, htilde, hquote, hmark⟩ := isDelimiter_eq_false h
  unfold splitMarked? at hsplit
  simp only [first?, hblank, hcomment, htilde, hquote, hmark, Bool.false_eq_true, ↓reduceIte,
    false_and, hsplit]

/-- What the lexer splits off is written there. -/
theorem written_of_first? (h : first? c cs = some ⟨form, raw, rest⟩) : Written form raw rest := by
  by_cases hdelim : isDelimiter c = true
  · unfold first? at h
    split at h
    · next hblank =>
      cases h
      refine .blanks (by simp) ?_ head?_dropWhile
      exact List.forall_mem_cons.mpr ⟨hblank, of_mem_takeWhile⟩
    next hblank =>
    split at h
    · next hcomment =>
      subst hcomment
      cases h
      refine .comment (fun c hc => by simpa using of_mem_takeWhile c hc) ?_
      intro c hc
      simpa using head?_dropWhile c hc
    next hcomment =>
    split at h
    · next htilde =>
      obtain ⟨rfl, -⟩ := htilde
      cases h
      exact .tildeAt
    next htilde =>
    split at h
    · next kind hmark =>
      cases h
      exact .mark hmark htilde
    next hmark =>
    split at h
    · next hquote =>
      subst hquote
      obtain ⟨⟨raw, rest⟩, hs, he⟩ := Option.map_eq_some_iff.mp h
      cases he
      obtain ⟨body, hbody, rfl, -⟩ := splitString?_eq_some_iff.mp hs
      exact .string hbody
    · next hquote =>
      exact absurd hmark (markKind?_of_isDelimiter hdelim (by simpa using hblank) hcomment hquote)
  · rw [Bool.not_eq_true] at hdelim
    cases hsplit : splitMarked? c cs with
    | some split =>
      rw [first?_of_marked hdelim hsplit] at h
      obtain ⟨hcs, hbody, hrest⟩ := splitMarked?_eq_some_iff.mp hsplit
      cases hcs
      cases h
      exact .character hbody hrest
    | none =>
      rw [first?_of_unmarked hdelim hsplit] at h
      cases h
      refine .atom (by simp) ?_ ?_ ?_
      · refine List.forall_mem_cons.mpr ⟨hdelim, ?_⟩
        intro c hc
        simpa using of_mem_takeWhile c hc
      · exact startsDelimited_iff.mpr fun c hc => by simpa using head?_dropWhile c hc
      · rw [List.cons_append, List.takeWhile_append_dropWhile]
        exact splitMarked?_eq_none_iff.mp hsplit

/-- What is written at the start of a text is split off. -/
theorem Written.first? (h : Written form raw rest) (htext : raw ++ rest = c :: cs) :
    first? c cs = some ⟨form, raw, rest⟩ := by
  cases h with
  | blanks hne hraw hrest =>
    cases raw with
    | nil => exact absurd rfl hne
    | cons d raw =>
      cases htext
      obtain ⟨hc, hraw⟩ := List.forall_mem_cons.mp hraw
      simp [Lexeme.first?, hc, takeWhile_run hraw hrest, dropWhile_run hraw hrest]
  | @comment body _ hbody hrest =>
    cases htext
    have hbody' : ∀ c ∈ body, (decide (c ≠ '\n')) = true := by simpa using hbody
    have hrest' : ∀ c ∈ rest.head?, (decide (c ≠ '\n')) = false := by simpa using hrest
    have hblank : Text.isBlank ';' = false := by decide
    simp only [Lexeme.first?, hblank, Bool.false_eq_true, ↓reduceIte, List.append_eq,
      takeWhile_run hbody' hrest', dropWhile_run hbody' hrest']
  | mark hkind htilde =>
    cases htext
    obtain ⟨hblank, hcomment⟩ := isBlank_of_markKind? hkind
    simp [Lexeme.first?, hblank, hcomment, htilde, hkind]
  | tildeAt => cases htext; rfl
  | @string body _ hbody =>
    cases htext
    have hblank : Text.isBlank '"' = false := by decide
    simp [Lexeme.first?, hblank, markKind?, hbody.splitString?]
  | character hbody hrest =>
    cases htext
    exact first?_of_marked (by decide) (splitMarked?_eq_some_iff.mpr ⟨rfl, hbody, hrest⟩)
  | atom hne hraw hrest hchar =>
    cases raw with
    | nil => exact absurd rfl hne
    | cons d raw =>
      cases htext
      obtain ⟨hc, hraw⟩ := List.forall_mem_cons.mp hraw
      have hraw' : ∀ c ∈ raw, (!isDelimiter c) = true := by simpa using hraw
      have hrest' : ∀ c ∈ rest.head?, (!isDelimiter c) = false := by
        simpa using startsDelimited_iff.mp hrest
      rw [first?_of_unmarked hc (splitMarked?_eq_none_iff.mpr hchar), List.append_eq,
        takeWhile_run hraw' hrest', dropWhile_run hraw' hrest']

/-- **The lexer splits off what is written at the start of a text**, and nothing else is written
there. -/
theorem first?_eq_some_iff :
    first? c cs = some ⟨form, raw, rest⟩ ↔ Written form raw rest ∧ raw ++ rest = c :: cs :=
  ⟨fun h => ⟨written_of_first? h, raw_append_rest h⟩, fun ⟨h, htext⟩ => h.first? htext⟩

/-- **Only an opening quote that nothing closes begins no lexeme.** -/
theorem first?_eq_none_iff : first? c cs = none ↔ c = '"' ∧ Unclosed cs := by
  constructor
  · intro h
    by_cases hdelim : isDelimiter c = true
    · unfold first? at h
      split at h
      · cases h
      split at h
      · cases h
      split at h
      · cases h
      split at h
      · cases h
      split at h
      · next hquote => exact ⟨hquote, splitString?_eq_none_iff.mp (Option.map_eq_none_iff.mp h)⟩
      · dsimp only at h
        split at h <;> cases h
    · rw [Bool.not_eq_true] at hdelim
      cases hsplit : splitMarked? c cs with
      | some split =>
        rw [first?_of_marked hdelim hsplit] at h
        cases h
      | none =>
        rw [first?_of_unmarked hdelim hsplit] at h
        cases h
  · rintro ⟨rfl, h⟩
    have hblank : Text.isBlank '"' = false := by decide
    simp [first?, hblank, markKind?, splitString?_eq_none_iff.mpr h]

/-- A text that is not empty begins with a lexeme or with a quote that nothing closes. -/
theorem written_or_unclosed (hne : cs ≠ []) :
    (∃ form raw rest, Written form raw rest ∧ raw ++ rest = cs) ∨
      ∃ body, Unclosed body ∧ cs = '"' :: body := by
  cases cs with
  | nil => exact absurd rfl hne
  | cons c cs =>
    cases h : first? c cs with
    | none =>
      obtain ⟨rfl, hbody⟩ := first?_eq_none_iff.mp h
      exact .inr ⟨cs, hbody, rfl⟩
    | some l => exact .inl ⟨_, _, _, first?_eq_some_iff.mp h⟩

theorem Written.ne_nil (h : Written form raw rest) : raw ≠ [] := by
  cases h with
  | blanks hne _ _ | atom hne _ _ _ => exact hne
  | comment _ _ | mark _ _ | tildeAt | string _ | character _ _ => simp

/-- Induction over the lexemes of a text. -/
@[elab_as_elim]
theorem induction_on {motive : List Char → Prop} (cs : List Char) (nil : motive [])
    (lexeme : ∀ form raw rest, Written form raw rest → motive rest → motive (raw ++ rest))
    (unclosed : ∀ body, Unclosed body → motive ('"' :: body)) : motive cs := by
  induction hn : cs.length using Nat.strongRecOn generalizing cs with
  | ind n ih =>
    by_cases hne : cs = []
    · rw [hne]
      exact nil
    obtain ⟨form, raw, rest, hw, rfl⟩ | ⟨body, hbody, rfl⟩ := written_or_unclosed hne
    · have hpos := List.length_pos_iff.mpr hw.ne_nil
      refine lexeme form raw rest hw (ih rest.length ?_ rest rfl)
      rw [List.length_append] at hn
      omega
    · exact unclosed body hbody

/-! ### Lexemes by themselves -/

/-- What is written before anything is written at the end of a text. -/
theorem Written.alone (h : Written form raw rest) : Written form raw [] := by
  cases h with
  | blanks hne hraw _ => exact .blanks hne hraw (by simp)
  | comment hbody _ => exact .comment hbody (by simp)
  | mark hkind _ => exact .mark hkind (by simp)
  | tildeAt => exact .tildeAt
  | string hbody => exact .string hbody
  | character hbody _ => exact .character hbody rfl
  | atom hne hraw hrest hchar =>
    refine .atom hne hraw rfl ?_
    rintro ⟨body, rest', hbody, hrest', h⟩
    rw [List.append_nil] at h
    -- An atom has no delimiter, so a literal at its start would be all of it.
    have hend : rest' = [] := by
      cases rest' with
      | nil => rfl
      | cons c rest' =>
        have hdelim := startsDelimited_iff.mp hrest' c rfl
        rw [hraw c (by simp [h])] at hdelim
        cases hdelim
    rw [hend, List.append_nil] at h
    exact hchar ⟨body, rest, hbody, hrest, by rw [h]⟩

/-! ### Tokens -/

/-- A mark is a bracket or a marker, and so neither the end nor an integer. -/
theorem isMark_of_markKind? {kind : TokenKind} (h : markKind? c = some kind) :
    kind.isMark = true := by
  unfold markKind? at h
  split at h <;> cases h <;> rfl

theorem classifyAtom_ne_endOfInput (cs : List Char) : (classifyAtom cs).1 ≠ .endOfInput := by
  unfold classifyAtom
  dsimp only
  repeat' split
  all_goals simp

theorem classifyAtom_ne_literal (cs : List Char) :
    (classifyAtom cs).1 ≠ .string ∧ (classifyAtom cs).1 ≠ .char := by
  unfold classifyAtom
  dsimp only
  repeat' split
  all_goals simp

/-- Only a gap is no token. -/
theorem eq_gap_of_token? {l : Lexeme} {p : Position} (h : l.token? p = .ok none) :
    l.form = .gap := by
  unfold Lexeme.token? at h
  dsimp only at h
  repeat' split at h
  all_goals first | assumption | cases h

/-- **The token of a lexeme** starts where it was told to, is as long as the lexeme and is the same
in every place. It is not the end, and its lexeme is one by itself. -/
theorem Written.token? {t : Token} {p : Position} (h : Written form raw rest)
    (ht : Lexeme.token? ⟨form, raw, rest⟩ p = .ok (some t)) :
    t.start = p ∧ t.length = raw.length ∧ t.kind ≠ .endOfInput ∧ Written form raw [] ∧
      ∀ q, Lexeme.token? ⟨form, raw, []⟩ q = .ok (some (t.placed q)) := by
  cases form with
  | gap => cases ht
  | mark kind =>
    cases ht
    refine ⟨rfl, rfl, ?_, h.alone, fun _ => rfl⟩
    cases h with
    | mark hkind _ => exact TokenKind.ne_of_isMark (isMark_of_markKind? hkind) rfl
    | tildeAt => simp
  | string => cases ht; exact ⟨rfl, rfl, by simp, h.alone, fun _ => rfl⟩
  | character =>
    simp only [Lexeme.token?] at ht ⊢
    split at ht
    · cases ht
      exact ⟨rfl, rfl, by simp, h.alone, fun _ => rfl⟩
    · cases ht
  | atom =>
    simp only [Lexeme.token?] at ht ⊢
    split at ht
    · cases ht
    · next hmark =>
      cases ht
      refine ⟨rfl, rfl, classifyAtom_ne_endOfInput raw, h.alone, ?_⟩
      intro q
      rw [if_neg hmark]
      rfl

end Lexeme

/-! ### Texts -/

variable {c : Char} {cs raw rest : List Char} {form : LexemeForm} {p : Position}

theorem tokensFrom_nil (p : Position) :
    tokensFrom p [] = [.ok { kind := .endOfInput, text := "", start := p }] := by
  rw [tokensFrom.eq_def]

theorem tokensFrom_written (h : Lexeme.Written form raw rest) (p : Position) :
    tokensFrom p (raw ++ rest) =
      match Lexeme.token? ⟨form, raw, rest⟩ p with
      | .error e => [.error e]
      | .ok none => tokensFrom (p.advance raw) rest
      | .ok (some t) => .ok t :: tokensFrom (p.advance raw) rest := by
  cases hcs : raw ++ rest with
  | nil => exact absurd (List.append_eq_nil_iff.mp hcs).1 h.ne_nil
  | cons c cs =>
    rw [tokensFrom.eq_def p (c :: cs)]
    dsimp only
    split
    · next hnone =>
      rw [h.first? hcs] at hnone
      cases hnone
    · next l hsome =>
      rw [h.first? hcs] at hsome
      cases hsome
      rfl

/-- Blanks before a text only move it. -/
theorem tokensFrom_blanks {gap : List Char} (hgap : ∀ c ∈ gap, Text.isBlank c = true)
    (p : Position) (cs : List Char) : tokensFrom p (gap ++ cs) = tokensFrom (p.advance gap) cs := by
  -- The lexeme of a gap takes in the blanks that the text itself starts with.
  have hrun {run rest : List Char} (hblank : ∀ c ∈ run, Text.isBlank c = true)
      (hrest : ∀ c ∈ rest.head?, Text.isBlank c = false) (p : Position) :
      tokensFrom p (run ++ rest) = tokensFrom (p.advance run) rest := by
    by_cases hne : run = []
    · subst hne
      rfl
    · rw [tokensFrom_written (.blanks hne hblank hrest)]
      rfl
  have hcs : ∀ c ∈ cs.takeWhile Text.isBlank, Text.isBlank c = true := of_mem_takeWhile
  rw [← List.takeWhile_append_dropWhile (p := Text.isBlank) (l := cs), ← List.append_assoc,
    hrun (List.forall_mem_append.mpr ⟨hgap, hcs⟩) head?_dropWhile, hrun hcs head?_dropWhile,
    Position.advance_append]

theorem tokensFrom_unclosed (h : Unclosed cs) (p : Position) :
    tokensFrom p ('"' :: cs) =
      [.error (.read (.unterminatedString
        { kind := .string, text := String.ofList ('"' :: cs), start := p,
          length := cs.length + 1 }))] := by
  rw [tokensFrom.eq_def]
  dsimp only
  split
  · rfl
  · next l hsome =>
    rw [Lexeme.first?_eq_none_iff.mpr ⟨rfl, h⟩] at hsome
    cases hsome

end LispCore
