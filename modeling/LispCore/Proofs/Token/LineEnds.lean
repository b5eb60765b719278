import LispCore.Proofs.Text.LineEnds
import LispCore.Proofs.Token.Relayout
import Mathlib.Data.List.Forall2

/-!
The tokens of a text whose line ends are written as line feeds.

Where a text is cut into tokens may depend on its line ends. A comment goes up to a line feed, so a
carriage return in it becomes the end of it; and a character literal may stand for the very carriage
return that a line feed follows. `KeepsTokens` says of a text that neither matters.

* `Lexeme.Written.normalized` — a lexeme is still one when its line ends and those after it are
  written as line feeds, unless one of them is parted;
* `exists_cutInto_normalized` — a text that keeps its tokens is cut into tokens that are alike, at
  places that are the same but for the line ends before them;
* `keepsTokens_of_noLoneReturn` — most texts with line ends of any kind keep theirs.
-/

namespace LispCore

open Text

/-! ### Literals -/

/-- A quote that nothing closes is not closed when line ends are written as line feeds. -/
theorem Unclosed.normalized {cs : List Char} (h : Unclosed cs) :
    Unclosed (normalizeNewlines cs) := by
  rw [← splitString?_eq_none_iff] at h ⊢
  fun_induction splitString? cs with
  | case1 => cases h
  | case2 c cs ih =>
    have hcs := ih (Option.map_eq_none_iff.mp h)
    rw [normalizeNewlines_cons_of_ne (by decide)]
    obtain ⟨rest, rfl, rfl⟩ | hcons := crlf_or_cons c cs
    · -- The backslash takes one line end along, of two characters before and of one now.
      rw [normalizeNewlines_crlf]
      rw [normalizeNewlines_cons_of_ne (by decide)] at hcs ⊢
      simpa [splitString?] using hcs
    · rw [hcons, splitString?, hcs]
      rfl
  | case3 c cs hquote hback ih =>
    have hcs := ih (Option.map_eq_none_iff.mp h)
    obtain ⟨rest, rfl, rfl⟩ | hcons := crlf_or_cons c cs
    · rwa [normalizeNewlines_crlf]
    · by_cases hc : c = '\r'
      · rw [hcons, hc]
        simp [lineEnd, splitString?, hcs]
      · rw [hcons, lineEnd_of_ne hc, splitString?.eq_3 _ _ hquote, hcs]
        · rfl
        · rintro d rest rfl hrest
          -- A backslash that takes nothing along stands at the end, before and now.
          cases cs with
          | nil => cases hrest
          | cons d cs => exact hback d cs rfl rfl
  | case4 => exact h

/-- What stands between the quotes of a string may still stand there. -/
theorem StringBody.normalized {body : List Char} (h : StringBody body) :
    StringBody (normalizeNewlines body) := by
  induction h with
  | nil => exact .nil
  | @plain c body hback hquote _ ih =>
    obtain ⟨rest, rfl, rfl⟩ | hcons := crlf_or_cons c body
    · rwa [normalizeNewlines_crlf]
    · rw [hcons]
      refine .plain ?_ ?_ ih
      · exact fun h => hback (eq_of_lineEnd h (by decide))
      · exact fun h => hquote (eq_of_lineEnd h (by decide))
  | @escaped c body _ ih =>
    rw [normalizeNewlines_cons_of_ne (by decide)]
    obtain ⟨rest, rfl, rfl⟩ | hcons := crlf_or_cons c body
    · rw [normalizeNewlines_crlf]
      rw [normalizeNewlines_cons_of_ne (by decide)] at ih ⊢
      cases ih with
      | plain _ _ hrest => exact .escaped hrest
    · rw [hcons]
      exact .escaped ih

/-- What follows a literal is a delimiter as before. -/
@[simp] theorem startsDelimited_normalizeNewlines (cs : List Char) :
    startsDelimited (normalizeNewlines cs) = startsDelimited cs := by
  rw [startsDelimited, startsDelimited, head?_normalizeNewlines]
  cases cs <;> simp

/-- What holds no delimiter holds no line end. -/
theorem not_mem_of_isDelimiter {cs : List Char} (h : ∀ c ∈ cs, isDelimiter c = false) :
    '\r' ∉ cs ∧ '\n' ∉ cs := by
  constructor
  · intro hmem
    exact absurd (h _ hmem) (by decide)
  · intro hmem
    exact absurd (h _ hmem) (by decide)

/-- A literal is one character, or a name, which holds no line end. -/
theorem CharacterBody.one_or_not_mem {body : List Char} (h : CharacterBody body) :
    (∃ c, body = [c]) ∨ '\r' ∉ body ∧ '\n' ∉ body := by
  obtain hone | ⟨entry, hentry, hname⟩ := h
  · exact .inl (List.length_eq_one_iff.mp hone)
  · exact .inr (not_mem_of_isDelimiter (isDelimiter_of_matchesName hentry hname))

/-- **No character literal begins** where none did before. -/
theorem StartsCharacter.of_normalized {cs : List Char}
    (h : StartsCharacter (normalizeNewlines cs)) : StartsCharacter cs := by
  obtain ⟨body, rest, hbody, hrest, hcs⟩ := h
  have hmark : normalizeNewlines cs = ['#', '\\'] ++ (body ++ rest) := by simpa using hcs
  obtain ⟨zs, rfl, hzs⟩ := exists_append_of_normalizeNewlines hmark (by decide)
  obtain ⟨d, rfl⟩ | ⟨-, hfree⟩ := hbody.one_or_not_mem
  · -- One character, or two that are a line end: then the first is a literal before the second.
    cases zs with
    | nil => cases hzs
    | cons c zs =>
      obtain ⟨zs', rfl, rfl⟩ | hcons := crlf_or_cons c zs
      · exact ⟨['\r'], '\n' :: zs', .inl rfl, rfl, rfl⟩
      · rw [hcons] at hzs
        obtain rfl : normalizeNewlines zs = rest := (List.cons.inj hzs).2
        exact ⟨[c], zs, .inl rfl, by simpa using hrest, rfl⟩
  · obtain ⟨ys, rfl, rfl⟩ := exists_append_of_normalizeNewlines hzs hfree
    exact ⟨body, ys, hbody, by simpa using hrest, by simp⟩

/-- A literal is one still. -/
theorem CharacterBody.normalized {body : List Char} (h : CharacterBody body) :
    CharacterBody (normalizeNewlines body) := by
  obtain ⟨c, rfl⟩ | ⟨hfree, -⟩ := h.one_or_not_mem
  · rw [normalizeNewlines_cons (by simp)]
    exact .inl rfl
  · rwa [normalizeNewlines_of_not_mem hfree]

/-! ### Lexemes -/

namespace Lexeme

variable {form : LexemeForm} {raw rest : List Char}

/-- A mark is no line end. -/
theorem ne_of_markKind? {c : Char} {kind : TokenKind} (h : markKind? c = some kind) :
    c ≠ '\r' ∧ c ≠ '\n' := by
  have hblank := (isBlank_of_markKind? h).1
  constructor
  · rintro rfl
    exact absurd hblank (by decide)
  · rintro rfl
    exact absurd hblank (by decide)

/-- **A lexeme is still one** when its line ends and those after it are written as line feeds,
unless one of them is parted. -/
theorem Written.normalized (h : Written form raw rest) (hgap : form ≠ .gap)
    (hsplit : raw.getLast? = some '\r' → rest.head? ≠ some '\n') :
    normalizeNewlines (raw ++ rest) = normalizeNewlines raw ++ normalizeNewlines rest ∧
      Written form (normalizeNewlines raw) (normalizeNewlines rest) := by
  have happend := normalizeNewlines_append hsplit
  refine ⟨happend, ?_⟩
  cases h with
  | blanks _ _ _ | comment _ _ => exact absurd rfl hgap
  | @mark c kind _ hkind htilde =>
    rw [normalizeNewlines_cons_of_ne (ne_of_markKind? hkind).1]
    refine .mark hkind ?_
    rintro ⟨rfl, hat⟩
    rw [head?_normalizeNewlines] at hat
    obtain ⟨d, hd, hd'⟩ := Option.map_eq_some_iff.mp hat
    obtain rfl : d = '@' := eq_of_lineEnd hd' (by decide)
    exact htilde ⟨rfl, hd⟩
  | tildeAt => exact .tildeAt
  | @string body _ hbody =>
    have hraw : normalizeNewlines ('"' :: body ++ ['"']) =
        '"' :: normalizeNewlines body ++ ['"'] := by
      rw [normalizeNewlines_append (by simp), normalizeNewlines_cons_of_ne (by decide)]
      rfl
    rw [hraw]
    exact .string hbody.normalized
  | @character body _ hbody hrest =>
    rw [normalizeNewlines_cons_of_ne (by decide), normalizeNewlines_cons_of_ne (by decide)]
    exact .character hbody.normalized (by simpa using hrest)
  | atom hne hraw hrest hchar =>
    rw [normalizeNewlines_of_not_mem (not_mem_of_isDelimiter hraw).1] at happend ⊢
    refine .atom hne hraw (by simpa using hrest) ?_
    rw [← happend]
    exact mt StartsCharacter.of_normalized hchar

/-- Only a gap begins with a line feed. -/
theorem Written.head?_ne (h : Written form raw rest) (hgap : form ≠ .gap) :
    (raw ++ rest).head? ≠ some '\n' := by
  cases h with
  | blanks _ _ _ | comment _ _ => exact absurd rfl hgap
  | mark hkind _ =>
    intro hhead
    exact (ne_of_markKind? hkind).2 (Option.some.inj hhead)
  | tildeAt | string _ | character _ _ => simp
  | atom hne hraw _ _ =>
    obtain ⟨c, cs, rfl⟩ := List.exists_cons_of_ne_nil hne
    intro hhead
    obtain rfl := Option.some.inj hhead
    exact absurd (hraw _ List.mem_cons_self) (by decide)

/-- **What a lexeme stands for is alike** where line ends are written as line feeds: two tokens, or
two failures. -/
theorem Written.token?_cases (h : Written form raw rest) (hgap : form ≠ .gap)
    {place : Position → Position → Prop} {p q : Position} (hplace : place p q)
    (rest' : List Char) :
    (∃ tok tok', Lexeme.token? ⟨form, raw, rest⟩ p = .ok (some tok) ∧
        Lexeme.token? ⟨form, normalizeNewlines raw, rest'⟩ q = .ok (some tok') ∧
        TokenAlike place tok tok') ∨
      ∃ e e', Lexeme.token? ⟨form, raw, rest⟩ p = .error e ∧
        Lexeme.token? ⟨form, normalizeNewlines raw, rest'⟩ q = .error e' ∧
        FailureAlike place e e' := by
  cases h with
  | blanks _ _ _ | comment _ _ => exact absurd rfl hgap
  | @mark c kind _ hkind _ =>
    have hmark := isMark_of_markKind? hkind
    have hstring : kind ≠ .string := TokenKind.ne_of_isMark hmark rfl
    have hchar : kind ≠ .char := TokenKind.ne_of_isMark hmark rfl
    rw [normalizeNewlines_cons_of_ne (ne_of_markKind? hkind).1]
    exact .inl ⟨_, _, rfl, rfl, .same hstring hchar hplace⟩
  | tildeAt => exact .inl ⟨_, _, rfl, rfl, .same (by simp) (by simp) hplace⟩
  | string _ => exact .inl ⟨_, _, rfl, rfl, .string rfl rfl hplace⟩
  | @character body _ hbody _ =>
    have hliteral {c c' : Char} {n n' : Nat} :
        TokenAlike place ⟨.char, String.ofList [c], p, n⟩ ⟨.char, String.ofList [c'], q, n'⟩ :=
      .char rfl rfl String.toList_ofList String.toList_ofList hplace
    rw [normalizeNewlines_cons_of_ne (by decide), normalizeNewlines_cons_of_ne (by decide)]
    simp only [Lexeme.token?, List.drop_succ_cons, List.drop_zero]
    obtain ⟨c, rfl⟩ | ⟨hfree, -⟩ := hbody.one_or_not_mem
    · rw [normalizeNewlines_cons (by simp)]
      exact .inl ⟨_, _, rfl, rfl, hliteral⟩
    · rw [normalizeNewlines_of_not_mem hfree]
      cases characterValue? body with
      | none => exact .inr ⟨_, _, rfl, rfl, .other (by simp)⟩
      | some c => exact .inl ⟨_, _, rfl, rfl, hliteral⟩
  | atom _ hraw _ _ =>
    rw [normalizeNewlines_of_not_mem (not_mem_of_isDelimiter hraw).1]
    obtain ⟨hstring, hchar⟩ := classifyAtom_ne_literal raw
    simp only [Lexeme.token?]
    split
    · exact .inr ⟨_, _, rfl, rfl, .read rfl rfl rfl hplace⟩
    · exact .inl ⟨_, _, rfl, rfl, .same hstring hchar hplace⟩

end Lexeme

/-! ### Gaps -/

/-- A gap that a line feed follows, or nothing, only moves what follows. -/
theorem Gap.tokensFrom {gap rest : List Char} (h : Gap gap [])
    (hrest : ∀ c ∈ rest.head?, c = '\n') (p : Position) :
    tokensFrom p (gap ++ rest) = tokensFrom (p.advance gap) rest := by
  generalize hend : ([] : List Char) = ending at h
  induction h generalizing p with
  | refl =>
    subst hend
    rfl
  | @blank c cs _ hc _ ih =>
    rw [List.cons_append, ← List.singleton_append,
      tokensFrom_blanks (List.forall_mem_singleton.mpr hc), ih _ hend]
    rfl
  | @comment body cs _ hbody hstop _ ih =>
    have hhead : ∀ c ∈ (cs ++ rest).head?, c = '\n' := by
      cases cs with
      | nil => exact hrest
      | cons d cs => exact hstop
    rw [List.append_assoc, tokensFrom_written (.comment hbody hhead), Position.advance_append]
    exact ih _ hend

/-- The line feed at the end of a gap may be left out. -/
theorem Gap.of_append_newline {gap : List Char} (h : Gap (gap ++ ['\n']) []) : Gap gap [] := by
  generalize hcs : gap ++ ['\n'] = cs at h
  generalize hend : ([] : List Char) = ending at h
  induction h generalizing gap with
  | refl =>
    subst hend
    simp at hcs
  | @blank c cs _ hc _ ih =>
    subst hend
    cases gap with
    | nil => exact .refl
    | cons d gap =>
      obtain ⟨rfl, rfl⟩ := List.cons.inj hcs
      exact .blank hc (ih rfl rfl)
  | @comment body cs _ hbody hstop hcs' ih =>
    subst hend
    -- The line feed is none of the comment, so it ends what follows.
    obtain rfl | ⟨init, b, hinit⟩ := List.eq_nil_or_concat cs
    · have hmem : '\n' ∈ ';' :: body ++ [] := by simp [← hcs]
      rw [List.append_nil] at hmem
      obtain h | h := List.mem_cons.mp hmem
      · exact absurd h (by decide)
      · exact absurd rfl (hbody _ h)
    · rw [List.concat_eq_append] at hinit
      subst hinit
      rw [← List.append_assoc] at hcs
      obtain ⟨rfl, hb⟩ := List.append_inj' hcs rfl
      obtain rfl := List.head_eq_of_cons_eq hb
      refine .comment hbody ?_ (ih rfl rfl)
      intro c hc
      cases init with
      | nil => cases hc
      | cons d init => exact hstop c hc

/-! ### Texts that keep their tokens -/

/-- The line ends in a lexeme and after it do not matter for where it ends. A comment, cut at its
carriage returns, is still nothing but blanks and comments. Where a literal is a carriage return and
a line feed follows, a literal may also stand before what follows both. -/
def Lexeme.Steady : LexemeForm → List Char → List Char → Prop
  | .gap, raw, _ => Gap (normalizeNewlines raw) []
  | .character, raw, rest => raw.getLast? = some '\r' → ∀ after, rest = '\n' :: after →
      startsDelimited after = true
  | _, _, _ => True

/-- `KeepsTokens cs`: no line end of a text matters for where its lexemes end, up to one that is no
token. -/
inductive KeepsTokens : List Char → Prop where
  | nil : KeepsTokens []
  | lexeme {form raw rest} : Lexeme.Written form raw rest → Lexeme.Steady form raw rest →
      KeepsTokens rest → KeepsTokens (raw ++ rest)
  | failed {form raw rest p e} : Lexeme.Written form raw rest →
      Lexeme.token? ⟨form, raw, rest⟩ p = .error e → KeepsTokens (raw ++ rest)
  | unclosed {body} : Unclosed body → KeepsTokens ('"' :: body)

namespace Lexeme

variable {form : LexemeForm} {raw rest : List Char}

/-- Only the literal of a carriage return ends with one, of all lexemes that are no gaps. -/
theorem Written.eq_of_getLast? (h : Written form raw rest) (hgap : form ≠ .gap)
    (hlast : raw.getLast? = some '\r') : form = .character ∧ raw = ['#', '\\', '\r'] := by
  have hmem : '\r' ∈ raw := List.mem_of_getLast? hlast
  cases h with
  | blanks _ _ _ | comment _ _ => exact absurd rfl hgap
  | mark hkind _ =>
    exact absurd (List.mem_singleton.mp hmem).symm (ne_of_markKind? hkind).1
  | tildeAt => simp at hlast
  | string _ =>
    rw [List.getLast?_concat] at hlast
    exact absurd (Option.some.inj hlast) (by decide)
  | @character body _ hbody _ =>
    obtain ⟨c, rfl⟩ | ⟨hfree, -⟩ := hbody.one_or_not_mem
    · obtain rfl : c = '\r' := by simpa using hlast
      exact ⟨rfl, rfl⟩
    · exact absurd (by simpa using hmem) hfree
  | atom _ hraw _ _ => exact absurd hmem (not_mem_of_isDelimiter hraw).1

/-- A lexeme that is no token is no gap, and no carriage return. -/
theorem Written.of_failed (h : Written form raw rest) {p : Position} {e : Failure}
    (htok : Lexeme.token? ⟨form, raw, rest⟩ p = .error e) :
    form ≠ .gap ∧ raw.getLast? ≠ some '\r' := by
  have hgap : form ≠ .gap := by
    rintro rfl
    cases htok
  refine ⟨hgap, ?_⟩
  intro hlast
  obtain ⟨rfl, rfl⟩ := h.eq_of_getLast? hgap hlast
  cases htok

/-- A gap, written with line feeds, only moves what follows. If it was a comment before a line feed,
its last carriage return goes into that. -/
theorem Written.gap_normalized (h : Written .gap raw rest) (hsteady : Steady .gap raw rest) :
    ∃ gap, normalizeNewlines (raw ++ rest) = gap ++ normalizeNewlines rest ∧
      ∀ p, tokensFrom p (gap ++ normalizeNewlines rest) =
        tokensFrom (p.advance gap) (normalizeNewlines rest) := by
  cases h with
  | blanks _ hraw hrest =>
    have hhead : rest.head? ≠ some '\n' := by
      intro hhead
      exact absurd (hrest _ hhead) (by decide)
    have happend : normalizeNewlines (raw ++ rest) = _ := normalizeNewlines_append fun _ => hhead
    exact ⟨_, happend, fun p => tokensFrom_blanks (isBlank_of_mem_normalizeNewlines hraw) p _⟩
  | @comment body _ _ hrest =>
    have hhead : ∀ c ∈ (normalizeNewlines rest).head?, c = '\n' := by
      intro c hc
      rw [head?_normalizeNewlines] at hc
      obtain ⟨d, hd, rfl⟩ := Option.map_eq_some_iff.mp hc
      obtain rfl := hrest d hd
      rfl
    by_cases hsplit : (';' :: body).getLast? = some '\r' → rest.head? ≠ some '\n'
    · exact ⟨_, normalizeNewlines_append hsplit, hsteady.tokensFrom hhead⟩
    · obtain ⟨hlast, hfeed⟩ := Classical.not_imp.mp hsplit
      obtain ⟨init, hinit⟩ := List.getLast?_eq_some_iff.mp hlast
      obtain ⟨rest, rfl⟩ := List.head?_eq_some_iff.mp (Decidable.not_not.mp hfeed)
      rw [hinit] at hsteady ⊢
      have hgap : Gap (normalizeNewlines init ++ ['\n']) [] := by
        have h : Gap (normalizeNewlines (init ++ ['\r'])) [] := hsteady
        rwa [normalizeNewlines_append (by simp)] at h
      refine ⟨normalizeNewlines init, ?_, hgap.of_append_newline.tokensFrom hhead⟩
      rw [List.append_assoc, List.singleton_append, normalizeNewlines_append_crlf]
      rfl

end Lexeme

namespace CutInto

/-- A blank at the start of a text only moves what follows. -/
theorem of_blank {p : Position} {c : Char} {cs : List Char} {toks : List Token}
    {last : Except Failure Token} (hc : isBlank c = true) (h : CutInto p (c :: cs) toks last) :
    CutInto (p.next c) cs toks last := by
  have hmoved := tokensFrom_blanks (List.forall_mem_singleton.mpr hc) p cs
  exact ⟨hmoved.symm.trans h.tokens_eq, h.lexed, h.ends⟩

end CutInto

/-- **A lexeme that is no gap** is still one, and what follows it is cut as the rest of the text. -/
theorem Lexeme.Written.normalized_steady {form : LexemeForm} {raw rest : List Char}
    (h : Written form raw rest) (hgap : form ≠ .gap) (hsteady : Steady form raw rest)
    (pre : List Char) :
    ∃ rest' pre', normalizeNewlines (raw ++ rest) = normalizeNewlines raw ++ rest' ∧
      Written form (normalizeNewlines raw) rest' ∧
      pre ++ (normalizeNewlines raw ++ rest') = pre' ++ normalizeNewlines rest ∧
      ∀ {toks last}, CutInto (Position.advance {} pre') (normalizeNewlines rest) toks last →
        CutInto ((Position.advance {} pre).advance (normalizeNewlines raw)) rest' toks last := by
  by_cases hsplit : raw.getLast? = some '\r' → rest.head? ≠ some '\n'
  · obtain ⟨happend, hw⟩ := h.normalized hgap hsplit
    refine ⟨_, pre ++ normalizeNewlines raw, happend, hw, (List.append_assoc _ _ _).symm, ?_⟩
    intro toks last hcut
    rwa [← Position.advance_append]
  · -- The line feed after a literal carriage return is a blank now that follows nothing.
    obtain ⟨hlast, hfeed⟩ := Classical.not_imp.mp hsplit
    obtain ⟨after, rfl⟩ := List.head?_eq_some_iff.mp (Decidable.not_not.mp hfeed)
    obtain ⟨rfl, rfl⟩ := h.eq_of_getLast? hgap hlast
    refine ⟨normalizeNewlines after, pre ++ ['#', '\\'], rfl, ?_, ?_, ?_⟩
    · exact .character (.inl rfl) (by simpa using hsteady hlast after rfl)
    · simp [normalizeNewlines, List.append_assoc]
    · intro toks last hcut
      have hmoved := hcut.of_blank (c := '\n') rfl
      rwa [Position.advance_append] at hmoved

/-- A place of a text, and the same place where line ends are written as line feeds. It parts no
line end. -/
def SamePlace (cs : List Char) (p q : Position) : Prop :=
  ∃ before after, cs = before ++ after ∧ after.head? ≠ some '\n' ∧ p.IsAt before ∧
    q.IsAt (normalizeNewlines before)

/-- What stands before a place becomes all that stands before the same place. -/
theorem samePlace_advance {cs before rest pre : List Char} (hcs : cs = before ++ rest)
    (hpre : normalizeNewlines cs = pre ++ normalizeNewlines rest) (hhead : rest.head? ≠ some '\n') :
    SamePlace cs (Position.advance {} before) (Position.advance {} pre) := by
  refine ⟨before, rest, hcs, hhead, Position.isAt_advance before, ?_⟩
  rw [hcs, normalizeNewlines_append fun _ => hhead] at hpre
  rw [List.append_cancel_right hpre]
  exact Position.isAt_advance pre

/-- **A text that keeps its tokens is cut into tokens that are alike**, and ends alike, at the same
places, when its line ends are written as line feeds. -/
theorem exists_cutInto_normalized {cs rest : List Char} (h : KeepsTokens rest)
    {before pre : List Char} (hcs : cs = before ++ rest)
    (hpre : normalizeNewlines cs = pre ++ normalizeNewlines rest) :
    ∃ toks last toks' last', CutInto (Position.advance {} before) rest toks last ∧
      CutInto (Position.advance {} pre) (normalizeNewlines rest) toks' last' ∧
      List.Forall₂ (TokenAlike (SamePlace cs)) toks toks' ∧
      ItemAlike (SamePlace cs) last last' := by
  induction h generalizing before pre with
  | nil =>
    have hplace := samePlace_advance hcs hpre (by simp)
    exact ⟨[], _, [], _, .nil _, .nil _, .nil, .token (.endOfInput hplace)⟩
  | @lexeme form raw rest hw hsteady _ ih =>
    rw [← List.append_assoc] at hcs
    by_cases hgap : form = .gap
    · subst hgap
      obtain ⟨gap, happend, hmoves⟩ := hw.gap_normalized hsteady
      rw [happend, ← List.append_assoc] at hpre
      obtain ⟨toks, last, toks', last', hcut, hcut', htoks, hlast⟩ := ih hcs hpre
      rw [Position.advance_append] at hcut hcut'
      rw [happend]
      exact ⟨toks, last, toks', last', hcut.gap (tokensFrom_written hw _), hcut'.gap (hmoves _),
        htoks, hlast⟩
    · have hplace := samePlace_advance (hcs.trans (List.append_assoc _ _ _)) hpre
        (hw.head?_ne hgap)
      obtain ⟨rest', pre', happend, hw', hsame, hafter⟩ := hw.normalized_steady hgap hsteady pre
      rw [happend, hsame] at hpre
      rw [happend]
      rcases hw.token?_cases hgap hplace rest' with ⟨tok, tok', hx, hy, htok⟩ | ⟨e, e', hx, hy, he⟩
      · obtain ⟨toks, last, toks', last', hcut, hcut', htoks, hlast⟩ := ih hcs hpre
        rw [Position.advance_append] at hcut
        exact ⟨_, last, _, last', .token hw hx hcut, .token hw' hy (hafter hcut'),
          .cons htok htoks, hlast⟩
      · exact ⟨[], _, [], _, .failed hw hx, .failed hw' hy, .nil, .failure he⟩
  | @failed form raw rest p e hw htok =>
    obtain ⟨hgap, hlast⟩ := hw.of_failed htok
    have hplace := samePlace_advance hcs hpre (hw.head?_ne hgap)
    obtain ⟨happend, hw'⟩ := hw.normalized hgap fun h => absurd h hlast
    rw [happend]
    rcases hw.token?_cases hgap hplace (normalizeNewlines rest) with
      ⟨tok, tok', hx, -, -⟩ | ⟨e, e', hx, hy, he⟩
    · have hmoved := Lexeme.token?_moved ⟨form, raw, rest⟩ (fun _ => Position.advance {} before) p
      rw [hx, htok] at hmoved
      cases hmoved
    · exact ⟨[], _, [], _, .failed hw hx, .failed hw' hy, .nil, .failure he⟩
  | @unclosed body hbody =>
    have hplace := samePlace_advance hcs hpre (by simp)
    rw [normalizeNewlines_cons_of_ne (by decide)]
    have hcut := tokensFrom_unclosed hbody (Position.advance {} before)
    have hcut' := tokensFrom_unclosed hbody.normalized (Position.advance {} pre)
    exact ⟨[], _, [], _, .of_tokens hcut, .of_tokens hcut', .nil,
      .failure (.read rfl rfl rfl hplace)⟩

/-! ### Texts without lone carriage returns -/

/-- A comment that holds no carriage return but before a line feed is one comment still. -/
theorem gap_of_noLoneReturn {body rest : List Char} (hbody : ∀ c ∈ body, c ≠ '\n')
    (h : NoLoneReturn (';' :: body ++ rest)) : Gap (normalizeNewlines (';' :: body)) [] := by
  rw [normalizeNewlines_cons_of_ne (by decide)]
  by_cases hmem : '\r' ∈ body
  · obtain ⟨init, more, rfl, hinit⟩ := List.eq_append_cons_of_mem hmem
    have hmore : more = [] := by
      cases more with
      | nil => rfl
      | cons d more =>
        have hd := h (';' :: init) (d :: more ++ rest) (by simp)
        exact absurd (Option.some.inj hd) (hbody d (by simp))
    subst hmore
    rw [normalizeNewlines_append (by simp), normalizeNewlines_of_not_mem hinit]
    have hinit' : ∀ c ∈ init, c ≠ '\n' := fun c hc => hbody c (by simp [hc])
    exact .comment hinit' (by simp [normalizeNewlines]) (.blank rfl .refl)
  · rw [normalizeNewlines_of_not_mem hmem, ← List.append_nil (';' :: body)]
    exact .comment hbody (by simp) .refl

/-- **A text keeps its tokens** if every carriage return has a line feed right after it, and none is
the character of a literal. -/
theorem keepsTokens_of_noLoneReturn {cs : List Char} (h : NoLoneReturn cs)
    (hliteral : ∀ before after, cs ≠ before ++ '#' :: '\\' :: '\r' :: after) : KeepsTokens cs := by
  induction cs using Lexeme.induction_on with
  | nil => exact .nil
  | lexeme form raw rest hw ih =>
    refine .lexeme hw ?_ (ih h.of_append ?_)
    · cases hw with
      | mark _ _ | tildeAt | string _ | atom _ _ _ _ => trivial
      | blanks _ hraw _ =>
        have hgap : Gap (normalizeNewlines raw ++ []) [] :=
          .blanks (isBlank_of_mem_normalizeNewlines hraw)
        rwa [List.append_nil] at hgap
      | comment hbody _ => exact gap_of_noLoneReturn hbody h
      | character hbody hrest =>
        intro hlast after _
        obtain ⟨-, hraw⟩ :=
          (Lexeme.Written.character hbody hrest).eq_of_getLast? (by simp) hlast
        exact absurd (by rw [hraw]; rfl) (hliteral [] rest)
    · rintro before after rfl
      exact hliteral (raw ++ before) after (by simp)
  | unclosed body hbody => exact .unclosed hbody

/-- A text has no two places. -/
theorem Position.IsAt.unique {p q : Position} {before : List Char} (hp : p.IsAt before)
    (hq : q.IsAt before) : p = q := by
  -- Of two texts without a line feed that end a text, each after a line end, none is the longer.
  have hle {xs ys last last' : List Char} (h : xs ++ last = ys ++ last') (hlast : '\n' ∉ last)
      (hys : ∀ c ∈ ys.getLast?, c = '\n') : last.length ≤ last'.length := by
    obtain ⟨zs, rfl, rfl⟩ | ⟨zs, rfl, rfl⟩ := List.append_eq_append_iff.mp h
    · cases hzs : zs.getLast? with
      | none => simp [List.getLast?_eq_none_iff.mp hzs]
      | some c =>
        obtain rfl := hys c (by simp [List.getLast?_append, hzs])
        exact absurd (List.mem_append_left _ (List.mem_of_getLast? hzs)) hlast
    · simp
  obtain ⟨hpline, xs, last, hxs, hlast, hends, hpcolumn⟩ := hp
  obtain ⟨hqline, ys, last', hys, hlast', hends', hqcolumn⟩ := hq
  have hlength : last.length = last'.length :=
    Nat.le_antisymm (hle (hxs.symm.trans hys) hlast hends')
      (hle (hys.symm.trans hxs) hlast' hends)
  obtain ⟨line, column⟩ := p
  obtain ⟨line', column'⟩ := q
  simp only [Position.mk.injEq]
  exact ⟨hpline.trans hqline.symm, hpcolumn.trans (hlength.trans hqcolumn.symm)⟩

/-- **No place moves** where no carriage return stands alone. -/
theorem SamePlace.eq {cs : List Char} {p q : Position} (h : SamePlace cs p q)
    (hcs : NoLoneReturn cs) : p = q := by
  obtain ⟨before, after, rfl, hafter, hp, hq⟩ := h
  have hbefore : NoLoneReturn before := by
    rintro init more rfl
    have hhead := hcs init (more ++ after) (by simp)
    cases more with
    | nil => exact absurd hhead hafter
    | cons d more => exact hhead
  have hadvance := Position.isAt_advance (normalizeNewlines before)
  rw [Position.advance_normalizeNewlines hbefore] at hadvance
  exact (hp.unique (Position.isAt_advance before)).trans (hadvance.unique hq)

end LispCore
