import LispCore.Proofs.Reader.EntryPoints
import LispCore.Proofs.Reader.Text

/-!
The reader never refuses a literal of a text as malformed.

A token may come from anywhere, so the reader checks the texts of literals that the lexer has looked
at before. The two agree: `Token.Accepted` is what the checks of the reader want, and every token of
a text has it.

* `Token.Lexed.accepted` — the lexer hands on no literal that the reader takes for malformed;
* `State.step_accepted`, `resume_accepted` — so no step refuses one, nor does a call for a form, and
  what is left of the stream is as it was;
* `literals_accepted` — the main statement.
-/

namespace LispCore

/-! ### Texts of literals -/

/-- The text of a token is one that the reader accepts for a token of its kind. A number may still
be too large. -/
structure Token.Accepted (tok : Token) : Prop where
  integer : ∀ r, tok.kind = .integer r → ∃ n, r.readInt? tok.text.toList = some n
  float : tok.kind = .float → ∃ x, FloatText.ofChars? tok.text.toList = some x
  no_infinity : tok.kind = .float → ¬"inf".toList <:+: tok.text.toList ∧
    ¬"inf".toList <:+: tok.text.toList.map Char.toLower
  char : tok.kind = .char → ∃ c, tok.text.toList = [c]
  bool : tok.kind = .bool → tok.text = "true" ∨ tok.text = "false"

variable {tok : Token}

/-- The reader looks into no other texts. -/
theorem Token.Accepted.of_kind (hinteger : ∀ r, tok.kind ≠ .integer r) (hfloat : tok.kind ≠ .float)
    (hchar : tok.kind ≠ .char) (hbool : tok.kind ≠ .bool) : tok.Accepted where
  integer r h := absurd h (hinteger r)
  float h := absurd h hfloat
  no_infinity h := absurd h hfloat
  char h := absurd h hchar
  bool h := absurd h hbool

theorem classifyAtom_bool {cs text : List Char} (h : classifyAtom cs = (.bool, text)) :
    text = "true".toList ∨ text = "false".toList := by
  unfold classifyAtom at h
  dsimp only at h
  repeat' split at h
  all_goals cases h
  assumption

/-- A token of one character or of a truth value has that for its text. -/
theorem Token.Lexed.char_or_bool (h : tok.Lexed) :
    (tok.kind = .char → ∃ c, tok.text.toList = [c]) ∧
      (tok.kind = .bool → tok.text = "true" ∨ tok.text = "false") := by
  obtain @⟨form, raw, rest, p, hw, htok⟩ := h
  cases hw with
  | blanks _ _ _ | comment _ _ => cases htok
  | mark hkind _ =>
    cases htok
    have hmark := Lexeme.isMark_of_markKind? hkind
    constructor
    · intro hchar
      exact absurd hchar (TokenKind.ne_of_isMark hmark rfl)
    · intro hbool
      exact absurd hbool (TokenKind.ne_of_isMark hmark rfl)
  | tildeAt | string _ =>
    cases htok
    simp
  | character _ _ =>
    simp only [Lexeme.token?] at htok
    split at htok
    · cases htok
      exact ⟨fun _ => ⟨_, String.toList_ofList⟩, by simp⟩
    · cases htok
  | atom _ _ _ _ =>
    simp only [Lexeme.token?] at htok
    split at htok
    · cases htok
    · rcases hclass : classifyAtom raw with ⟨kind, text⟩
      rw [hclass] at htok
      cases htok
      constructor
      · rintro rfl
        exact absurd (congrArg Prod.fst hclass) (Lexeme.classifyAtom_ne_literal raw).2
      · rintro rfl
        obtain rfl | rfl := classifyAtom_bool hclass
        · exact .inl String.ofList_toList
        · exact .inr String.ofList_toList

/-- The characters of numerals are not those of the name of an infinity. -/
theorem Token.Spelled.no_infinity (h : tok.Spelled) (hkind : tok.kind = .float) :
    ¬"inf".toList <:+: tok.text.toList ∧ ¬"inf".toList <:+: tok.text.toList.map Char.toLower := by
  obtain ⟨negative, cs, n, htext, hn⟩ := h.float hkind
  have hletter : ∀ c ∈ tok.text.toList, c.toLower ≠ 'i' := by
    rw [htext]
    refine List.forall_mem_append.mpr ⟨?_, ?_⟩
    · rcases minusSign_cases negative with hsign | hsign <;> simp [hsign]
    · intro c hc
      exact (FloatText.toLower_of_isChar (Numeral.isChar_of_ofChars? hn c hc)).2
  constructor
  · intro hpart
    exact hletter 'i' (hpart.subset List.mem_cons_self) rfl
  · intro hpart
    obtain ⟨c, hc, hlower⟩ := List.mem_map.mp (hpart.subset List.mem_cons_self)
    exact hletter c hc hlower

/-- **The lexer and the reader agree on literals**: the text of every token of a text is one that
the reader accepts. -/
theorem Token.Lexed.accepted (h : tok.Lexed) : tok.Accepted := by
  have hspelled := h.spelled
  refine ⟨?_, ?_, hspelled.no_infinity, h.char_or_bool.1, h.char_or_bool.2⟩
  · intro r hkind
    obtain ⟨n, hn⟩ := hspelled.integer r hkind
    exact ⟨n, Radix.readInt?_eq_some_iff.mpr hn⟩
  · intro hkind
    obtain ⟨negative, cs, n, htext, hn⟩ := hspelled.float hkind
    rw [htext]
    exact ⟨_, FloatText.ofChars?_numeral hn negative⟩

/-! ### Errors at literals -/

/-- A literal is refused for its text, and not because its number is too large. -/
inductive Failure.MalformedLiteral : Failure → Prop where
  | integer (r : Radix) (tok : Token) : MalformedLiteral (.read (.malformedInteger r tok))
  | float (tok : Token) : MalformedLiteral (.read (.malformedFloat tok))
  | character (tok : Token) : MalformedLiteral (.read (.notOneCharacter tok))

theorem Failure.Lexical.not_malformed {e : Failure} (h : e.Lexical) : ¬e.MalformedLiteral := by
  intro hmalformed
  obtain ⟨err, tok, rfl, -, hfamily⟩ | ⟨name, rfl, -⟩ := h.cases
  · cases hmalformed <;> cases hfamily
  · cases hmalformed

namespace Token.Accepted

theorem readInteger_error (h : tok.Accepted) {r : Radix} (hkind : tok.kind = .integer r)
    {e : Failure} (he : tok.readInteger r = .error e) : ¬e.MalformedLiteral := by
  obtain ⟨n, hn⟩ := h.integer r hkind
  rw [readInteger, hn] at he
  dsimp only at he
  intro hmalformed
  split at he
  · cases he
    cases hmalformed
  · split at he
    · cases he
    · cases he
      cases hmalformed

/-- A floating-point number is refused only if it is too large. -/
theorem readFloat_error (h : tok.Accepted) (hkind : tok.kind = .float) {e : Failure}
    (he : tok.readFloat = .error e) : e = .read (.floatRange tok) := by
  obtain ⟨x, hx⟩ := h.float hkind
  rw [readFloat, hx] at he
  dsimp only at he
  split at he
  · exact (Except.error.inj he).symm
  · cases he

end Token.Accepted

namespace Reader

variable {t t' : SymbolTable} {e : Failure}

theorem start_accepted (htok : tok.Accepted) {stack : List Frame}
    (h : start tok stack t = (.failed e, t')) : ¬e.MalformedLiteral := by
  intro hmalformed
  unfold start at h
  split at h
  · cases h
  · cases h
  · cases h
  · cases h
  · exact absurd h (complete_ne_failed _ _ _ _ _)
  · exact absurd h (complete_ne_failed _ _ _ _ _)
  · next r hkind =>
    cases hread : tok.readInteger r with
    | ok n =>
      rw [hread] at h
      exact absurd h (complete_ne_failed _ _ _ _ _)
    | error e' =>
      rw [hread] at h
      cases h
      exact htok.readInteger_error hkind hread hmalformed
  · next hkind =>
    cases hread : tok.readFloat with
    | ok x =>
      rw [hread] at h
      exact absurd h (complete_ne_failed _ _ _ _ _)
    | error e' =>
      rw [hread] at h
      cases h
      rw [htok.readFloat_error hkind hread] at hmalformed
      cases hmalformed
  · exact absurd h (complete_ne_failed _ _ _ _ _)
  · next hkind =>
    obtain ⟨c, hc⟩ := htok.char hkind
    rw [hc] at h
    exact absurd h (complete_ne_failed _ _ _ _ _)
  all_goals
    cases h
    cases hmalformed

/-- **No step refuses a literal** with an accepted text as malformed. -/
theorem State.step_accepted (htok : tok.Accepted) {st : State}
    (h : st.step tok t = (.failed e, t')) : ¬e.MalformedLiteral := by
  cases st with
  | form stack => exact start_accepted htok (State.start_of_step_failed h)
  | close elements tail stack =>
    intro hmalformed
    rw [State.eq_of_step_close_failed h] at hmalformed
    cases hmalformed

theorem State.atEnd_not_malformed {st : State} (h : st.atEnd tok = .error e) :
    ¬e.MalformedLiteral := by
  obtain ⟨err, rfl, -, hfamily⟩ := State.family_of_atEnd_error h
  intro hmalformed
  cases hmalformed <;> cases hfamily

end Reader

/-! ### Streams -/

/-- A stream delivers tokens with accepted texts only, and no failure at a malformed literal. -/
structure TokenStream.Accepted (s : TokenStream) : Prop where
  tokens : ∀ tok, .ok tok ∈ s.source → tok.Accepted
  failures : ∀ e, .error e ∈ s.source → ¬e.MalformedLiteral
  buffer : ∀ tok ∈ s.buffer, tok.Accepted

namespace TokenStream

variable {s s' : TokenStream} {e : Failure}

/-- A stream with nothing else to deliver than another delivers accepted texts if that does. -/
theorem Accepted.of_subset (h : s.Accepted) (hsource : ∀ item ∈ s'.source, item ∈ s.source)
    (hbuffer : ∀ tok ∈ s'.buffer, tok ∈ s.buffer) : s'.Accepted := by
  refine ⟨?_, ?_, ?_⟩
  · intro tok htok
    exact h.tokens tok (hsource _ htok)
  · intro e he
    exact h.failures e (hsource _ he)
  · intro tok htok
    exact h.buffer tok (hbuffer tok htok)

theorem Accepted.pulled (h : s.Accepted) (tok : Token) {rest : TokenSource}
    (hrest : ∀ item ∈ rest, item ∈ s.source) : (s.pulled tok rest).Accepted := by
  apply h.of_subset
  · rw [source_pulled]
    exact hrest
  · rw [buffer_pulled]
    exact fun _ htok => htok

/-- A token that is taken from a stream has an accepted text, or it is the end. -/
theorem Accepted.of_next_ok (h : s.Accepted) (hnext : s.next = (.ok tok, s')) :
    (tok.kind ≠ .endOfInput → tok.Accepted) ∧ s'.Accepted := by
  obtain ⟨_, hbuffer, ⟨⟩, rfl⟩ | ⟨-, hpulls⟩ := next_cases hnext
  · exact ⟨fun _ => h.buffer tok hbuffer, h.of_subset (fun _ hitem => hitem) (by simp)⟩
  · cases hpulls with
    | ended hending => exact ⟨fun hend => absurd (s.ending_isEnd tok hending) hend, h⟩
    | ranOut => exact ⟨fun hend => absurd rfl hend, h.pulled _ (by simp)⟩
    | token _ hsource =>
      refine ⟨fun _ => h.tokens tok (by simp [hsource]), h.pulled tok ?_⟩
      intro item hitem
      rw [hsource]
      exact List.mem_cons_of_mem _ hitem

/-- A failure of a stream is none at a malformed literal, and nothing is left after it. -/
theorem Accepted.of_next_error (h : s.Accepted) (hnext : s.next = (.error e, s')) :
    ¬e.MalformedLiteral ∧ s'.Accepted := by
  obtain ⟨_, -, ⟨⟩, -⟩ | ⟨-, hpulls⟩ := next_cases hnext
  cases hpulls with
  | failure _ hsource =>
    exact ⟨h.failures e (by simp [hsource]), h.of_subset (by simp) fun _ htok => htok⟩

/-- The stream of a text delivers accepted texts. -/
theorem ofText_accepted (text : String) : (TokenStream.ofText text).Accepted := by
  obtain ⟨toks, last, h⟩ := exists_cutInto {} text.toList
  have hsource : (TokenStream.ofText text).source = toks.map .ok ++ [last] := h.tokens_eq
  have hlast := h.ends
  refine ⟨?_, ?_, ?_⟩
  · intro tok htok
    rw [hsource] at htok
    rcases List.mem_append.mp htok with htok | htok
    · obtain ⟨tok', htok', heq⟩ := List.mem_map.mp htok
      cases heq
      exact (h.lexed tok htok').accepted
    · rw [← List.mem_singleton.mp htok] at hlast
      obtain rfl : tok = endAt _ := hlast
      exact .of_kind (by simp [endAt]) (by simp [endAt]) (by simp [endAt]) (by simp [endAt])
  · intro e he
    rw [hsource] at he
    rcases List.mem_append.mp he with he | he
    · obtain ⟨tok', -, heq⟩ := List.mem_map.mp he
      cases heq
    · rw [← List.mem_singleton.mp he] at hlast
      exact Failure.Lexical.not_malformed hlast
  · intro tok htok
    cases htok

end TokenStream

namespace Reader

variable {t : SymbolTable} {r : Reader}

/-- **No call for a form refuses a literal as malformed**, and what is left of the stream delivers
accepted texts again. -/
theorem resume_accepted (st : State) (r : Reader) (h : r.stream.Accepted) :
    (∀ e, (r.resume st).1 = .error e → ¬e.MalformedLiteral) ∧
      (r.resume st).2.stream.Accepted := by
  fun_induction resume st r with
  | case1 st r e stream hnext =>
    obtain ⟨hfailure, hstream⟩ := h.of_next_error hnext
    refine ⟨?_, hstream⟩
    rintro _ ⟨⟩
    exact hfailure
  | case2 st r tok stream hnext hend =>
    refine ⟨?_, (h.of_next_ok hnext).2⟩
    intro e he
    exact State.atEnd_not_malformed he
  | case3 st r tok stream hnext hend st' t hstep ih => exact ih (h.of_next_ok hnext).2
  | case4 st r tok stream hnext hend v t hstep =>
    refine ⟨?_, (h.of_next_ok hnext).2⟩
    intro e he
    cases he
  | case5 st r tok stream hnext hend e t hstep =>
    obtain ⟨htok, hstream⟩ := h.of_next_ok hnext
    refine ⟨?_, hstream⟩
    rintro _ ⟨⟩
    exact State.step_accepted (htok hend) hstep

/-- **However often a form is asked for**, no literal is refused as malformed. -/
theorem calls_accepted (h : r.stream.Accepted) (n : Nat) :
    ∀ e, .error e ∈ (r.calls n).1 → ¬e.MalformedLiteral := by
  induction n generalizing r with
  | zero =>
    intro e he
    cases he
  | succ n ih =>
    intro e he
    obtain ⟨hform, hstream⟩ := resume_accepted (.form []) r h
    rcases List.mem_cons.mp he with he | he
    · exact hform e he.symm
    · exact ih hstream e he

/-- What stops a program is no malformed literal. -/
theorem forms_accepted (h : r.stream.Accepted) {e : Failure} (he : r.forms.2.1 = some e) :
    ¬e.MalformedLiteral := by
  apply calls_accepted h (r.forms.1.length + 1)
  rw [calls_forms rfl, he]
  exact List.mem_append_right _ (List.mem_singleton.mpr rfl)

/-- **No literal of a text is malformed for the reader.**

* The text of every token that a text is cut into is one that the reader accepts for its kind: an
  integer has the digits of its radix, a floating-point number is one and names no infinity, a
  character is one, and a truth value is one of the two. A floating-point number is refused only if
  it is too large.
* So reading a text form by form, as a whole or up to a failure never ends at a malformed literal,
  also if it goes on after a failure. -/
theorem literals_accepted (text : String) :
    (∀ tok, .ok tok ∈ tokens text → tok.Accepted ∧ (tok.kind = .float →
      ∀ e, tok.readFloat = .error e → e = .read (.floatRange tok))) ∧
    ∀ t, (∀ n e, .error e ∈ ((ofText text t).calls n).1 → ¬e.MalformedLiteral) ∧
      (∀ e, (ofText text t).readAll.1 = .error e → ¬e.MalformedLiteral) ∧
      (∀ e, (ofText text t).parseAll.1 = .error e → ¬e.MalformedLiteral) ∧
      ∀ p e, (ofText text t).parseAll.1 = .ok p → p.failure = some e → ¬e.MalformedLiteral := by
  have hstream := TokenStream.ofText_accepted text
  constructor
  · intro tok htok
    have haccepted := hstream.tokens tok htok
    exact ⟨haccepted, fun hkind _ he => haccepted.readFloat_error hkind he⟩
  intro t
  have hforms {e : Failure} (he : (ofText text t).forms.2.1 = some e) : ¬e.MalformedLiteral :=
    forms_accepted hstream he
  refine ⟨calls_accepted hstream, ?_, ?_, ?_⟩
  · intro e he
    apply hforms
    rw [readAll_eq] at he
    generalize (ofText text t).forms.2.1 = failure at he ⊢
    cases failure with
    | none => cases he
    | some e' =>
      cases he
      rfl
  · intro e he
    rw [parseAll_fst] at he
    exact hforms (Reading.parsed_eq_error_iff.mp he).1
  · intro p e hp he
    rw [parseAll_fst] at hp
    rw [Reading.forms_of_parsed hp] at he
    exact hforms he

/-- The token of a floating-point number that is too large. -/
def hugeToken : Token := { kind := .float, text := "-1e999", start := ⟨0, 8⟩, length := 6 }

/-- A literal of a text may be refused, but only for its number. -/
theorem literals_accepted_hugeToken :
    tokens "#\\space -1e999" = [
      .ok { kind := .char, text := " ", length := 7 }, .ok hugeToken, .ok (endAt ⟨0, 14⟩)] ∧
    hugeToken.Accepted ∧
    (∃ e, hugeToken.readFloat = .error e ∧ e = .read (.floatRange hugeToken)) ∧
    ∀ e, .error e ∈ ((ofText "#\\space -1e999").calls 2).1 → ¬e.MalformedLiteral := by
  have htokens : tokens "#\\space -1e999" = [
      .ok { kind := .char, text := " ", length := 7 }, .ok hugeToken, .ok (endAt ⟨0, 14⟩)] := by
    decide +kernel
  obtain ⟨haccepted, hreading⟩ := literals_accepted "#\\space -1e999"
  obtain ⟨htext, hrange⟩ := haccepted hugeToken (by simp [htokens])
  have herror : hugeToken.readFloat = .error (.read (.floatRange hugeToken)) := by decide +kernel
  exact ⟨htokens, htext, ⟨_, herror, hrange rfl _ herror⟩, (hreading ∅).1 2⟩

end Reader

end LispCore
