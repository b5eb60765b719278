import LispCore.Diagnostic
import LispCore.Proofs.Reader.Pending
import LispCore.Proofs.Reader.Text

/-!
When reading a text meets a fault.

Reading a program recovers from every reading error, each of which shows at a token. From two things
it does not recover, and `Faults` says exactly when it meets one: a character whose name is matched
without regard to case and has no value, and a decimal integer with too many digits where a form may
start. A token that is refused before shields the reader from either.

* `parseAll_eq_error_iff` — reading a program is given up exactly for such a fault;
* `parseAll_faults` — so no other text, in no environment, makes reading a program or finding its
  diagnostics fail, and what stops the reading then has a token.
-/

namespace LispCore.Reader

/-! ### Refused tokens of a text -/

/-- **A token is refused with an error that shows at it**, or it is an integer with too many digits
where a form may start. -/
theorem State.step_failed_cases {tok : Token} (hend : tok.kind ≠ .endOfInput) {st : State}
    {t t' : SymbolTable} {e : Failure} (h : st.step tok t = (.failed e, t')) :
    (∃ err, e = .read err ∧ err.token? = some tok) ∨
      (¬tok.Regular ∧ e = .integerTooLong (tok.text.toList.countP Radix.decimal.isDigit) ∧
        ∃ stack, st = .form stack) := by
  cases st with
  | close elements tail stack =>
    obtain ⟨err, he, htok, -⟩ := State.step_close_failed h
    exact .inl ⟨err, he, htok⟩
  | form stack =>
    by_cases hreg : tok.Regular
    · obtain ⟨-, err, he, htok, -⟩ | ⟨-, err, he, htok, -⟩ := State.step_form_failed hreg h
      · exact .inl ⟨err, he, htok⟩
      · exact .inl ⟨err, he, htok⟩
    · obtain ⟨hkind, hmany⟩ := kind_of_not_regular hreg hend
      rw [State.step_form (by simp [hkind, TokenKind.startsForm])] at h
      simp only [start, hkind, Token.readInteger, true_and, if_pos hmany] at h
      split at h
      · cases h
        exact .inl ⟨_, rfl, rfl⟩
      · cases h
        exact .inr ⟨hreg, rfl, stack, rfl⟩

/-- An integer that is spelled with too many digits is refused for that where a form may start. -/
theorem State.step_tooLong {tok : Token} (hkind : tok.kind = .integer .decimal)
    (hmany : maxDecimalDigits < tok.text.toList.countP Radix.decimal.isDigit) {n : Int}
    (hspell : Radix.decimal.Spells tok.text.toList n) (stack : List Frame) (t : SymbolTable) :
    (State.form stack).step tok t =
      (.failed (.integerTooLong (tok.text.toList.countP Radix.decimal.isDigit)), t) := by
  rw [State.step_form (by simp [hkind, TokenKind.startsForm])]
  simp only [start, hkind, Token.readInteger, Radix.readInt?_eq_some_iff.mpr hspell, true_and,
    if_pos hmany]
  rfl

/-! ### Faults -/

/-- `Faults text t e`: reading a text where the names of a table are known meets a fault. -/
inductive Faults (text : String) (t : SymbolTable) : Failure → Prop where
  | unknownName {toks name} :
      tokens text = toks.map .ok ++ [.error (.unknownCharacterName name)] →
      FormsThen Viable toks t → Faults text t (.unknownCharacterName name)
  | tooLong {toks tok later last} :
      tokens text = (toks ++ tok :: later).map .ok ++ [last] →
      FormsThen MayFollow toks t → tok.kind = .integer .decimal →
      maxDecimalDigits < tok.text.toList.countP Radix.decimal.isDigit →
      Faults text t (.integerTooLong (tok.text.toList.countP Radix.decimal.isDigit))

/-- A token that is refused after others stops a program, whatever comes later. -/
theorem Scan.failure_of_step {s : Scan} {st : State} (hst : s.stop = .ok st) {tok : Token}
    {e : Failure} {t' : SymbolTable} (hstep : st.step tok s.symbols = (.failed e, t'))
    (later : List Token) (last : Except Failure Token) :
    ((s.andThen (tok :: later)).finish last).failure = some e := by
  obtain ⟨forms, stop, t⟩ := s
  obtain rfl : stop = .ok st := hst
  simp only [Scan.andThen, State.scan, hstep]
  rfl

/-- **What stops a program** is an error that shows at a token, or a fault. -/
theorem failure_cases {text : String} {t : SymbolTable} {e : Failure}
    (hfailure : (ofText text t).reading.failure = some e) :
    (∃ err tok, e = .read err ∧ err.token? = some tok) ∨ Faults text t e := by
  obtain ⟨toks, last, h⟩ := exists_cutInto {} text.toList
  rw [reading_ofText h] at hfailure
  obtain hstop | ⟨⟨st, hst⟩, ⟨-, err, rfl, htok, -⟩ | ⟨rfl, hlexical⟩⟩ :=
    Scan.finish_cases h.ends hfailure
  · obtain ⟨before, tok, later, st, t', rfl, hbefore, hstep⟩ := State.scan_failed hstop
    obtain ⟨hend, hendTok⟩ := List.forall_mem_append.mp h.not_end
    have htok : tok.kind ≠ .endOfInput := hendTok tok List.mem_cons_self
    obtain ⟨err, rfl, hshown⟩ | ⟨hirregular, rfl, stack, rfl⟩ := State.step_failed_cases htok hstep
    · exact .inl ⟨err, tok, rfl, hshown⟩
    · obtain ⟨hkind, hmany⟩ := kind_of_not_regular hirregular htok
      have hforms := (State.scan_form_iff hend t).mp ⟨stack, hbefore⟩
      exact .inr (.tooLong h.tokens_eq hforms hkind hmany)
  · exact .inl ⟨err, _, rfl, htok⟩
  · obtain ⟨err, tok, rfl, htok, -⟩ | ⟨name, rfl, -⟩ := hlexical.cases
    · exact .inl ⟨err, tok, rfl, htok⟩
    · exact .inr (.unknownName h.tokens_eq ((State.scan_ok_iff h.not_end t).mp ⟨st, hst⟩))

/-- A fault does stop the program. -/
theorem Faults.failure_eq {text : String} {t : SymbolTable} {e : Failure} (h : Faults text t e) :
    (ofText text t).reading.failure = some e := by
  cases h with
  | unknownName htokens hforms =>
    have h := CutInto.of_tokens htokens
    obtain ⟨st, hst⟩ := (State.scan_ok_iff h.not_end t).mpr hforms
    rw [reading_ofText h]
    simp only [Scan.finish, hst]
    rfl
  | @tooLong toks tok later last htokens hforms hkind hmany =>
    have h := CutInto.of_tokens htokens
    obtain ⟨stack, hst⟩ :=
      (State.scan_form_iff (List.forall_mem_append.mp h.not_end).1 t).mpr hforms
    obtain ⟨n, hspell⟩ := (h.lexed tok (by simp)).spelled.integer _ hkind
    rw [reading_ofText h, State.scan_append]
    exact Scan.failure_of_step hst (State.step_tooLong hkind hmany hspell stack _) later last

theorem Faults.not_recoverable {text : String} {t : SymbolTable} {e : Failure}
    (h : Faults text t e) : ¬e.isRecoverable = true := by
  cases h <;> simp [Failure.isRecoverable]

/-- The name of a character that has no value is spelled with one of three letters that match
others. -/
theorem Faults.exists_oddLetter {text : String} {t : SymbolTable} {name : String}
    (h : Faults text t (.unknownCharacterName name)) :
    ∃ c ∈ name.toList, isOddLetter c = true := by
  cases h with
  | unknownName htokens _ =>
    have hlexical : (Failure.unknownCharacterName name).Lexical := (CutInto.of_tokens htokens).ends
    obtain ⟨err, tok, heq, -⟩ | ⟨name', heq, hodd⟩ := hlexical.cases
    · cases heq
    · cases heq
      exact hodd

/-- **Reading a program is given up exactly for a fault.** -/
theorem parseAll_eq_error_iff (text : String) (t : SymbolTable) (e : Failure) :
    (ofText text t).parseAll.1 = .error e ↔ Faults text t e := by
  rw [parseAll_fst, Reading.parsed_eq_error_iff]
  constructor
  · rintro ⟨hfailure, hfault⟩
    obtain ⟨err, tok, rfl, -⟩ | hfaults := failure_cases hfailure
    · exact absurd rfl hfault
    · exact hfaults
  · intro h
    exact ⟨h.failure_eq, h.not_recoverable⟩

/-- **What reading a program does not recover from.** For every text and every table of names:

* reading the program is given up exactly for a fault, and so is looking for its diagnostics;
* otherwise the forms are given together with nothing, or with an error that shows at a token;
* a character has no value only if its name is spelled with one of the letters `ſ`, `ı` and `İ`. -/
theorem parseAll_faults (text : String) (t : SymbolTable) :
    (∀ e, (ofText text t).parseAll.1 = .error e ↔ Faults text t e) ∧
    (∀ e, Diagnostic.ofText text = .error e ↔ Faults text ∅ e) ∧
    (∀ p, (ofText text t).parseAll.1 = .ok p → ∀ e, p.failure = some e →
      ∃ err tok, e = .read err ∧ err.token? = some tok) ∧
    (∀ name, Faults text t (.unknownCharacterName name) →
      ∃ c ∈ name.toList, isOddLetter c = true) := by
  refine ⟨parseAll_eq_error_iff text t, ?_, ?_, ?_⟩
  · intro e
    rw [← parseAll_eq_error_iff, Diagnostic.ofText]
    cases (ofText text).parseAll.1 <;> simp [Except.map]
  · intro p hp e he
    have hfailure : (ofText text t).reading.failure = some e := by
      rw [parseAll_fst] at hp
      rw [Reading.forms_of_parsed hp] at he
      exact he
    obtain hread | hfaults := failure_cases hfailure
    · exact hread
    · rw [(parseAll_eq_error_iff text t e).mpr hfaults] at hp
      cases hp
  · intro name h
    exact h.exists_oddLetter

/-! ### Texts that lead to a fault -/

theorem mayFollow_nil : MayFollow [] := (Open.nil : Open [] [] ∅ ∅).mayFollow

/-- **An integer with too many digits leads to a fault**, though it is written as integers are. -/
theorem faults_intText {n : Int}
    (hmany : maxDecimalDigits < (intText n).countP Radix.decimal.isDigit) (t : SymbolTable) :
    Faults (String.ofList (intText n)) t
      (.integerTooLong ((intText n).countP Radix.decimal.isDigit)) := by
  have hatom := isAtom_intText n
  have htokens : tokens (String.ofList (intText n)) =
      ([] ++ Token.mk (.integer .decimal) (String.ofList (intText n)) {} (intText n).length ::
        []).map .ok ++ [.ok (endAt (Position.advance {} (intText n)))] := by
    rw [tokens, String.toList_ofList, ← List.append_nil (intText n),
      tokensFrom_written (hatom.written rfl), hatom.token?, classifyAtom_intText, List.append_nil,
      tokensFrom_nil]
    rfl
  have hforms : FormsThen MayFollow [] t :=
    ⟨by simp, [], [], [], t, rfl, .nil, mayFollow_nil⟩
  have hfaults := Faults.tooLong htokens hforms rfl (by rwa [String.toList_ofList])
  rwa [String.toList_ofList] at hfaults

/-- The long s matches the first letter of `space`, and no character is named so. -/
theorem parseAll_longS :
    (ofText "#\\ſpace").parseAll.1 = .error (.unknownCharacterName "ſpace") ∧
      ¬∃ p, (ofText "#\\ſpace").parseAll.1 = .ok p := by
  have htokens : tokens "#\\ſpace" =
      ([] : List Token).map .ok ++ [.error (.unknownCharacterName "ſpace")] := by decide +kernel
  have hforms : FormsThen Viable [] ∅ :=
    ⟨by simp, [], [], [], ∅, rfl, .nil, mayFollow_nil.viable⟩
  have herror := (parseAll_eq_error_iff _ _ _).mpr (.unknownName htokens hforms)
  refine ⟨herror, ?_⟩
  rintro ⟨p, hp⟩
  rw [herror] at hp
  cases hp

end LispCore.Reader
