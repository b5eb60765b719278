import LispCore.Proofs.Number.Printed
import LispCore.Proofs.Token.Lexeme

/-!
Atoms by themselves, and the atoms that values are printed as.

`IsAtom` is what makes a text one atom wherever a delimiter follows it (`IsAtom.written`). The texts
of integers and of finite numbers are such atoms, and each is classified as what it is:
`classifyAtom_intText` and `classifyAtom_floatText`. No integer is taken for an octal one, and no
number with a point or an exponent for an integer.
-/

namespace LispCore

/-! ### Atoms -/

/-- A text that is one atom and does not look like a character literal. -/
structure IsAtom (cs : List Char) : Prop where
  ne_nil : cs ≠ []
  plain : ∀ c ∈ cs, isDelimiter c = false
  unmarked : cs.take 2 ≠ ['#', '\\']

instance (cs : List Char) : Decidable (IsAtom cs) :=
  decidable_of_iff (cs ≠ [] ∧ cs.all (!isDelimiter ·) = true ∧ cs.take 2 ≠ ['#', '\\'])
    ⟨fun h => ⟨h.1, by simpa using h.2.1, h.2.2⟩,
      fun h => ⟨h.ne_nil, by simpa using h.plain, h.unmarked⟩⟩

namespace IsAtom

variable {cs rest : List Char}

/-- An atom is written wherever a delimiter or the end of the text follows it. -/
theorem written (h : IsAtom cs) (hrest : startsDelimited rest = true) :
    Lexeme.Written .atom cs rest := by
  refine .atom h.ne_nil h.plain hrest ?_
  rintro ⟨body, rest', -, -, heq⟩
  match cs, h with
  | [], h => exact h.ne_nil rfl
  | [c], _ =>
    have hrest' : rest = '\\' :: (body ++ rest') := (List.cons.inj heq).2
    have hback := startsDelimited_iff.mp hrest '\\' (by rw [hrest']; rfl)
    exact absurd hback (by decide)
  | c :: d :: cs, h =>
    simp only [List.cons_append, List.cons.injEq] at heq
    obtain ⟨rfl, rfl, -⟩ := heq
    exact h.unmarked rfl

theorem token? (h : IsAtom cs) (p : Position) :
    Lexeme.token? ⟨.atom, cs, rest⟩ p =
      .ok (some { kind := (classifyAtom cs).1, text := String.ofList (classifyAtom cs).2,
                  start := p, length := cs.length }) := by
  simp [Lexeme.token?, h.unmarked]

end IsAtom

/-- A symbol has the whole atom as its text. -/
theorem classifyAtom_symbol {cs : List Char} (h : (classifyAtom cs).1 = .symbol) :
    classifyAtom cs = (.symbol, cs) := by
  rcases hclass : classifyAtom cs with ⟨kind, text⟩
  rw [hclass] at h
  obtain rfl : kind = .symbol := h
  unfold classifyAtom at hclass
  dsimp only at hclass
  repeat' split at hclass
  all_goals cases hclass
  rfl

/-! ### Numerals -/

theorem Numeral.isDelimiter_of_isChar {c : Char} (h : isChar c = true) : isDelimiter c = false := by
  refine isChar_cases (P := fun c => isDelimiter c = false) h ?_ (by decide)
  intro c hc
  have hrange := Radix.isDigit_decimal hc
  rw [isDelimiter, FloatText.isBlank_of_isChar (isChar_of_isDigit hc), Bool.false_or,
    Bool.eq_false_iff]
  intro hmem
  simp only [List.contains_iff_mem, List.mem_cons, List.not_mem_nil, or_false] at hmem
  rcases hmem with rfl | rfl | rfl | rfl | rfl | rfl | rfl | rfl | rfl | rfl | rfl <;>
    simp at hrange

/-- Digits without a sign are a numeral of their own, without a point and without an exponent. -/
theorem Numeral.ofChars?_of_isNatural {cs : List Char} (h : Radix.decimal.isNatural cs = true) :
    ofChars? cs = some ⟨cs, none, none⟩ := by
  obtain ⟨hne, hall⟩ := Bool.and_eq_true_iff.mp h
  have hend : ∀ c ∈ ([] : List Char).head?, Radix.decimal.isDigit c = false := by simp
  have htake := takeWhile_run (List.all_eq_true.mp hall) hend
  have hdrop := dropWhile_run (List.all_eq_true.mp hall) hend
  rw [List.append_nil] at htake hdrop
  simp only [Bool.not_eq_true'] at hne
  simp [ofChars?, htake, hdrop, hne, exponent?]

theorem Radix.isDigit_of_octal {c : Char} (h : Radix.octal.isDigit c = true) :
    Radix.decimal.isDigit c = true := by
  simp only [Radix.isDigit, Char.isDigit, Bool.and_eq_true, decide_eq_true_eq, Char.le_def,
    UInt32.le_iff_toNat_le] at h ⊢
  exact ⟨h.1, Nat.le_trans h.2 (by decide)⟩

/-- An atom that starts like a number, perhaps after a minus sign, is no dot and no truth value. -/
theorem classifyAtom_signed {sign body : List Char} (hsign : sign = [] ∨ sign = ['-'])
    (hhead : ∃ c cs, body = c :: cs ∧ (Radix.decimal.isDigit c = true ∨ c = '.'))
    (hdot : body ≠ ['.']) :
    classifyAtom (sign ++ body) =
      if body.take 2 = ['0', 'x'] ∧ Radix.hexadecimal.isNatural (body.drop 2) then
        (.integer .hexadecimal, sign ++ body.drop 2)
      else if body.take 2 = ['0', 'b'] ∧ Radix.binary.isNatural (body.drop 2) then
        (.integer .binary, sign ++ body.drop 2)
      else if body.take 1 = ['0'] ∧ Radix.octal.isNatural (body.drop 1) then
        (.integer .octal, sign ++ body)
      else if Radix.decimal.isNatural body then (.integer .decimal, sign ++ body)
      else if isFractionalNumeral body then (.float, sign ++ body)
      else (.symbol, sign ++ body) := by
  obtain ⟨c, cs, hbody, hc⟩ := hhead
  have hsplit : splitMinus (sign ++ body) = (sign, body) := by
    rcases hsign with rfl | rfl
    · subst hbody
      rw [List.nil_append]
      unfold splitMinus
      split
      · next heq =>
        obtain ⟨rfl, -⟩ := List.cons.inj heq
        exact absurd hc (by decide)
      · rfl
    · rfl
  have hpoint : sign ++ body ≠ ['.'] := by
    rcases hsign with rfl | rfl
    · exact hdot
    · simp
  have hname {l : Char} {ls : List Char} (hl : ¬(Radix.decimal.isDigit l = true ∨ l = '.'))
      (hl' : l ≠ '-') : sign ++ body ≠ l :: ls := by
    rcases hsign with rfl | rfl
    · subst hbody
      rintro heq
      exact hl ((List.cons.inj heq).1 ▸ hc)
    · intro heq
      exact hl' (List.cons.inj heq).1.symm
  unfold classifyAtom
  rw [if_neg hpoint, if_neg, hsplit]
  rintro (heq | heq)
  · exact hname (by decide) (by decide) heq
  · exact hname (by decide) (by decide) heq

/-- A text that a number is printed as: perhaps a minus sign, and characters of numerals, the first
of them a digit or a point. -/
structure IsNumeric (sign body : List Char) : Prop where
  sign : sign = [] ∨ sign = ['-']
  head : ∃ c cs, body = c :: cs ∧ (Radix.decimal.isDigit c = true ∨ c = '.')
  chars : ∀ c ∈ body, Numeral.isChar c = true
  ne_dot : body ≠ ['.']

namespace IsNumeric

variable {sign body : List Char}

theorem isAtom (h : IsNumeric sign body) : IsAtom (sign ++ body) := by
  have hchars : ∀ c ∈ sign ++ body, Numeral.isChar c = true := by
    refine List.forall_mem_append.mpr ⟨?_, h.chars⟩
    rcases h.sign with hs | hs <;> subst hs
    · exact List.forall_mem_nil _
    · exact List.forall_mem_singleton.mpr rfl
  refine ⟨?_, ?_, ?_⟩
  · obtain ⟨c, cs, rfl, -⟩ := h.head
    simp
  · intro c hc
    exact Numeral.isDelimiter_of_isChar (hchars c hc)
  · intro hmark
    have hmem : '#' ∈ (sign ++ body).take 2 := hmark ▸ List.mem_cons_self
    exact absurd (hchars _ (List.mem_of_mem_take hmem)) (by decide)

/-- A number is never taken for a dot, a truth value or an integer with a radix mark. -/
theorem classifyAtom_eq (h : IsNumeric sign body) :
    classifyAtom (sign ++ body) =
      if body.take 1 = ['0'] ∧ Radix.octal.isNatural (body.drop 1) then
        (.integer .octal, sign ++ body)
      else if Radix.decimal.isNatural body then (.integer .decimal, sign ++ body)
      else if isFractionalNumeral body then (.float, sign ++ body)
      else (.symbol, sign ++ body) := by
  have hmark {l : Char} (hl : Numeral.isChar l = false) : body.take 2 ≠ ['0', l] := by
    intro htake
    have hmem : l ∈ body.take 2 := htake ▸ by simp
    rw [h.chars l (List.mem_of_mem_take hmem)] at hl
    cases hl
  rw [classifyAtom_signed h.sign h.head h.ne_dot, if_neg fun hx => hmark (by decide) hx.1,
    if_neg fun hb => hmark (by decide) hb.1]

end IsNumeric

/-! ### Printed numbers -/

theorem isNumeric_intText (n : Int) :
    ∃ sign body, intText n = sign ++ body ∧ IsNumeric sign body ∧
      Radix.decimal.isNatural body = true ∧ (∀ ds, body = '0' :: ds → ds = []) := by
  obtain ⟨sign, k, htext, hsign, -⟩ := intText_cases n
  have hdigits : ∀ c ∈ Nat.toDigits 10 k, Radix.decimal.isDigit c = true :=
    fun c hc => Radix.isDigit_of_mem_toDigits hc
  refine ⟨sign, _, htext, ⟨hsign, ?_, ?_, ?_⟩, ?_, fun ds => toDigits_eq_zero_cons⟩
  · rcases hbody : Nat.toDigits 10 k with _ | ⟨c, ds⟩
    · exact absurd hbody Nat.toDigits_ne_nil
    · exact ⟨c, ds, rfl, .inl (hdigits c (hbody ▸ List.mem_cons_self))⟩
  · intro c hc
    exact Numeral.isChar_of_isDigit (hdigits c hc)
  · intro hdot
    exact absurd (hdigits '.' (hdot ▸ List.mem_cons_self)) (by decide)
  · simpa [Radix.isNatural, Nat.toDigits_ne_nil] using hdigits

/-- **The text of an integer is a decimal integer**, and never one in octal. -/
theorem classifyAtom_intText (n : Int) :
    classifyAtom (intText n) = (.integer .decimal, intText n) := by
  obtain ⟨sign, body, htext, hnumeric, hnat, hzero⟩ := isNumeric_intText n
  have hoctal : ¬(body.take 1 = ['0'] ∧ Radix.octal.isNatural (body.drop 1)) := by
    rintro ⟨htake, hoctal⟩
    obtain ⟨ds, hbody⟩ : ∃ ds, body = '0' :: ds :=
      ⟨body.drop 1, by rw [← List.take_append_drop 1 body, htake]; rfl⟩
    rw [hbody, hzero ds hbody] at hoctal
    exact absurd hoctal (by decide)
  rw [htext, hnumeric.classifyAtom_eq, if_neg hoctal, if_pos hnat]

theorem isAtom_intText (n : Int) : IsAtom (intText n) := by
  obtain ⟨sign, body, htext, hnumeric, -, -⟩ := isNumeric_intText n
  exact htext ▸ hnumeric.isAtom

theorem isNumeric_floatText (negative : Bool) (rank : Fin Binary64.rankCount) :
    ∃ sign body, (Binary64.finite negative rank).text = sign ++ body ∧ IsNumeric sign body ∧
      isFractionalNumeral body = true := by
  obtain ⟨cs, n, htext, hn, hfrac, -⟩ := Binary64.exists_numeral negative rank
  refine ⟨_, cs, htext, ⟨?_, ?_, Numeral.isChar_of_ofChars? hn, ?_⟩, ?_⟩
  · cases negative <;> simp
  · rcases cs with _ | ⟨c, cs⟩
    · cases hn
    · exact ⟨c, cs, rfl, Numeral.head_of_ofChars? hn⟩
  · rintro rfl
    cases hn
  · rw [isFractionalNumeral, hn, Option.any_some, hfrac]

/-- **The text of a finite number is a number with a point or an exponent**, and never an
integer. -/
theorem classifyAtom_floatText (negative : Bool) (rank : Fin Binary64.rankCount) :
    classifyAtom (Binary64.finite negative rank).text =
      (.float, (Binary64.finite negative rank).text) := by
  obtain ⟨sign, body, htext, hnumeric, hfrac⟩ := isNumeric_floatText negative rank
  have hdecimal : ¬Radix.decimal.isNatural body = true := by
    intro hnat
    rw [isFractionalNumeral, Numeral.ofChars?_of_isNatural hnat] at hfrac
    cases hfrac
  have hoctal : ¬(body.take 1 = ['0'] ∧ Radix.octal.isNatural (body.drop 1)) := by
    rintro ⟨htake, hoctal⟩
    refine hdecimal ?_
    rw [← List.take_append_drop 1 body, htake, Radix.isNatural, List.all_append]
    have hall := List.all_eq_true.mp (Bool.and_eq_true_iff.mp hoctal).2
    have hdrop : (body.drop 1).all Radix.decimal.isDigit = true :=
      List.all_eq_true.mpr fun c hc => Radix.isDigit_of_octal (hall c hc)
    rw [hdrop]
    rfl
  rw [htext, hnumeric.classifyAtom_eq, if_neg hoctal, if_neg hdecimal, if_pos hfrac]

theorem isAtom_floatText (negative : Bool) (rank : Fin Binary64.rankCount) :
    IsAtom (Binary64.finite negative rank).text := by
  obtain ⟨sign, body, htext, hnumeric, -⟩ := isNumeric_floatText negative rank
  exact htext ▸ hnumeric.isAtom

end LispCore
