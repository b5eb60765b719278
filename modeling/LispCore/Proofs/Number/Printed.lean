import LispCore.Number.Shortest
import LispCore.Proofs.Reader.Grammar

/-!
Printed numbers.

* `intText_cases` — the text of an integer is a minus sign where one is needed and digits, the first
  of them zero only if it is the only one;
* `countP_intText_le` — an integer of 64 bits has few digits;
* `Binary64.exists_numeral` — the text of a finite number is a sign and a numeral with a point or an
  exponent, which is rounded to that number with either sign;
* `readFloat_text` — a token with the text of a finite number is read as that number.
-/

namespace LispCore

/-! ### Integers -/

/-- The digits of a number start with zero only if they are one zero. -/
theorem toDigits_eq_zero_cons {n : Nat} {ds : List Char} (h : Nat.toDigits 10 n = '0' :: ds) :
    ds = [] := by
  induction n using Nat.strongRecOn generalizing ds with
  | ind n ih =>
    rw [Nat.toDigits_eq_if (by decide)] at h
    split at h
    · exact (List.cons.inj h).2.symm
    · next hge =>
      -- The leading digit is that of a tenth of the number, which is not zero.
      rcases hds : Nat.toDigits 10 (n / 10) with _ | ⟨c, ds'⟩
      · exact absurd hds Nat.toDigits_ne_nil
      · rw [hds] at h
        obtain ⟨rfl, -⟩ := List.cons.inj h
        obtain rfl := ih (n / 10) (by omega) hds
        have hvalue := Radix.value_toDigits (n / 10)
        rw [hds, show Radix.decimal.value ['0'] = 0 by decide] at hvalue
        omega

/-- **The text of an integer**: perhaps a minus sign, and digits with no zero too many. -/
theorem intText_cases (n : Int) :
    ∃ sign k, intText n = sign ++ Nat.toDigits 10 k ∧ (sign = [] ∨ sign = ['-']) ∧
      k = n.natAbs := by
  cases n with
  | ofNat n => exact ⟨[], n, rfl, .inl rfl, rfl⟩
  | negSucc n => exact ⟨['-'], n + 1, rfl, .inr rfl, rfl⟩

theorem spells_intText (n : Int) : Radix.decimal.Spells (intText n) n :=
  Radix.readInt?_eq_some_iff.mp (readInt?_intText n)

/-- An integer of 64 bits has few digits. -/
theorem length_toDigits_le {n : Int} (hmin : minInt ≤ n) (hmax : n ≤ maxInt) :
    (Nat.toDigits 10 n.natAbs).length ≤ 20 := by
  have hbound : n.natAbs < 10 ^ 20 := by
    unfold minInt at hmin
    unfold maxInt at hmax
    omega
  exact (Nat.length_toDigits_le_iff (by decide) (by decide)).mpr hbound

theorem countP_intText_le {n : Int} (hmin : minInt ≤ n) (hmax : n ≤ maxInt) :
    (intText n).countP Radix.decimal.isDigit ≤ maxDecimalDigits := by
  obtain ⟨sign, k, htext, hsign, rfl⟩ := intText_cases n
  have hdigits := length_toDigits_le hmin hmax
  have hlength : sign.length ≤ 1 := by
    rcases hsign with rfl | rfl <;> decide
  calc (intText n).countP Radix.decimal.isDigit
      ≤ (intText n).length := List.countP_le_length
    _ ≤ 21 := by rw [htext, List.length_append]; omega
    _ ≤ maxDecimalDigits := by decide

/-! ### The characters of numerals -/

/-- The characters that numerals are written with, signs of exponents among them. -/
def Numeral.isChar (c : Char) : Bool :=
  Radix.decimal.isDigit c || ['.', 'e', 'E', '+', '-'].contains c

namespace Numeral

theorem isChar_of_isDigit {c : Char} (h : Radix.decimal.isDigit c = true) : isChar c = true := by
  simp [isChar, h]

theorem isChar_of_isNatural {cs : List Char} (h : Radix.decimal.isNatural cs = true) :
    ∀ c ∈ cs, isChar c = true := by
  intro c hc
  exact isChar_of_isDigit (List.all_eq_true.mp (Bool.and_eq_true_iff.mp h).2 c hc)

theorem isChar_of_spells {cs : List Char} {n : Int} (h : Radix.decimal.Spells cs n) :
    ∀ c ∈ cs, isChar c = true := by
  cases h with
  | unsigned hnat => exact isChar_of_isNatural hnat
  | plus hnat => exact List.forall_mem_cons.mpr ⟨by decide, isChar_of_isNatural hnat⟩
  | minus hnat => exact List.forall_mem_cons.mpr ⟨by decide, isChar_of_isNatural hnat⟩

theorem isChar_of_exponent? {cs : List Char} {e : Option Int} (h : exponent? cs = some e) :
    ∀ c ∈ cs, isChar c = true := by
  cases cs with
  | nil => simp
  | cons d ds =>
    obtain ⟨hd, h⟩ := Option.ite_none_right_eq_some.mp h
    obtain ⟨n, hn, -⟩ := Option.map_eq_some_iff.mp h
    refine List.forall_mem_cons.mpr ⟨?_, isChar_of_spells (Radix.readInt?_eq_some_iff.mp hn)⟩
    rcases hd with rfl | rfl <;> decide

/-- A numeral holds nothing but the characters of numerals. -/
theorem isChar_of_ofChars? {cs : List Char} {n : Numeral} (h : ofChars? cs = some n) :
    ∀ c ∈ cs, isChar c = true := by
  have hdigits (cs : List Char) : ∀ c ∈ cs.takeWhile Radix.decimal.isDigit, isChar c = true :=
    fun c hc => isChar_of_isDigit (List.all_eq_true.mp List.all_takeWhile c hc)
  have hsplit (cs : List Char)
      (hrest : ∀ c ∈ cs.dropWhile Radix.decimal.isDigit, isChar c = true) :
      ∀ c ∈ cs, isChar c = true := by
    rw [← List.takeWhile_append_dropWhile (p := Radix.decimal.isDigit) (l := cs)]
    exact List.forall_mem_append.mpr ⟨hdigits cs, hrest⟩
  unfold ofChars? at h
  dsimp only at h
  refine hsplit cs ?_
  split at h
  · next rest hrest =>
    rw [hrest]
    refine List.forall_mem_cons.mpr ⟨by decide, hsplit rest ?_⟩
    split at h
    · cases h
    · obtain ⟨e, he, -⟩ := Option.map_eq_some_iff.mp h
      exact isChar_of_exponent? he
  · split at h
    · cases h
    · obtain ⟨e, he, -⟩ := Option.map_eq_some_iff.mp h
      exact isChar_of_exponent? he

/-- A numeral starts with a digit or a point. -/
theorem head_of_ofChars? {c : Char} {cs : List Char} {n : Numeral}
    (h : ofChars? (c :: cs) = some n) : Radix.decimal.isDigit c = true ∨ c = '.' := by
  by_cases hc : Radix.decimal.isDigit c = true
  · exact .inl hc
  · right
    unfold ofChars? at h
    rw [List.takeWhile_cons_of_neg hc, List.dropWhile_cons_of_neg hc] at h
    split at h
    · next hrest => exact (List.cons.inj hrest).1
    · cases h

end Numeral

theorem Radix.isDigit_decimal {c : Char} (h : Radix.decimal.isDigit c = true) :
    0x30 ≤ c.toNat ∧ c.toNat ≤ 0x39 := by
  simpa [Radix.isDigit, Char.isDigit, UInt32.le_iff_toNat_le] using h

/-- A property of every character of a numeral, said for the digits and for the five others. -/
theorem Numeral.isChar_cases {P : Char → Prop} {c : Char} (h : isChar c = true)
    (hdigit : ∀ c, Radix.decimal.isDigit c = true → P c)
    (hother : P '.' ∧ P 'e' ∧ P 'E' ∧ P '+' ∧ P '-') : P c := by
  obtain ⟨hpoint, hlower, hupper, hplus, hminus⟩ := hother
  rcases Bool.or_eq_true_iff.mp h with h | h
  · exact hdigit c h
  · rw [List.contains_iff_mem] at h
    simp only [List.mem_cons, List.not_mem_nil, or_false] at h
    rcases h with rfl | rfl | rfl | rfl | rfl <;> assumption

/-! ### Reading the texts of numbers -/

namespace FloatText

theorem isBlank_of_isChar {c : Char} (h : Numeral.isChar c = true) : Text.isBlank c = false := by
  refine Numeral.isChar_cases (P := fun c => Text.isBlank c = false) h ?_ (by decide)
  intro c hc
  have hrange := Radix.isDigit_decimal hc
  rw [Bool.eq_false_iff]
  intro hblank
  simp only [Text.isBlank, Bool.or_eq_true, Bool.and_eq_true, decide_eq_true_eq,
    beq_iff_eq] at hblank
  omega

theorem toLower_of_isChar {c : Char} (h : Numeral.isChar c = true) :
    c.toLower ≠ 'n' ∧ c.toLower ≠ 'i' := by
  refine Numeral.isChar_cases (P := fun c => c.toLower ≠ 'n' ∧ c.toLower ≠ 'i') h ?_ (by decide)
  intro c hc
  have hrange := Radix.isDigit_decimal hc
  have hlower : c.toLower = c := by
    have hnot : ¬(65 ≤ c.toNat ∧ c.toNat ≤ 90) := by omega
    exact dif_neg hnot
  rw [hlower]
  constructor <;> rintro rfl <;> simp at hrange

theorem toAsciiDigit_of_isChar {c : Char} (h : Numeral.isChar c = true) : toAsciiDigit c = c := by
  refine Numeral.isChar_cases (P := fun c => toAsciiDigit c = c) h ?_ (by decide)
  intro c hc
  have hrange := Radix.isDigit_decimal hc
  rw [toAsciiDigit, Text.decimalDigit?_ascii hc]
  dsimp only
  rw [Nat.add_sub_cancel' hrange.1, Char.ofNat_toNat]

theorem dropUnderscores?_eq_some {cs : List Char} (h : '_' ∉ cs) (afterDigit : Bool) :
    dropUnderscores? afterDigit cs = some cs := by
  induction cs generalizing afterDigit with
  | nil => rfl
  | cons c cs ih =>
    rw [List.mem_cons, not_or] at h
    obtain ⟨hc, hcs⟩ := h
    rw [dropUnderscores?.eq_3 _ _ _ fun hc' => hc hc'.symm, ih hcs, Option.map_some]

theorem trimBy_eq_self {p : Char → Bool} {cs : List Char} (h : ∀ c ∈ cs, p c = false) :
    Text.trimBy p cs = cs := by
  have hdrop (cs : List Char) (h : ∀ c ∈ cs, p c = false) : cs.dropWhile p = cs := by
    cases cs with
    | nil => rfl
    | cons c cs => exact List.dropWhile_cons_of_neg (by simp [h c (by simp)])
  rw [Text.trimBy, hdrop cs h, hdrop _ fun c hc => h c (List.mem_reverse.mp hc),
    List.reverse_reverse]

/-- A numeral is read as itself, with the sign before it. -/
theorem unsigned?_numeral {cs : List Char} {n : Numeral} (h : Numeral.ofChars? cs = some n)
    (negative : Bool) : unsigned? negative cs = some (.numeral negative n) := by
  have hchars := Numeral.isChar_of_ofChars? h
  have hname {l : Char} {ls : List Char} (hl : l = 'n' ∨ l = 'i') :
      cs.map Char.toLower ≠ l :: ls := by
    intro hmap
    obtain ⟨c, hc, hlower⟩ := List.mem_map.mp (hmap ▸ List.mem_cons_self : l ∈ cs.map Char.toLower)
    obtain ⟨hn, hi⟩ := toLower_of_isChar (hchars c hc)
    rcases hl with rfl | rfl
    · exact hn hlower
    · exact hi hlower
  have hunderscore : '_' ∉ cs := fun hmem => absurd (hchars '_' hmem) (by decide)
  unfold unsigned?
  dsimp only
  rw [if_neg (hname (.inl rfl)), if_neg (not_or.mpr ⟨hname (.inr rfl), hname (.inr rfl)⟩),
    dropUnderscores?_eq_some hunderscore, Option.bind_some, h, Option.map_some]

/-- **A numeral with a sign or without one is read as it is written**: nothing of it is trimmed,
translated or dropped. -/
theorem ofChars?_numeral {cs : List Char} {n : Numeral} (h : Numeral.ofChars? cs = some n)
    (negative : Bool) :
    ofChars? ((if negative then ['-'] else []) ++ cs) = some (.numeral negative n) := by
  have hchars := Numeral.isChar_of_ofChars? h
  have hall : ∀ c ∈ (if negative then ['-'] else []) ++ cs, Numeral.isChar c = true := by
    refine List.forall_mem_append.mpr ⟨?_, hchars⟩
    cases negative with
    | true => exact List.forall_mem_singleton.mpr rfl
    | false => exact List.forall_mem_nil _
  have htrim : Text.trimBy isBlank ((if negative then ['-'] else []) ++ cs) = _ :=
    trimBy_eq_self fun c hc => by simp [isBlank, isBlank_of_isChar (hall c hc)]
  have hascii : ((if negative then ['-'] else []) ++ cs).map toAsciiDigit = _ :=
    List.map_congr_left fun c hc => toAsciiDigit_of_isChar (hall c hc)
  unfold ofChars?
  rw [htrim, hascii, List.map_id']
  cases negative with
  | true => exact unsigned?_numeral h true
  | false =>
    have hsign {c : Char} {ds : List Char} (hcs : cs = c :: ds) (hc : c = '-' ∨ c = '+') :
        False := by
      subst hcs
      rcases hc with rfl | rfl <;> exact absurd (Numeral.head_of_ofChars? h) (by decide)
    rw [if_neg (by decide), List.nil_append]
    split
    · exact (hsign rfl (.inl rfl)).elim
    · exact (hsign rfl (.inr rfl)).elim
    · exact unsigned?_numeral h false

end FloatText

/-! ### Floating-point numbers -/

namespace Binary64

/-- A sign has no part in rounding. -/
theorem ofDecimal_eq_ofRank (digits : Nat) (exponent : Int) :
    ∃ rank, ∀ negative, ofDecimal negative digits exponent = ofRank negative rank := by
  have hinfinity (negative : Bool) : ofRank negative rankCount = .infinity negative :=
    dif_neg (Nat.lt_irrefl _)
  unfold ofDecimal
  split
  · exact ⟨0, fun _ => rfl⟩
  split
  · exact ⟨rankCount, fun negative => (hinfinity negative).symm⟩
  split
  · exact ⟨0, fun _ => rfl⟩
  split
  · exact ⟨_, fun _ => rfl⟩
  · exact ⟨_, fun _ => rfl⟩

theorem ofRank_of_lt {rank : Nat} (h : rank < rankCount) (negative : Bool) :
    ofRank negative rank = .finite negative ⟨rank, h⟩ := dif_pos h

/-- A decimal number that is rounded to a magnitude is rounded to it with either sign. -/
theorem ofDecimal_eq_finite {digits : Nat} {exponent : Int} {rank : Fin rankCount}
    (h : ofDecimal false digits exponent = .finite false rank) (negative : Bool) :
    ofDecimal negative digits exponent = .finite negative rank := by
  obtain ⟨r, hr⟩ := ofDecimal_eq_ofRank digits exponent
  rw [hr] at h ⊢
  by_cases hlt : r < rankCount
  · rw [ofRank_of_lt hlt] at h ⊢
    cases h
    rfl
  · rw [ofRank, dif_neg hlt] at h
    cases h

/-- The text of a magnitude. -/
theorem readsBack_magnitude (rank : Nat) :
    readsBack rank (if rank = 0 then ['0', '.', '0'] else magnitudeText rank) = true := by
  split
  · next h => subst h; decide
  · exact readsBack_magnitudeText rank

/-- **The text of a finite number** is its sign and a numeral with a point or an exponent, which is
rounded to that number. -/
theorem exists_numeral (negative : Bool) (rank : Fin rankCount) :
    ∃ cs n, text (.finite negative rank) = (if negative then ['-'] else []) ++ cs ∧
      Numeral.ofChars? cs = some n ∧ n.isFractional = true ∧
      n.toBinary64 negative = .finite negative rank := by
  have hback := readsBack_magnitude rank
  unfold readsBack at hback
  split at hback
  · next n hn =>
    obtain ⟨hfrac, heq⟩ := Bool.and_eq_true_iff.mp hback
    rw [beq_iff_eq, ofRank_of_lt rank.isLt] at heq
    exact ⟨_, n, rfl, hn, hfrac, ofDecimal_eq_finite heq negative⟩
  · cases hback

end Binary64

/-- **The text of a finite number is read as that number.** -/
theorem readFloat_text {tok : Token} {negative : Bool} {rank : Fin Binary64.rankCount}
    (h : tok.text.toList = (Binary64.finite negative rank).text) :
    tok.readFloat = .ok (.finite negative rank) := by
  obtain ⟨cs, n, htext, hn, -, hvalue⟩ := Binary64.exists_numeral negative rank
  unfold Token.readFloat
  rw [h, htext, FloatText.ofChars?_numeral hn]
  simp [FloatText.overflows, FloatText.toBinary64, hvalue]

end LispCore
