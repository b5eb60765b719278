import Mathlib.Data.List.Induction
import Mathlib.Data.Nat.Digits.Defs
import LispCore.Proofs.Reader.RoundTrip
import LispCore.Proofs.Token.Spelling

/-!
Integers of every radix stand for their positional value.

`Radix.positional` is that value without the algorithm that finds it: digits weighted by the powers
of the base.

* `Radix.value_eq_positional` — digits are read as their positional value, and
  `Radix.positional_of_toDigits` says that those of a number have the number as theirs;
* `classifyAtom_spelling`, `classifyAtom_integer_spells` — which atoms are taken for integers of a
  radix, and what their tokens spell;
* `Value.Reads.spelling` — a spelling is read as its value;
* `Token.readInteger_positional` — the main statement.
-/

namespace LispCore

namespace Radix

/-! ### Digits -/

/-- The digits in lower case, each at the place of its number. -/
def digitChars : List Char := "0123456789abcdef".toList

/-- The positional value of digits in either case: the last digit counts once, and each before it
the base times as much as the one after it. -/
def positional (r : Radix) (ds : List Char) : Nat :=
  Nat.ofDigits r.base (ds.reverse.map fun c => digitChars.idxOf c.toLower)

theorem toNat_lt_of_isDigit {r : Radix} {c : Char} (h : r.isDigit c = true) : c.toNat < 128 := by
  cases r <;>
    simp only [isDigit, Char.isDigit, Bool.or_eq_true, Bool.and_eq_true, beq_iff_eq,
      decide_eq_true_eq, Char.le_def, UInt32.le_iff_toNat_le, ge_iff_le] at h
  · rcases h with rfl | rfl <;> decide
  · exact Nat.lt_of_le_of_lt h.2 (by decide)
  · exact Nat.lt_of_le_of_lt h.2 (by decide)
  · rcases h with (h | h) | h <;> exact Nat.lt_of_le_of_lt h.2 (by decide)

/-- A property of the digits of a radix may be checked for characters of ASCII one by one. -/
theorem forall_digit {r : Radix} {P : Char → Prop}
    (h : ∀ n < 128, r.isDigit (Char.ofNat n) = true → P (Char.ofNat n)) {c : Char}
    (hc : r.isDigit c = true) : P c := by
  have hdigit := h c.toNat (toNat_lt_of_isDigit hc)
  rw [Char.ofNat_toNat] at hdigit
  exact hdigit hc

/-- **The digits of a radix** are the first ones, as many as its base, in either case. -/
theorem isDigit_iff (r : Radix) (c : Char) :
    r.isDigit c = true ↔ c.toLower ∈ digitChars.take r.base := by
  constructor
  · refine forall_digit (P := fun c => c.toLower ∈ digitChars.take r.base) ?_
    cases r <;> decide +kernel
  · intro h
    have hdigits : digitChars.all (·.toNat < 128) = true := by decide
    have hlower : c.toLower.toNat < 128 :=
      of_decide_eq_true (List.all_eq_true.mp hdigits _ (List.mem_of_mem_take h))
    have hc : c.toNat < 128 := by
      by_contra hlarge
      have hcapital : ¬(65 ≤ c.toNat ∧ c.toNat ≤ 90) := by omega
      have hself : c.toLower = c := dif_neg hcapital
      exact hlarge (hself ▸ hlower)
    have hascii : ∀ n < 128, (Char.ofNat n).toLower ∈ digitChars.take r.base →
        r.isDigit (Char.ofNat n) = true := by
      cases r <;> decide +kernel
    have hdigit := hascii c.toNat hc
    rw [Char.ofNat_toNat] at hdigit
    exact hdigit h

/-- A digit stands for its place among the digits. -/
theorem digitValue_eq {r : Radix} {c : Char} (h : r.isDigit c = true) :
    digitValue c = digitChars.idxOf c.toLower := by
  refine forall_digit (P := fun c => digitValue c = digitChars.idxOf c.toLower) ?_ h
  cases r <;> decide +kernel

theorem positional_append_singleton (r : Radix) (ds : List Char) (c : Char) :
    r.positional (ds ++ [c]) = r.base * r.positional ds + digitChars.idxOf c.toLower := by
  rw [positional, positional, List.reverse_append, List.reverse_singleton, List.singleton_append,
    List.map_cons, Nat.ofDigits_cons, Nat.add_comm]

/-- **The number of a sequence of digits is its positional value.** -/
theorem value_eq_positional {r : Radix} {ds : List Char} (h : ∀ c ∈ ds, r.isDigit c = true) :
    r.value ds = r.positional ds := by
  induction ds using List.reverseRecOn with
  | nil => rfl
  | append_singleton ds c ih =>
    obtain ⟨hds, hc⟩ := List.forall_mem_append.mp h
    rw [value_append_singleton, ih hds, digitValue_eq (hc c (by simp)),
      positional_append_singleton]

/-- Zeros before the other digits count nothing. -/
theorem positional_zeros (r : Radix) (k : Nat) (ds : List Char) :
    r.positional (List.replicate k '0' ++ ds) = r.positional ds := by
  have hzero : digitChars.idxOf '0'.toLower = 0 := by decide
  rw [positional, List.reverse_append, List.reverse_replicate, List.map_append,
    List.map_replicate, hzero, Nat.ofDigits_append_replicate_zero]
  rfl

theorem one_lt_base (r : Radix) : 1 < r.base := by cases r <;> decide

/-- The digit of a number is the one at its place. -/
theorem digitChar_eq : ∀ n < 16, digitChars[n]? = some n.digitChar ∧
    digitChars.idxOf n.digitChar = n := by decide

theorem base_le (r : Radix) : r.base ≤ 16 := by cases r <;> decide

/-- **The digits that a number is written with**, in either case, have its positional value. -/
theorem positional_of_toDigits {r : Radix} {n : Nat} {ds : List Char}
    (h : ds.map Char.toLower = Nat.toDigits r.base n) : r.positional ds = n := by
  have hone := r.one_lt_base
  have hbase := r.base_le
  induction n using Nat.strongRecOn generalizing ds with
  | ind n ih =>
    rw [Nat.toDigits_eq_if hone] at h
    split at h
    · next hlt =>
      obtain ⟨c, rfl, hc⟩ := List.map_eq_singleton_iff.mp h
      rw [← List.nil_append [c], positional_append_singleton, hc, (digitChar_eq n (by omega)).2]
      exact Nat.zero_add n
    · next hge =>
      obtain ⟨ds, last, rfl, hds, hlast⟩ := List.map_eq_append_iff.mp h
      obtain ⟨c, rfl, hc⟩ := List.map_eq_singleton_iff.mp hlast
      have hless : n / r.base < n := Nat.div_lt_self (by omega) hone
      have hmod : n % r.base < r.base := Nat.mod_lt n (by omega)
      rw [positional_append_singleton, ih _ hless hds, hc, (digitChar_eq _ (by omega)).2,
        Nat.div_add_mod]

/-- The digits that a number is written with are digits of the radix. -/
theorem mem_take_of_mem_toDigits (r : Radix) {n : Nat} {c : Char}
    (h : c ∈ Nat.toDigits r.base n) : c ∈ digitChars.take r.base := by
  have hone := r.one_lt_base
  have hbase := r.base_le
  have hdigit {k : Nat} (hk : k < r.base) : k.digitChar ∈ digitChars.take r.base := by
    refine List.mem_of_getElem? (i := k) ?_
    rw [List.getElem?_take_of_lt hk, (digitChar_eq k (by omega)).1]
  induction n using Nat.strongRecOn with
  | ind n ih =>
    rw [Nat.toDigits_eq_if hone] at h
    split at h
    · next hlt =>
      obtain rfl := List.mem_singleton.mp h
      exact hdigit hlt
    · next hge =>
      rcases List.mem_append.mp h with h | h
      · exact ih _ (Nat.div_lt_self (by omega) hone) h
      · obtain rfl := List.mem_singleton.mp h
        exact hdigit (Nat.mod_lt n (by omega))

end Radix

/-! ### Spellings -/

namespace Radix

/-- The value of digits with a sign. -/
def signedValue (r : Radix) (negative : Bool) (ds : List Char) : Int :=
  (if negative then -1 else 1) * r.positional ds

/-- How an integer is spelled: a minus sign, if it is negative, the mark of the radix and digits. -/
def spelling (r : Radix) (negative : Bool) (ds : List Char) : List Char :=
  minusSign negative ++ (r.mark ++ ds)

/-- A text has no more digits than can be converted, if it is a decimal integer. -/
def FewDigits (r : Radix) (cs : List Char) : Prop :=
  r = .decimal → cs.countP Radix.decimal.isDigit ≤ maxDecimalDigits

variable {r : Radix} {cs ds text : List Char} {n : Int}

theorem forall_isDigit (h : r.isNatural ds = true) : ∀ c ∈ ds, r.isDigit c = true :=
  List.all_eq_true.mp (Bool.and_eq_true_iff.mp h).2

theorem signedValue_false (h : r.isNatural ds = true) : r.signedValue false ds = r.value ds := by
  rw [value_eq_positional (forall_isDigit h)]
  exact Int.one_mul _

theorem signedValue_true (h : r.isNatural ds = true) : r.signedValue true ds = -r.value ds := by
  rw [value_eq_positional (forall_isDigit h)]
  exact Int.neg_one_mul _

/-- A minus sign before digits is the sign of their value. -/
theorem spells_signedValue (h : r.isNatural ds = true) (negative : Bool) :
    r.Spells (minusSign negative ++ ds) (r.signedValue negative ds) := by
  cases negative with
  | true =>
    rw [signedValue_true h]
    exact .minus h
  | false =>
    rw [signedValue_false h]
    exact .unsigned h

/-- **What an integer of a radix is**: one or more digits, perhaps with a sign before them. -/
theorem spells_iff : r.Spells cs n ↔ ∃ sign ds, cs = sign ++ ds ∧
    (sign = [] ∨ sign = ['+'] ∨ sign = ['-']) ∧ r.isNatural ds = true ∧
    n = r.signedValue (sign == ['-']) ds := by
  constructor
  · intro h
    cases h with
    | unsigned h => exact ⟨[], _, rfl, .inl rfl, h, (signedValue_false h).symm⟩
    | plus h => exact ⟨['+'], _, rfl, .inr (.inl rfl), h, (signedValue_false h).symm⟩
    | minus h => exact ⟨['-'], _, rfl, .inr (.inr rfl), h, (signedValue_true h).symm⟩
  · rintro ⟨sign, ds, rfl, rfl | rfl | rfl, h, rfl⟩
    · exact spells_signedValue h false
    · have hplus := Spells.plus h
      rwa [← signedValue_false h] at hplus
    · exact spells_signedValue h true

/-- The spelling of an integer starts with a digit after the sign. -/
theorem exists_digit (h : r.isNatural ds = true) :
    ∃ c rest, r.mark ++ ds = c :: rest ∧ Radix.decimal.isDigit c = true := by
  cases r with
  | hexadecimal | binary | octal => exact ⟨'0', _, rfl, by decide⟩
  | decimal =>
    cases ds with
    | nil => cases h
    | cons c rest => exact ⟨c, rest, rfl, forall_isDigit h c List.mem_cons_self⟩

end Radix

/-! ### Atoms -/

variable {r : Radix} {cs ds text : List Char} {c : Char} {n : Int} {t : SymbolTable}

/-- **The spelling of an integer is classified as one of its radix.** Decimal digits alone may be
taken for something else: they are octal digits if a zero stands before others. -/
theorem classifyAtom_spelling (h : r.isNatural ds = true)
    (hdecimal : r = .decimal → ∀ rest, ds = '0' :: rest → Radix.octal.isNatural rest = false)
    (negative : Bool) : (classifyAtom (r.spelling negative ds)).1 = .integer r := by
  have hdigits := Radix.forall_isDigit h
  have hmark {body : List Char} (hbody : ∀ c ∈ body, Radix.decimal.isDigit c = true) {l : Char}
      (hl : Radix.decimal.isDigit l = false) : body.take 2 ≠ ['0', l] := by
    intro htake
    have hmem : l ∈ body.take 2 := htake ▸ by simp
    exact Bool.false_ne_true (hl.symm.trans (hbody l (List.mem_of_mem_take hmem)))
  obtain ⟨c, rest, hbody, hc⟩ := Radix.exists_digit h
  have hpoint : r.mark ++ ds ≠ ['.'] := by
    intro hpoint
    rw [hbody] at hpoint
    exact absurd ((List.cons.inj hpoint).1 ▸ hc) (by decide)
  rw [Radix.spelling, classifyAtom_signed (minusSign_cases negative) ⟨c, rest, hbody, .inl hc⟩
    hpoint]
  cases r with
  | hexadecimal => rw [if_pos ⟨rfl, h⟩]
  | binary =>
    have hx : (Radix.binary.mark ++ ds).take 2 ≠ ['0', 'x'] := by simp [Radix.mark]
    rw [if_neg fun hmarked => hx hmarked.1, if_pos ⟨rfl, h⟩]
  | octal =>
    have hall : ∀ c ∈ Radix.octal.mark ++ ds, Radix.decimal.isDigit c = true :=
      List.forall_mem_cons.mpr ⟨by decide, fun c hc => Radix.isDigit_of_octal (hdigits c hc)⟩
    rw [if_neg fun hx => hmark hall (by decide) hx.1, if_neg fun hb => hmark hall (by decide) hb.1,
      if_pos ⟨rfl, h⟩]
  | decimal =>
    have hoctal : ¬(ds.take 1 = ['0'] ∧ Radix.octal.isNatural (ds.drop 1)) := by
      rintro ⟨htake, hoctal⟩
      have hds : ds = '0' :: ds.drop 1 := by
        rw [← List.singleton_append, ← htake, List.take_append_drop]
      exact Bool.false_ne_true ((hdecimal rfl _ hds).symm.trans hoctal)
    rw [Radix.mark, List.nil_append, if_neg fun hx => hmark hdigits (by decide) hx.1,
      if_neg fun hb => hmark hdigits (by decide) hb.1, if_neg hoctal, if_pos h]

/-- Whether a character may stand anywhere in an atom, also at its start. -/
def isPlain (c : Char) : Bool := !isDelimiter c && c != '#'

theorem isAtom_of_isPlain (hne : cs ≠ []) (h : cs.all isPlain = true) : IsAtom cs := by
  have hplain : ∀ c ∈ cs, isDelimiter c = false ∧ c ≠ '#' := by
    intro c hc
    simpa [isPlain] using List.all_eq_true.mp h c hc
  refine ⟨hne, fun c hc => (hplain c hc).1, ?_⟩
  intro htake
  have hmem : '#' ∈ cs.take 2 := htake ▸ List.mem_cons_self
  exact (hplain '#' (List.mem_of_mem_take hmem)).2 rfl

theorem isPlain_of_isDigit (h : r.isDigit c = true) : isPlain c = true := by
  refine Radix.forall_digit (P := fun c => isPlain c = true) ?_ h
  cases r <;> decide +kernel

/-- A spelling is an atom: its sign, its mark and its digits are plain. -/
theorem isAtom_spelling (h : r.isNatural ds = true) (negative : Bool) :
    IsAtom (r.spelling negative ds) := by
  have hsign : (minusSign negative).all isPlain = true := by cases negative <;> decide
  have hmark : r.mark.all isPlain = true := by cases r <;> decide
  have hdigits : ds.all isPlain = true := by
    refine List.all_eq_true.mpr ?_
    intro c hc
    exact isPlain_of_isDigit (Radix.forall_isDigit h c hc)
  obtain ⟨c, rest, hbody, -⟩ := Radix.exists_digit h
  apply isAtom_of_isPlain
  · rw [Radix.spelling, hbody]
    simp
  · rw [Radix.spelling, List.all_append, List.all_append, hsign, hmark, hdigits]
    rfl

/-- A spelling starts with a minus sign exactly if it has one. -/
theorem head?_spelling (h : r.isNatural ds = true) (negative : Bool) :
    ((r.spelling negative ds).head? == some '-') = negative := by
  obtain ⟨c, rest, hbody, hc⟩ := Radix.exists_digit h
  rw [Radix.spelling, hbody]
  cases negative with
  | true => rfl
  | false =>
    refine beq_eq_false_iff_ne.mpr fun hhead => ?_
    rw [Option.some.inj hhead] at hc
    exact absurd hc (by decide)

/-- **The token of an atom that is taken for an integer** spells the value of the digits of the
atom, with its sign. -/
theorem classifyAtom_integer_spells (h : classifyAtom cs = (.integer r, text)) :
    ∃ ds, r.isNatural ds = true ∧ cs = r.spelling (cs.head? == some '-') ds ∧
      r.Spells text (r.signedValue (cs.head? == some '-') ds) := by
  obtain ⟨ds, hds, hcs, rfl⟩ := classifyAtom_integer_cases h
  refine ⟨ds, hds, hcs, ?_⟩
  have hkept : r.positional (r.keptMark ++ ds) = r.positional ds := by
    cases r with
    | octal => exact Radix.positional_zeros _ 1 ds
    | _ => rfl
  have hspells := Radix.spells_signedValue (Radix.isNatural_keptMark hds) (cs.head? == some '-')
  rwa [Radix.signedValue, hkept] at hspells

/-- The token of a decimal integer has the whole atom as its text. -/
theorem fewDigits_of_classifyAtom (h : classifyAtom cs = (.integer r, text))
    (hfew : r.FewDigits cs) : r.FewDigits text := by
  rintro rfl
  obtain ⟨ds, -, hcs, htext⟩ := classifyAtom_integer_cases h
  obtain rfl : text = cs := htext.trans hcs.symm
  exact hfew rfl

/-- An integer that a token stands for, or its failure if that has more than 64 bits. -/
def Token.ranged (tok : Token) (n : Int) : Except Failure Int :=
  if minInt ≤ n ∧ n ≤ maxInt then .ok n else .error (.read (.integerRange tok))

/-- **Reading an integer gives what its text spells**, if that has 64 bits. -/
theorem Token.readInteger_of_spells {tok : Token} (h : r.Spells tok.text.toList n)
    (hfew : r.FewDigits tok.text.toList) : tok.readInteger r = tok.ranged n := by
  have hread := Radix.readInt?_eq_some_iff.mpr h
  have hconvertible : ¬(r = .decimal ∧ maxDecimalDigits < tok.text.toList.countP r.isDigit) := by
    rintro ⟨rfl, hmany⟩
    exact Nat.not_le.mpr hmany (hfew rfl)
  rw [readInteger, hread]
  dsimp only
  rw [if_neg hconvertible]
  rfl

/-! ### Spelled integers are read -/

namespace Value

/-- A text that is read as a value is a program of that one form. -/
theorem Reads.readAll {v : Value} (h : Reads t cs v) :
    (Reader.ofText (String.ofList cs) t).readAll.1 = .ok [v] := by
  obtain ⟨toks, hcuts, hexpr⟩ := h {} [] rfl
  obtain ⟨r', hend, -⟩ := Reader.forms_end (Position.advance {} cs) t
  have htokens := hcuts.tokens
  rw [List.append_nil] at htokens
  rw [Reader.readAll, Reader.ofText, TokenStream.ofText, tokens, String.toList_ofList, htokens,
    Reader.forms_of_form (Reader.form_of_expr hcuts.regular hexpr _), hend]

/-- **A spelling is read as its value** if it is classified as an integer of its radix. -/
theorem Reads.spelling {negative : Bool} (h : r.isNatural ds = true)
    (hclass : (classifyAtom (r.spelling negative ds)).1 = .integer r)
    (hfew : r.FewDigits (r.spelling negative ds)) (hmin : minInt ≤ r.signedValue negative ds)
    (hmax : r.signedValue negative ds ≤ maxInt) :
    Reads t (r.spelling negative ds) (.int (r.signedValue negative ds)) := by
  rcases hatom : classifyAtom (r.spelling negative ds) with ⟨kind, text⟩
  rw [hatom] at hclass
  obtain rfl : kind = .integer r := hclass
  obtain ⟨ds', -, hcs, hspells⟩ := classifyAtom_integer_spells hatom
  rw [head?_spelling h] at hcs hspells
  obtain rfl : ds = ds' := List.append_cancel_left (List.append_cancel_left hcs)
  refine .of_atom (isAtom_spelling h negative) hatom ?_ ?_
  · intro hkind
    cases hkind
    exact fewDigits_of_classifyAtom hatom hfew rfl
  · intro tok hkind htext
    exact .integer hkind (htext ▸ hspells) hmin hmax

end Value

/-! ### Digits of an integer -/

/-- The digits of an integer spell it, with its sign and after any zeros. -/
theorem signedValue_toDigits (hds : ds.map Char.toLower = Nat.toDigits r.base n.natAbs)
    (zeros : Nat) : r.signedValue (n < 0) (List.replicate zeros '0' ++ ds) = n := by
  rw [Radix.signedValue, Radix.positional_zeros, Radix.positional_of_toDigits hds]
  by_cases hn : n < 0
  · simp only [hn, decide_true, if_true]
    omega
  · simp only [hn, decide_false, Bool.false_eq_true, if_false]
    omega

theorem isNatural_toDigits {k : Nat} (hds : ds.map Char.toLower = Nat.toDigits r.base k)
    (zeros : Nat) : r.isNatural (List.replicate zeros '0' ++ ds) = true := by
  have hne : ds ≠ [] := by
    rintro rfl
    exact Nat.toDigits_ne_nil hds.symm
  have hdigits : ∀ c ∈ ds, r.isDigit c = true := by
    intro c hc
    rw [Radix.isDigit_iff]
    exact r.mem_take_of_mem_toDigits (hds ▸ List.mem_map_of_mem hc)
  have hzeros : ∀ c ∈ List.replicate zeros '0', r.isDigit c = true := by
    intro c hc
    rw [List.eq_of_mem_replicate hc]
    cases r <;> decide
  have hall := List.all_eq_true.mpr (List.forall_mem_append.mpr ⟨hzeros, hdigits⟩)
  simp [Radix.isNatural, hall, hne]

/-- The usual spelling of an integer is classified as one of its radix, and has few digits. -/
theorem spelling_toDigits (hds : ds.map Char.toLower = Nat.toDigits r.base n.natAbs)
    (hmin : minInt ≤ n) (hmax : n ≤ maxInt) :
    (classifyAtom (r.spelling (n < 0) ds)).1 = .integer r ∧ r.FewDigits (r.spelling (n < 0) ds) := by
  constructor
  · refine classifyAtom_spelling (isNatural_toDigits hds 0) ?_ _
    rintro rfl rest rfl
    -- No zero stands before other digits.
    rw [List.map_cons] at hds
    have hrest := toDigits_eq_zero_cons hds.symm
    rw [List.map_eq_nil_iff.mp hrest]
    rfl
  · rintro rfl
    have hlength : ds.length ≤ 20 := by
      rw [← List.length_map Char.toLower, hds]
      exact length_toDigits_le hmin hmax
    have hsign : (minusSign (n < 0)).length ≤ 1 := by
      rcases minusSign_cases (n < 0) with h | h <;> simp [h]
    calc (Radix.decimal.spelling (n < 0) ds).countP Radix.decimal.isDigit
        ≤ (minusSign (n < 0) ++ ds).length := List.countP_le_length
      _ ≤ 21 := by rw [List.length_append]; omega
      _ ≤ maxDecimalDigits := by decide

/-- **Integers of every radix stand for their positional value.** Decimal ones are meant here with
as many digits as can be converted.

* An atom that is taken for an integer is a spelling of digits. A token with its text is read as
  their value, with the sign of the atom, or refused if that has more than 64 bits.
* The usual spelling of an integer of 64 bits, with digits in either case, is taken for an integer
  of its radix. It is read as that integer, and so it is with zeros before its digits, as long as it
  is still taken for the same.
* A token from anywhere is read as an integer exactly if its text is one or more digits of the
  radix, perhaps after a sign, and their value with that sign has 64 bits. -/
theorem Token.readInteger_positional :
    (∀ cs text r, classifyAtom cs = (.integer r, text) → r.FewDigits cs →
      ∃ ds, r.isNatural ds = true ∧ cs = r.spelling (cs.head? == some '-') ds ∧
        ∀ tok : Token, tok.kind = .integer r → tok.text.toList = text →
          tok.readInteger r = tok.ranged (r.signedValue (cs.head? == some '-') ds)) ∧
    (∀ n r ds, minInt ≤ n → n ≤ maxInt → ds.map Char.toLower = Nat.toDigits r.base n.natAbs →
      (classifyAtom (r.spelling (n < 0) ds)).1 = .integer r ∧
      r.FewDigits (r.spelling (n < 0) ds) ∧
      ∀ zeros t, let cs := r.spelling (n < 0) (List.replicate zeros '0' ++ ds)
        (classifyAtom cs).1 = .integer r → r.FewDigits cs →
        (Reader.ofText (String.ofList cs) t).readAll.1 = .ok [.int n]) ∧
    (∀ (tok : Token) r n, tok.kind = .integer r → r.FewDigits tok.text.toList →
      (tok.readInteger r = .ok n ↔ minInt ≤ n ∧ n ≤ maxInt ∧
        ∃ sign ds, tok.text.toList = sign ++ ds ∧ (sign = [] ∨ sign = ['+'] ∨ sign = ['-']) ∧
          r.isNatural ds = true ∧ n = r.signedValue (sign == ['-']) ds)) := by
  refine ⟨?_, ?_, ?_⟩
  · intro cs text r hclass hfew
    obtain ⟨ds, hds, hcs, hspells⟩ := classifyAtom_integer_spells hclass
    refine ⟨ds, hds, hcs, ?_⟩
    rintro tok - rfl
    exact readInteger_of_spells hspells (fewDigits_of_classifyAtom hclass hfew)
  · intro n r ds hmin hmax hds
    obtain ⟨husual, hfew⟩ := spelling_toDigits hds hmin hmax
    refine ⟨husual, hfew, ?_⟩
    intro zeros t cs hclass hfew
    have hvalue := signedValue_toDigits hds zeros
    have hreads := Value.Reads.spelling (t := t) (isNatural_toDigits hds zeros) hclass hfew
      (hvalue.symm ▸ hmin) (hvalue.symm ▸ hmax)
    rw [hvalue] at hreads
    exact hreads.readAll
  · intro tok r n hkind hfew
    have hregular : tok.Regular := by
      refine ⟨by simp [hkind], ?_⟩
      intro hdecimal
      exact hfew (TokenKind.integer.inj (hkind.symm.trans hdecimal))
    rw [readInteger_eq_ok_iff hregular hkind, Radix.spells_iff]
    exact ⟨fun h => ⟨h.2.1, h.2.2, h.1⟩, fun h => ⟨h.2.2, h.1, h.2.1⟩⟩

/-- The token of one more than the greatest integer, in hexadecimal. -/
def excessToken : Token :=
  { kind := .integer .hexadecimal, text := "8000000000000000", length := 18 }

/-- A token with a plus sign, which no text has. -/
def plusToken : Token := { kind := .integer .decimal, text := "+7", length := 2 }

/-- The digits of the least integer are one too many without its sign, and can be read with it and
a zero before them. -/
theorem readInteger_positional_least :
    classifyAtom "0x8000000000000000".toList =
      (.integer .hexadecimal, excessToken.text.toList) ∧
    excessToken.readInteger .hexadecimal = .error (.read (.integerRange excessToken)) ∧
    "8000000000000000".toList.map Char.toLower =
      Nat.toDigits Radix.hexadecimal.base minInt.natAbs ∧
    (Reader.ofText "-0x08000000000000000" ∅).readAll.1 = .ok [.int minInt] ∧
    Radix.decimal.FewDigits plusToken.text.toList ∧ plusToken.readInteger .decimal = .ok 7 := by
  obtain ⟨hatoms, hspellings, htokens⟩ := Token.readInteger_positional
  have hclass : classifyAtom "0x8000000000000000".toList =
      (.integer .hexadecimal, excessToken.text.toList) := by decide +kernel
  have hlower : "8000000000000000".toList.map Char.toLower =
      Nat.toDigits Radix.hexadecimal.base minInt.natAbs := by decide +kernel
  have hfew : Radix.decimal.FewDigits plusToken.text.toList := fun _ => by decide
  refine ⟨hclass, ?_, hlower, ?_, hfew, ?_⟩
  · obtain ⟨ds, -, hcs, hread⟩ := hatoms _ _ _ hclass (by simp [Radix.FewDigits])
    obtain rfl : ds = "8000000000000000".toList := (congrArg (List.drop 2) hcs).symm
    rw [hread excessToken rfl rfl]
    decide +kernel
  · exact (hspellings minInt .hexadecimal _ (by decide) (by decide) hlower).2.2 1 ∅
      (by decide +kernel) (by simp [Radix.FewDigits])
  · refine (htokens plusToken .decimal 7 rfl hfew).mpr ⟨by decide, by decide, ['+'], ['7'], rfl, ?_⟩
    exact ⟨by simp, by decide, by decide⟩

end LispCore
