import LispCore.Number.Numeral

/-!
The shortest decimal text of a number that reads back as the same number.

For one digit, two digits and so on, the two neighbours of the magnitude on that decimal grid are
laid out, the nearer one first and of two equally near the even one, and the first text that reads
back is taken. `readsBack_magnitudeText` says that the text of every magnitude reads back.

The text is positional when the first digit stands for at least 10⁻⁴ and less than 10¹⁶, and then
has a point with a digit after it; otherwise it has one digit before the point, a point only where
more digits follow, and an exponent with a sign and at least two digits.
-/

namespace LispCore.Binary64

/-! ### Layout -/

/-- A decimal number `digits · 10 ^ exponent`. -/
structure Decimal where
  digits : Nat
  exponent : Int
deriving DecidableEq, Repr

/-- Without zeros at the end of the digits. -/
def Decimal.trimZeros (d : Decimal) : Decimal :=
  if _h : 0 < d.digits ∧ d.digits % 10 = 0 then trimZeros ⟨d.digits / 10, d.exponent + 1⟩ else d
termination_by d.digits
decreasing_by omega

/-- The text of a decimal number, positional or with an exponent. -/
def Decimal.layout (d : Decimal) : List Char :=
  let ds := Nat.toDigits 10 d.digits
  let point : Int := ds.length + d.exponent
  if -4 < point ∧ point ≤ 16 then
    if point ≤ 0 then '0' :: '.' :: List.replicate (-point).toNat '0' ++ ds
    else if ds.length ≤ point then
      ds ++ List.replicate (point.toNat - ds.length) '0' ++ ['.', '0']
    else ds.take point.toNat ++ '.' :: ds.drop point.toNat
  else
    let sign := if point - 1 < 0 then '-' else '+'
    let exponent := Nat.toDigits 10 (point - 1).natAbs
    let padded := if exponent.length < 2 then '0' :: exponent else exponent
    let fraction := if ds.length ≤ 1 then [] else '.' :: ds.drop 1
    ds.take 1 ++ fraction ++ 'e' :: sign :: padded

/-! ### Search -/

/-- Whether a text is a numeral with a point or an exponent that is read as the magnitude of a
rank. -/
def readsBack (rank : Nat) (cs : List Char) : Bool :=
  match Numeral.ofChars? cs with
  | some n => n.isFractional && n.toBinary64 false == ofRank false rank
  | none => false

/-- How many places there are before the point in a magnitude in units, counted below zero for
zeros after the point. A positive magnitude is at least 10⁻³²⁴, so a shift by 400 places leaves its
leading digit before the point. -/
def decimalPlaces (n : Nat) : Int :=
  ((Nat.toDigits 10 (n * Nat.pow 10 400 / oneUnits)).length : Int) - 400

/-- The neighbours of the magnitude of a rank among the multiples of `10 ^ exponent`, the nearer one
first, or the even one where they are equally near. -/
def neighbours (rank : Nat) (exponent : Int) : List Decimal :=
  let p := units rank * Nat.pow 10 (-exponent).toNat
  let q := oneUnits * Nat.pow 10 exponent.toNat
  let low : Decimal := ⟨p / q, exponent⟩
  let high : Decimal := ⟨p / q + 1, exponent⟩
  let twice := 2 * (p % q)
  if twice < q ∨ (twice = q ∧ p / q % 2 = 0) then [low, high] else [high, low]

/-- The shortest text that reads back among those of up to seventeen digits. -/
def shortest? (rank : Nat) : Option (List Char) :=
  let places := decimalPlaces (units rank)
  (List.range 17).findSome? fun (n : Nat) =>
    ((neighbours rank (places - (n + 1))).map fun d => d.trimZeros.layout).find? (readsBack rank)

/-- The digits of one unit, which is 5¹⁰⁷⁴ · 10⁻¹⁰⁷⁴. -/
def unitDigits : Nat := Nat.pow 5 1074

/-- All digits of the magnitude of a rank, as a multiple of 10⁻¹⁰⁷⁴. -/
def exactText (rank : Nat) : List Char :=
  Nat.toDigits 10 (units rank * unitDigits) ++ ['e', '-', '1', '0', '7', '4']

/-- The text of the magnitude of a rank. Seventeen digits are always enough; should they not be, all
digits would stand in. -/
def magnitudeText (rank : Nat) : List Char := (shortest? rank).getD (exactText rank)

theorem readsBack_toDigits_append (rank n : Nat) :
    readsBack rank (Nat.toDigits 10 n ++ ['e', '-', '1', '0', '7', '4']) =
      (ofDecimal false n (-1074) == ofRank false rank) := by
  unfold readsBack
  rw [Numeral.ofChars?_toDigits_append _ (by decide) (by decide)]
  have hexp : Numeral.exponent? ['e', '-', '1', '0', '7', '4'] = some (some (-1074)) := by decide
  rw [hexp]
  simp [Numeral.isFractional, Numeral.toBinary64, Radix.value_toDigits]

/-- All digits of a magnitude are rounded to it. -/
theorem ofDecimal_unitDigits (rank : Nat) :
    ofDecimal false (units rank * unitDigits) (-1074) = ofRank false rank := by
  by_cases h0 : rank = 0
  · subst h0
    have : units 0 * unitDigits = 0 := by rw [show units 0 = 0 by decide, Nat.zero_mul]
    rw [this]; rfl
  · have hu : 0 < unitDigits := by decide +kernel
    have hge : unitDigits ≤ units rank * unitDigits := Nat.le_mul_of_pos_left _ (units_pos h0)
    have hlog : 673 ≤ (units rank * unitDigits).log2 := by
      rw [Nat.le_log2 (by omega)]
      exact Nat.le_trans (by decide +kernel) hge
    unfold ofDecimal
    rw [if_neg (by omega), if_neg (by decide), if_neg (by omega), if_neg (by decide)]
    have hten : Nat.pow 10 (-(-1074 : Int)).toNat = oneUnits * unitDigits := by decide +kernel
    rw [hten, ofQuotient, nearestRank_units hu]

theorem readsBack_exactText (rank : Nat) : readsBack rank (exactText rank) = true := by
  rw [exactText, readsBack_toDigits_append, ofDecimal_unitDigits, beq_self_eq_true]

/-- The text of a magnitude is a numeral with a point or an exponent that is read as it. -/
theorem readsBack_magnitudeText (rank : Nat) : readsBack rank (magnitudeText rank) = true := by
  unfold magnitudeText
  cases h : shortest? rank with
  | none => rw [Option.getD_none]; exact readsBack_exactText rank
  | some cs =>
    unfold shortest? at h
    dsimp only at h
    obtain ⟨n, -, hn⟩ := List.exists_of_findSome?_eq_some h
    rw [Option.getD_some]
    exact List.find?_some hn

/-- The text of a number. -/
def text : Binary64 → List Char
  | .nan => ['n', 'a', 'n']
  | .infinity negative => (if negative then ['-'] else []) ++ ['i', 'n', 'f']
  | .finite negative rank =>
    (if negative then ['-'] else []) ++
      if rank.val = 0 then ['0', '.', '0'] else magnitudeText rank

end LispCore.Binary64
