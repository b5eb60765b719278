import LispCore.Number.Radix
import LispCore.Number.Rounding
import LispCore.Text.Blank
import LispCore.Text.DecimalDigit

/-!
Decimal numerals and the texts of floating-point numbers.

A numeral is unsigned: digits, perhaps a point with more digits, perhaps an exponent, and a digit
somewhere before the exponent. The text of a floating-point number is wider than that: it may have
blanks around it and a sign, its digits may be of any script, an underscore may stand between two
digits, and it may name an infinity or NaN in letters of either case.
-/

namespace LispCore

/-- An unsigned decimal numeral, its digits being ASCII ones. -/
structure Numeral where
  whole : List Char
  fraction : Option (List Char)
  exponent : Option Int
deriving DecidableEq, Repr

namespace Numeral

/-- Reads the exponent part of a numeral, which may be absent. -/
def exponent? : List Char → Option (Option Int)
  | [] => some none
  | e :: rest => if e = 'e' ∨ e = 'E' then (Radix.decimal.readInt? rest).map some else none

/-- Reads a numeral that takes up a whole text. -/
def ofChars? (cs : List Char) : Option Numeral :=
  let whole := cs.takeWhile Radix.decimal.isDigit
  match cs.dropWhile Radix.decimal.isDigit with
  | '.' :: rest =>
    let fraction := rest.takeWhile Radix.decimal.isDigit
    if whole.isEmpty && fraction.isEmpty then none
    else (exponent? (rest.dropWhile Radix.decimal.isDigit)).map (⟨whole, some fraction, ·⟩)
  | rest => if whole.isEmpty then none else (exponent? rest).map (⟨whole, none, ·⟩)

theorem ofChars?_toDigits_append (n : Nat) {rest : List Char}
    (h : rest.takeWhile Radix.decimal.isDigit = []) (hdot : rest.head? ≠ some '.') :
    ofChars? (Nat.toDigits 10 n ++ rest) =
      (exponent? rest).map (⟨Nat.toDigits 10 n, none, ·⟩) := by
  have hall : ∀ c ∈ Nat.toDigits 10 n, Radix.decimal.isDigit c = true :=
    fun c hc => Radix.isDigit_of_mem_toDigits hc
  have hd : rest.dropWhile Radix.decimal.isDigit = rest := by
    have := List.takeWhile_append_dropWhile (p := Radix.decimal.isDigit) (l := rest)
    rwa [h, List.nil_append] at this
  unfold ofChars?
  rw [List.takeWhile_append_of_pos hall, List.dropWhile_append_of_pos hall, h, hd, List.append_nil]
  dsimp only
  split
  · next rest' => exact absurd rfl hdot
  · have : (Nat.toDigits 10 n).isEmpty = false := by
      simp [Nat.toDigits_ne_nil]
    rw [this]
    rfl

/-- Whether a numeral has a point or an exponent, and so is not a plain sequence of digits. -/
def isFractional (n : Numeral) : Bool := n.fraction.isSome || n.exponent.isSome

/-- The floating-point number nearest to a numeral, with a sign. -/
def toBinary64 (n : Numeral) (negative : Bool) : Binary64 :=
  let fraction := n.fraction.getD []
  .ofDecimal negative (Radix.decimal.value (n.whole ++ fraction))
    (n.exponent.getD 0 - fraction.length)

end Numeral

/-- What the text of a floating-point number spells. -/
inductive FloatText where
  | nan
  | infinity (negative : Bool)
  | numeral (negative : Bool) (n : Numeral)
deriving DecidableEq, Repr

namespace FloatText

/-- The blanks that may surround the text of a number; the information separators may not. -/
def isBlank (c : Char) : Bool :=
  Text.isBlank c && !(0x1C ≤ c.toNat && c.toNat ≤ 0x1F)

/-- A digit of any script as an ASCII digit; other characters stay. -/
def toAsciiDigit (c : Char) : Char :=
  match Text.decimalDigit? c with
  | some d => Char.ofNat (0x30 + d)
  | none => c

/-- Drops the underscores of a text, each of which must stand between two digits. The first
argument says whether a digit comes just before the text. -/
def dropUnderscores? : Bool → List Char → Option (List Char)
  | _, [] => some []
  | afterDigit, '_' :: rest =>
    if afterDigit && (rest.head?.any Radix.decimal.isDigit) then dropUnderscores? false rest
    else none
  | _, c :: rest => (dropUnderscores? (Radix.decimal.isDigit c) rest).map (c :: ·)

/-- Reads the text of a number without blanks and without a sign. -/
def unsigned? (negative : Bool) (cs : List Char) : Option FloatText :=
  let lower := cs.map Char.toLower
  if lower = ['n', 'a', 'n'] then some .nan
  else if lower = ['i', 'n', 'f'] ∨ lower = ['i', 'n', 'f', 'i', 'n', 'i', 't', 'y'] then
    some (.infinity negative)
  else (dropUnderscores? false cs).bind fun ds => (Numeral.ofChars? ds).map (.numeral negative)

/-- Reads the text of a floating-point number. -/
def ofChars? (cs : List Char) : Option FloatText :=
  match (Text.trimBy isBlank cs).map toAsciiDigit with
  | '-' :: rest => unsigned? true rest
  | '+' :: rest => unsigned? false rest
  | rest => unsigned? false rest

/-- The number that a text spells, rounded where it has to be. -/
def toBinary64 : FloatText → Binary64
  | nan => .nan
  | infinity negative => .infinity negative
  | numeral negative n => n.toBinary64 negative

/-- Whether a numeral is too large for any finite number; an infinity that is spelled out is not. -/
def overflows : FloatText → Bool
  | numeral negative n => n.toBinary64 negative == .infinity negative
  | _ => false

end FloatText

end LispCore
