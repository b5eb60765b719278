import LispCore.Number.Numeral
import LispCore.Token

/-!
Atoms: the runs of characters that no blank, bracket, marker, quote or comment interrupts. A whole
atom is classified at once. The minus sign of an integer stands before its radix mark.
-/

namespace LispCore

/-- Whether a character ends an atom. -/
def isDelimiter (c : Char) : Bool :=
  Text.isBlank c || ['(', ')', '[', ']', '{', '}', '\'', '\x60', '~', '"', ';'].contains c

/-- A text as its minus sign, if it has one, and what follows. -/
def splitMinus : List Char → List Char × List Char
  | '-' :: rest => (['-'], rest)
  | rest => ([], rest)

/-- Whether a text is a decimal numeral with a point or an exponent. -/
def isFractionalNumeral (cs : List Char) : Bool :=
  (Numeral.ofChars? cs).any Numeral.isFractional

/-- The kind of an atom and the text its token has. Hexadecimal and binary integers lose their radix
mark and keep their sign; octal ones keep the leading zero that marks them. -/
def classifyAtom (text : List Char) : TokenKind × List Char :=
  if text = ['.'] then (.dot, text)
  else if text = "true".toList ∨ text = "false".toList then (.bool, text)
  else
    let (sign, body) := splitMinus text
    let digits := body.drop 2
    if body.take 2 = ['0', 'x'] ∧ Radix.hexadecimal.isNatural digits then
      (.integer .hexadecimal, sign ++ digits)
    else if body.take 2 = ['0', 'b'] ∧ Radix.binary.isNatural digits then
      (.integer .binary, sign ++ digits)
    else if body.take 1 = ['0'] ∧ Radix.octal.isNatural (body.drop 1) then (.integer .octal, text)
    else if Radix.decimal.isNatural body then (.integer .decimal, text)
    else if isFractionalNumeral body then (.float, text)
    else (.symbol, text)

end LispCore
