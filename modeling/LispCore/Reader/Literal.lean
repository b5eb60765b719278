import LispCore.Number.Numeral
import LispCore.Failure

/-!
The numbers that tokens stand for. Integers of every radix share the range of 64 bits with a sign.
Tokens may come from elsewhere than a text, so their texts are checked here again.
-/

namespace LispCore

/-- The least integer that can be read, which is -2⁶³. -/
def minInt : Int := -0x8000000000000000

/-- The greatest integer that can be read, which is 2⁶³ - 1. -/
def maxInt : Int := 0x7FFFFFFFFFFFFFFF

/-- The number of decimal digits past which a conversion is refused. -/
def maxDecimalDigits : Nat := 4300

namespace Token

/-- The integer that a token of a radix stands for. -/
def readInteger (t : Token) (r : Radix) : Except Failure Int :=
  match r.readInt? t.text.toList with
  | none => .error (.read (.malformedInteger r t))
  | some n =>
    let digits := t.text.toList.countP r.isDigit
    if r = .decimal ∧ maxDecimalDigits < digits then .error (.integerTooLong digits)
    else if minInt ≤ n ∧ n ≤ maxInt then .ok n
    else .error (.read (.integerRange t))

/-- The floating-point number that a token stands for. -/
def readFloat (t : Token) : Except Failure Binary64 :=
  match FloatText.ofChars? t.text.toList with
  | none => .error (.read (.malformedFloat t))
  | some x => if x.overflows then .error (.read (.floatRange t)) else .ok x.toBinary64

end Token

end LispCore
