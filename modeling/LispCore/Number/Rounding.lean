import LispCore.Number.Binary64

/-!
Rounding to the nearest 64-bit number. A non-negative quotient is given as two whole numbers; of
the two magnitudes around it the nearer is taken, and of two equally near the one of even rank.
Decimal numbers are rounded in the same way. Those whose exponent alone decides that they overflow,
or that they are nearer to zero than to any other number, are settled without writing them out.
-/

namespace LispCore.Binary64

/-- The rank nearest to the magnitude `p / q`; it may be the rank of infinity or lie beyond it. -/
def nearestRank (p q : Nat) : Nat :=
  let scaled := p * oneUnits
  let below := rankBelow (scaled / q)
  let twice := 2 * scaled
  let middle := (units below + units (below + 1)) * q
  if twice < middle then below
  else if middle < twice then below + 1
  else below + below % 2

/-- A magnitude that is one of a rank is rounded to that rank. -/
theorem nearestRank_units {r q : Nat} (hq : 0 < q) :
    nearestRank (units r * q) (oneUnits * q) = r := by
  have ho : 0 < oneUnits := by decide +kernel
  have hs : units r * q * oneUnits / (oneUnits * q) = units r := by
    rw [Nat.mul_assoc, Nat.mul_comm q, Nat.mul_div_cancel _ (Nat.mul_pos ho hq)]
  unfold nearestRank
  dsimp only
  rw [hs, rankBelow_units, if_pos]
  rw [Nat.mul_assoc (units r), Nat.mul_comm q, ← Nat.mul_assoc]
  refine Nat.mul_lt_mul_of_pos_right ?_ (Nat.mul_pos ho hq)
  have := units_lt_units_succ r
  omega

/-- The number nearest to `p / q`, with a sign. -/
def ofQuotient (negative : Bool) (p q : Nat) : Binary64 :=
  ofRank negative (nearestRank p q)

/-- The number nearest to `digits · 10 ^ exponent`, with a sign. -/
def ofDecimal (negative : Bool) (digits : Nat) (exponent : Int) : Binary64 :=
  if digits = 0 then ofRank negative 0
  else if 400 < exponent then .infinity negative
  else if exponent < -(digits.log2 + 401 : Int) then ofRank negative 0
  else if 0 ≤ exponent then ofQuotient negative (digits * Nat.pow 10 exponent.toNat) 1
  else ofQuotient negative digits (Nat.pow 10 (-exponent).toNat)

end LispCore.Binary64
