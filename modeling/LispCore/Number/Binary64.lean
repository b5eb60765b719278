/-!
Binary floating-point numbers of 64 bits. A finite number is a sign and a *rank*: the place of its
magnitude among all finite magnitudes, zero having rank zero. The rank is also the bit pattern
below the sign. `units` gives the magnitude of a rank as a whole number of units of 2⁻¹⁰⁷⁴, the
smallest positive magnitude; it goes on past the last finite rank, so that the rank of infinity has
the magnitude 2¹⁰²⁴ which the next number would have.
-/

namespace LispCore

/-- How many fractions one exponent has, which is 2⁵². -/
def Binary64.fractionCount : Nat := 0x10000000000000

/-- How many finite magnitudes there are, which is also the rank of infinity. -/
def Binary64.rankCount : Nat := 0x7FF0000000000000

/-- The place of the sign among the 64 bits, which is 2⁶³. -/
def Binary64.signBit : Nat := 0x8000000000000000

/-- The magnitude one in units, which is 2¹⁰⁷⁴. -/
def Binary64.oneUnits : Nat := Nat.pow 2 1074

/-- A binary floating-point number of 64 bits, all NaNs being one value. -/
inductive Binary64 where
  | nan
  | infinity (negative : Bool)
  | finite (negative : Bool) (rank : Fin Binary64.rankCount)
deriving DecidableEq, Repr

namespace Binary64

instance : Inhabited Binary64 := ⟨.finite false ⟨0, by decide⟩⟩

theorem rankCount_pos : 0 < rankCount := by decide

/-- The magnitude of a rank in units of 2⁻¹⁰⁷⁴. The low 52 bits are the fraction and those above
them the exponent; the smallest exponent alone has no leading bit besides them. -/
def units (rank : Nat) : Nat :=
  let exponent := rank / fractionCount
  if exponent = 0 then rank
  else (fractionCount + rank % fractionCount) * Nat.pow 2 (exponent - 1)

/-- The greatest rank whose magnitude does not exceed a number of units. -/
def rankBelow (n : Nat) : Nat :=
  let shift := n.log2 - 52
  shift * fractionCount + n / Nat.pow 2 shift

/-! ### Ranks and magnitudes -/

theorem log2_mul_pow {m k : Nat} (h : fractionCount ≤ m) (h' : m < 2 * fractionCount) :
    (m * Nat.pow 2 k).log2 = 52 + k := by
  rw [Nat.pow_eq]
  have hk : 0 < 2 ^ k := Nat.two_pow_pos k
  have h1 : m * 2 ^ k ≠ 0 := by
    have : 0 < m := Nat.lt_of_lt_of_le (by decide) h
    exact Nat.ne_of_gt (Nat.mul_pos this hk)
  rw [Nat.log2_eq_iff h1]
  constructor
  · rw [Nat.pow_add]; exact Nat.mul_le_mul_right _ h
  · rw [show 52 + k + 1 = 53 + k by omega, Nat.pow_add]
    exact Nat.mul_lt_mul_of_pos_right h' hk

/-- The magnitude of a rank has that rank. -/
theorem rankBelow_units (r : Nat) : rankBelow (units r) = r := by
  unfold units rankBelow
  have hd := Nat.div_add_mod r fractionCount
  have hm : r % fractionCount < fractionCount := Nat.mod_lt _ (by decide)
  dsimp only
  by_cases he : r / fractionCount = 0
  · rw [if_pos he]
    have hr : r < fractionCount := by rw [he] at hd; omega
    have hl : r.log2 - 52 = 0 := by
      by_cases h0 : r = 0
      · subst h0; decide
      · have : r.log2 < 52 := (Nat.log2_lt h0).2 hr
        omega
    simp [hl]
  · rw [if_neg he, log2_mul_pow (by omega) (by omega)]
    rw [show 52 + (r / fractionCount - 1) - 52 = r / fractionCount - 1 by omega, Nat.pow_eq,
      Nat.mul_div_cancel _ (Nat.two_pow_pos _)]
    obtain ⟨e, he'⟩ := Nat.exists_eq_succ_of_ne_zero he
    rw [he'] at hd ⊢
    rw [Nat.succ_sub_one]
    rw [Nat.mul_succ] at hd
    rw [Nat.mul_comm e]
    omega

/-- A greater rank has a greater magnitude. -/
theorem units_lt_units_succ (r : Nat) : units r < units (r + 1) := by
  unfold units
  dsimp only
  have hd := Nat.div_add_mod r fractionCount
  have hm : r % fractionCount < fractionCount := Nat.mod_lt _ (by decide)
  by_cases hs : r % fractionCount + 1 = fractionCount
  · have hr : r + 1 = fractionCount * (r / fractionCount + 1) := by rw [Nat.mul_add]; omega
    have hq : (r + 1) / fractionCount = r / fractionCount + 1 := by
      rw [hr, Nat.mul_div_cancel_left _ (by decide)]
    have hrem : (r + 1) % fractionCount = 0 := by rw [hr, Nat.mul_mod_right]
    rw [hq, hrem, if_neg (Nat.succ_ne_zero (r / fractionCount)), Nat.add_zero, Nat.add_sub_cancel]
    by_cases he : r / fractionCount = 0
    · rw [if_pos he, he]
      rw [he] at hd
      simp
      omega
    · rw [if_neg he]
      obtain ⟨e, he'⟩ := Nat.exists_eq_succ_of_ne_zero he
      rw [he', Nat.succ_sub_one, Nat.pow_eq, Nat.pow_eq, Nat.pow_succ, Nat.mul_comm (2 ^ e) 2,
        ← Nat.mul_assoc]
      exact Nat.mul_lt_mul_of_pos_right (by omega) (Nat.two_pow_pos e)
  · have hq : (r + 1) / fractionCount = r / fractionCount := by
      rw [Nat.div_eq_iff (by decide)]
      rw [Nat.mul_comm] at hd
      omega
    have hrem : (r + 1) % fractionCount = r % fractionCount + 1 := by
      have := Nat.div_add_mod (r + 1) fractionCount
      rw [hq] at this
      omega
    rw [hq, hrem]
    split
    · omega
    · exact Nat.mul_lt_mul_of_pos_right (by omega) (Nat.two_pow_pos _)

theorem units_pos {r : Nat} (h : r ≠ 0) : 0 < units r := by
  obtain ⟨r, rfl⟩ := Nat.exists_eq_succ_of_ne_zero h
  exact Nat.lt_of_le_of_lt (Nat.zero_le _) (units_lt_units_succ r)

/-! ### Numbers -/

/-- The number of a sign and a rank; beyond the finite ranks it is infinite. -/
def ofRank (negative : Bool) (rank : Nat) : Binary64 :=
  if h : rank < rankCount then .finite negative ⟨rank, h⟩ else .infinity negative

/-- Equality of numbers: nothing equals NaN, and the two zeros are equal. -/
def numEq : Binary64 → Binary64 → Bool
  | .infinity s, .infinity t => s == t
  | .finite s a, .finite t b => a == b && (s == t || a.val == 0)
  | _, _ => false

@[simp] theorem numEq_self (x : Binary64) : numEq x x = true ↔ x ≠ .nan := by
  cases x <;> simp [numEq]

/-- The 64 bits of a number, the sign being the highest. -/
def toBits : Binary64 → Nat
  | .nan => 0x7FF8000000000000
  | .infinity negative => (if negative then signBit else 0) + rankCount
  | .finite negative rank => (if negative then signBit else 0) + rank

/-- The number that 64 bits stand for. -/
def ofBits (bits : Nat) : Binary64 :=
  let negative := bits / signBit % 2 == 1
  let rank := bits % signBit
  if rank ≤ rankCount then ofRank negative rank else .nan

@[simp] theorem ofBits_toBits (x : Binary64) : ofBits x.toBits = x := by
  cases x with
  | nan => decide
  | infinity s => cases s <;> decide
  | finite s r =>
    have hr : r.val < 0x7FF0000000000000 := r.isLt
    have hlo : (0 + r.val) / signBit % 2 = 0 := by unfold signBit; omega
    have hhi : (signBit + r.val) / signBit % 2 = 1 := by unfold signBit; omega
    have hmlo : (0 + r.val) % signBit = r.val := by unfold signBit; omega
    have hmhi : (signBit + r.val) % signBit = r.val := by unfold signBit; omega
    have hle : r.val ≤ rankCount := Nat.le_of_lt r.isLt
    cases s
    · simp only [toBits, ofBits, Bool.false_eq_true, if_false, hlo, hmlo, hle, if_true, ofRank,
        r.isLt, dif_pos]
      rfl
    · simp only [toBits, ofBits, if_true, hhi, hmhi, hle, ofRank, r.isLt, dif_pos]
      rfl

end Binary64

end LispCore
