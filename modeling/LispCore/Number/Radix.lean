/-!
Integers written in a radix: an optional sign and one or more ASCII digits.
`Radix.value_append_singleton` is the positional rule. `intText` is the way integers are printed, in
decimal with a minus sign where one is needed; `readInt?_intText` says that it reads back.
-/

namespace LispCore

/-- The radixes an integer can be written in. -/
inductive Radix where
  | binary
  | octal
  | decimal
  | hexadecimal
deriving DecidableEq, Repr

namespace Radix

/-- The number that the digit ten would stand for. -/
def base : Radix → Nat
  | binary => 2
  | octal => 8
  | decimal => 10
  | hexadecimal => 16

/-- Whether a character is a digit of the radix; a letter digit may have either case. -/
def isDigit (r : Radix) (c : Char) : Bool :=
  match r with
  | binary => c == '0' || c == '1'
  | octal => '0' ≤ c && c ≤ '7'
  | decimal => c.isDigit
  | hexadecimal => c.isDigit || ('a' ≤ c && c ≤ 'f') || ('A' ≤ c && c ≤ 'F')

/-- The number an ASCII digit stands for, letters counting from ten. -/
def digitValue (c : Char) : Nat :=
  let n := c.toNat
  if n < 0x3A then n - 0x30 else if n < 0x47 then n - 0x37 else n - 0x57

/-- The number that a sequence of digits stands for. -/
def value (r : Radix) (ds : List Char) : Nat :=
  ds.foldl (fun n c => r.base * n + digitValue c) 0

/-- Whether a text is one or more digits of the radix. -/
def isNatural (r : Radix) (cs : List Char) : Bool := !cs.isEmpty && cs.all r.isDigit

/-- Reads one or more digits of the radix. -/
def readNat? (r : Radix) (cs : List Char) : Option Nat :=
  if r.isNatural cs then some (r.value cs) else none

/-- Reads an optional sign and digits of the radix. -/
def readInt? (r : Radix) (cs : List Char) : Option Int :=
  match cs with
  | '-' :: ds => (r.readNat? ds).map fun n => -(n : Int)
  | '+' :: ds => (r.readNat? ds).map Int.ofNat
  | ds => (r.readNat? ds).map Int.ofNat

/-! ### The decimal digits of a number -/

theorem value_append_singleton (r : Radix) (ds : List Char) (c : Char) :
    r.value (ds ++ [c]) = r.base * r.value ds + digitValue c := by
  simp [value]

theorem isDigit_of_mem_toDigits {n : Nat} {c : Char} (h : c ∈ Nat.toDigits 10 n) :
    decimal.isDigit c = true :=
  Nat.isDigit_of_mem_toDigits (by decide) (by decide) h

theorem digitValue_of_isDigit {c : Char} (h : c.isDigit = true) :
    digitValue c = c.toNat - '0'.toNat := by
  have hc : c.toNat ≤ 0x39 := by
    simp only [Char.isDigit, Bool.and_eq_true, decide_eq_true_eq] at h
    exact h.2
  simp only [digitValue, if_pos (Nat.lt_succ_of_le hc)]
  rfl

theorem value_toDigits (n : Nat) : decimal.value (Nat.toDigits 10 n) = n := by
  have hfold (ds : List Char) (k : Nat) (h : ∀ c ∈ ds, c.isDigit = true) :
      ds.foldl (fun n c => 10 * n + digitValue c) k = Nat.ofDigitChars 10 ds k := by
    induction ds generalizing k with
    | nil => rfl
    | cons c ds ih =>
      rw [List.foldl_cons, Nat.ofDigitChars_cons, digitValue_of_isDigit (h c List.mem_cons_self)]
      exact ih _ fun d hd => h d (List.mem_cons_of_mem _ hd)
  exact (hfold _ 0 fun c hc => isDigit_of_mem_toDigits hc).trans Nat.ofDigitChars_ten_toDigits

theorem readNat?_toDigits (n : Nat) : decimal.readNat? (Nat.toDigits 10 n) = some n := by
  have h : (Nat.toDigits 10 n).all decimal.isDigit = true :=
    List.all_eq_true.2 fun c hc => isDigit_of_mem_toDigits hc
  simp [readNat?, isNatural, h, value_toDigits, Nat.toDigits_ne_nil]

end Radix

/-! ### Printed integers -/

/-- The decimal text of an integer. -/
def intText : Int → List Char
  | .ofNat n => Nat.toDigits 10 n
  | .negSucc n => '-' :: Nat.toDigits 10 (n + 1)

/-- The printed text of an integer is read as that integer. -/
theorem readInt?_intText (n : Int) : Radix.decimal.readInt? (intText n) = some n := by
  cases n with
  | ofNat n =>
    have hdigit := fun c (hc : c ∈ Nat.toDigits 10 n) => Radix.isDigit_of_mem_toDigits hc
    have hread := Radix.readNat?_toDigits n
    rw [intText]
    cases h : Nat.toDigits 10 n with
    | nil => exact absurd h Nat.toDigits_ne_nil
    | cons c ds =>
      have hc := hdigit c (h ▸ List.mem_cons_self)
      have hminus : c ≠ '-' := fun hm => by subst hm; exact absurd hc (by decide)
      have hplus : c ≠ '+' := fun hm => by subst hm; exact absurd hc (by decide)
      rw [← h]
      unfold Radix.readInt?
      split
      · next hm => exact absurd (List.cons.inj (h.symm.trans hm)).1 hminus
      · next hm => exact absurd (List.cons.inj (h.symm.trans hm)).1 hplus
      · rw [hread]; rfl
  | negSucc n => simp [intText, Radix.readInt?, Radix.readNat?_toDigits, Int.negSucc_eq]

end LispCore
