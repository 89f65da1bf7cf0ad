/-!
# Decimal numbers

The decimal text of an integer, and its reading.  Writing gives digits without leading
zeros, after a minus sign when the number is negative.  Reading is more liberal: it takes a
plus sign and any number of leading zeros, but no blank and no lone sign.

Main statement: `parse?_chars`, reading what was written gives the number back.  The reverse
does not hold, as `+7` and `007` both denote seven.
-/

set_option autoImplicit false

namespace Symtab.Text.Decimal

def chars : Int → List Char
  | .ofNat n => Nat.toDigits 10 n
  | .negSucc n => '-' :: Nat.toDigits 10 (n + 1)

def render (number : Int) : String :=
  String.ofList (chars number)

/-- The number that a non-empty run of digits denotes. -/
def ofDigits? (digits : List Char) : Option Nat :=
  if digits ≠ [] ∧ digits.all Char.isDigit then
    some (Nat.ofDigitChars 10 digits 0)
  else
    none

/-- The number that a text denotes: digits, with a sign in front or without one. -/
def parse? : List Char → Option Int
  | '-' :: digits => (ofDigits? digits).map fun n => -(n : Int)
  | '+' :: digits => (ofDigits? digits).map fun n => (n : Int)
  | digits => (ofDigits? digits).map fun n => (n : Int)

/-! ## Reading what was written -/

theorem ofDigits?_toDigits (n : Nat) : ofDigits? (Nat.toDigits 10 n) = some n := by
  have hall : (Nat.toDigits 10 n).all Char.isDigit = true :=
    List.all_eq_true.2 fun _ hc => Nat.isDigit_of_mem_toDigits (by decide) (by decide) hc
  have hne : Nat.toDigits 10 n ≠ [] := Nat.toDigits_ne_nil
  simp [ofDigits?, hall, hne, Nat.ofDigitChars_toDigits]

/-- A text that starts with a digit has no sign. -/
theorem parse?_of_isDigit {c : Char} {rest : List Char} (hc : c.isDigit = true) :
    parse? (c :: rest) = (ofDigits? (c :: rest)).map fun n => (n : Int) := by
  unfold parse?
  split
  · next h => cases h; exact absurd hc (by decide)
  · next h => cases h; exact absurd hc (by decide)
  · rfl

theorem parse?_chars (number : Int) : parse? (chars number) = some number := by
  cases number with
  | ofNat n =>
    cases hd : Nat.toDigits 10 n with
    | nil => exact absurd hd Nat.toDigits_ne_nil
    | cons c rest =>
      have hc : c.isDigit = true :=
        Nat.isDigit_of_mem_toDigits (b := 10) (n := n) (by decide) (by decide) (by simp [hd])
      rw [chars, hd, parse?_of_isDigit hc, ← hd, ofDigits?_toDigits]
      rfl
  | negSucc n =>
    rw [chars, parse?, ofDigits?_toDigits]
    rfl

end Symtab.Text.Decimal
