import Symtab.Text.Decimal

/-!
# Keys

A key is the label that a symbol table binds to a symbol: any signed 64-bit number but
one.  The number `-1` is reserved, so that an operation which hands out no key can say so
in the same type.

This file holds the reserved key, the step to the next key, and the text of a key.  The
step saturates: the greatest key is its own successor, so `k.succ` never falls below `k`.
`Key.parse?` reads the decimal texts of `Symtab.Text.Decimal` whose number is in range.
-/

set_option autoImplicit false

namespace Symtab

abbrev Key := Int64

namespace Key

/-- The reserved key: it never names a symbol. -/
def noSymbol : Key := -1

def greatest : Key := Int64.maxValue

def next? (key : Key) : Option Key :=
  if key = greatest then none else some (key + 1)

/-- The next key, or the key itself when it is the greatest. -/
def succ (key : Key) : Key :=
  key.next?.getD key

def ofPosition (position : Nat) : Key :=
  Int64.ofNat position

def render (key : Key) : String :=
  Text.Decimal.render key.toInt

/-- The key that a decimal text denotes: an optional sign, then digits, and a number that
    fits in 64 signed bits. -/
def parse? (text : String) : Option Key := do
  let number ← Text.Decimal.parse? text.toList
  if Int64.minValue.toInt ≤ number ∧ number ≤ Int64.maxValue.toInt then
    some (Int64.ofInt number)
  else
    none

end Key
end Symtab
