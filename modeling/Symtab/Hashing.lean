/-!
# Hashing

An index spreads its symbols by a hash function, and nothing it answers depends on which:
`Symtab.Index` takes the function as a parameter.  This file holds the one to use when there
is no reason for another, and the worst ones, which put every symbol in one place.
-/

set_option autoImplicit false

namespace Symtab

/-- A function that spreads symbols over 64-bit words. -/
abbrev Hash := String → UInt64

namespace Hash

/-- Mixes one character into a hash: exclusive or, then a product with an odd number. -/
def mix (hash : UInt64) (c : Char) : UInt64 :=
  (hash ^^^ c.val.toUInt64) * 1099511628211

def mixed : Hash := fun symbol =>
  symbol.toList.foldl mix 14695981039346656037

def constant (word : UInt64) : Hash := fun _ => word

end Hash
end Symtab
