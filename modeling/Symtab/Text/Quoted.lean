import Symtab.Text.Unprintable

/-!
# Quoted text

How names and symbols appear inside messages: between double quotes, with the quote, the
backslash and the common control characters behind a backslash, and every other
unprintable character as its code point in lowercase hexadecimal between braces.  A single
quote stands for itself.  One character never depends on its neighbours: `quote` is
`escape` on each character.
-/

set_option autoImplicit false

namespace Symtab.Text.Quoted

/-- A character spelled by number, without leading zeros. -/
def byNumber (c : Char) : List Char :=
  ['\\', 'u', '\x7b'] ++ Nat.toDigits 16 c.toNat ++ ['\x7d']

def escape (c : Char) : List Char :=
  if c = '"' then ['\\', '"']
  else if c = '\\' then ['\\', '\\']
  else if c = '\n' then ['\\', 'n']
  else if c = '\r' then ['\\', 'r']
  else if c = '\t' then ['\\', 't']
  else if c = '\x00' then ['\\', '0']
  else if Unprintable.holds c then byNumber c
  else [c]

def quote (text : String) : String :=
  String.ofList ('"' :: text.toList.flatMap escape ++ ['"'])

end Symtab.Text.Quoted
