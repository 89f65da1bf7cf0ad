/-!
# Digests

A digest is 32 octets that stand for the content of a table.  Digests are compared octet by
octet from the front, and are shown as 64 lowercase hexadecimal digits.
-/

set_option autoImplicit false

namespace Symtab

/-- A digest of 256 bits. -/
structure Digest where
  octets : Vector UInt8 32
deriving DecidableEq, Repr

namespace Digest

def zero : Digest := ⟨Vector.replicate 32 0⟩

instance : Inhabited Digest := ⟨zero⟩

instance : Ord Digest where
  compare left right := compare left.octets.toList right.octets.toList

def ofList? (octets : List UInt8) : Option Digest :=
  if h : octets.length = 32 then some ⟨⟨octets.toArray, by simp [h]⟩⟩ else none

def hexPair (octet : UInt8) : List Char :=
  [Nat.digitChar (octet.toNat / 16), Nat.digitChar (octet.toNat % 16)]

def render (digest : Digest) : String :=
  String.ofList (digest.octets.toList.flatMap hexPair)

/-- The digits of a digest, with the name of what they are. -/
def describe (digest : Digest) : String :=
  s!"CheckSum({digest.render})"

end Digest
end Symtab
