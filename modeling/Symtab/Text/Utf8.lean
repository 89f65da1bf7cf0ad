/-!
# UTF-8

Octets to text.  Whether octets are UTF-8 at all, and which text they hold, is core's
`String.fromUTF8?`.  What this file adds is where they stop being UTF-8: the number of
octets before the first ill-formed sequence, and how long that sequence is.

A well-formed sequence is a lead octet and the continuation octets it asks for, each in a
range of its own; the ranges after `E0`, `ED`, `F0` and `F4` are narrower than the others,
which shuts out overlong forms, surrogates and numbers past the last code point.  The
ill-formed sequence is the longest start of a well-formed one, or a single octet if there is
none.  It has no length when the octets end inside it.
-/

set_option autoImplicit false

namespace Symtab.Text.Utf8

/-- Where octets stop being UTF-8. -/
structure Fault where
  /-- How many octets before it are well formed. -/
  validUpTo : Nat
  /-- The length of the ill-formed sequence, unless the octets end inside it. -/
  badLength : Option Nat
deriving DecidableEq, Repr

/-- A range of octets, both ends included. -/
abbrev Range := UInt8 × UInt8

/-- The range of a continuation octet that has no narrower one. -/
def continuation : Range := (0x80, 0xBF)

/-- The ranges of the octets that follow a lead octet, if it is one. -/
def followers? (lead : UInt8) : Option (List Range) :=
  if lead < 0x80 then some []
  else if lead < 0xC2 then none
  else if lead < 0xE0 then some [continuation]
  else if lead = 0xE0 then some [(0xA0, 0xBF), continuation]
  else if lead = 0xED then some [(0x80, 0x9F), continuation]
  else if lead < 0xF0 then some [continuation, continuation]
  else if lead = 0xF0 then some [(0x90, 0xBF), continuation, continuation]
  else if lead < 0xF4 then some [continuation, continuation, continuation]
  else if lead = 0xF4 then some [(0x80, 0x8F), continuation, continuation]
  else none

/-- How the octets after a lead octet meet the ranges it asks for. -/
inductive Match where
  | whole
  | cut
  /-- An octet is out of its range, after so many that were in theirs. -/
  | broken (good : Nat)
deriving DecidableEq, Repr

def follow : List Range → List UInt8 → Nat → Match
  | [], _, _ => .whole
  | _ :: _, [], _ => .cut
  | (low, high) :: ranges, octet :: rest, good =>
    if low ≤ octet ∧ octet ≤ high then follow ranges rest (good + 1) else .broken good

/-- The first fault at or after a place, given the octets from there on.  Octets without a
    fault stop at their end. -/
def faultFrom (place : Nat) : List UInt8 → Fault
  | [] => ⟨place, none⟩
  | lead :: rest =>
    match followers? lead with
    | none => ⟨place, some 1⟩
    | some ranges =>
      match follow ranges rest 0 with
      | .whole => faultFrom (place + 1 + ranges.length) (rest.drop ranges.length)
      | .cut => ⟨place, none⟩
      | .broken good => ⟨place, some (1 + good)⟩
termination_by octets => octets.length
decreasing_by simp only [List.length_drop, List.length_cons]; omega

def encode (text : String) : List UInt8 :=
  text.toByteArray.data.toList

def decode? (octets : List UInt8) : Option String :=
  String.fromUTF8? ⟨octets.toArray⟩

/-- The text that octets hold, or where they stop being UTF-8. -/
def decode (octets : List UInt8) : Except Fault String :=
  match decode? octets with
  | some text => .ok text
  | none => .error (faultFrom 0 octets)

def Fault.message (fault : Fault) : String :=
  let place := toString fault.validUpTo
  match fault.badLength with
  | some n => s!"invalid utf-8 sequence of {n} bytes from index {place}"
  | none => s!"incomplete utf-8 byte sequence from index {place}"

/-! ## Encoding and decoding -/

theorem decode?_encode (text : String) : decode? (encode text) = some text := by
  have same : (⟨(encode text).toArray⟩ : ByteArray) = text.toByteArray := rfl
  rw [decode?, same, String.fromUTF8?, dif_pos text.isValidUTF8]
  rfl

theorem decode_encode (text : String) : decode (encode text) = .ok text := by
  simp [decode, decode?_encode]

end Symtab.Text.Utf8
