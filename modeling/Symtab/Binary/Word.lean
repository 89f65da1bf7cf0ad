/-!
# Numbers of fixed width

A number of the binary format is its octets, least significant first; a signed number is
written as the number that its two's complement stands for.

Main statements: `ofOctets_octets` and `octets_ofOctets`, by which lists of `width` octets
correspond to the numbers below `limit width`.
-/

set_option autoImplicit false

namespace Symtab.Binary.Word

/-- The octets, so many of them, of a number, least significant first. -/
def octets : Nat → Nat → List UInt8
  | 0, _ => []
  | width + 1, number => UInt8.ofNat (number % 256) :: octets width (number / 256)

def ofOctets : List UInt8 → Nat
  | [] => 0
  | octet :: rest => octet.toNat + 256 * ofOctets rest

/-- The least number that needs more than so many octets. -/
def limit : Nat → Nat
  | 0 => 1
  | width + 1 => 256 * limit width

def octets32 (number : Int32) : List UInt8 := octets 4 number.toUInt32.toNat

def octets64 (number : Int64) : List UInt8 := octets 8 number.toUInt64.toNat

def ofOctets32 (octets : List UInt8) : Int32 := (UInt32.ofNat (ofOctets octets)).toInt32

def ofOctets64 (octets : List UInt8) : Int64 := (UInt64.ofNat (ofOctets octets)).toInt64

/-! ## Correspondence -/

@[simp] theorem length_octets (width number : Nat) : (octets width number).length = width := by
  induction width generalizing number with
  | zero => rfl
  | succ width ih => simp [octets, ih]

theorem ofOctets_octets {width number : Nat} (h : number < limit width) :
    ofOctets (octets width number) = number := by
  induction width generalizing number with
  | zero =>
    rw [limit] at h
    rw [octets, ofOctets]
    omega
  | succ width ih =>
    rw [limit] at h
    have low : (UInt8.ofNat (number % 256)).toNat = number % 256 :=
      UInt8.toNat_ofNat_of_lt (Nat.mod_lt _ (by decide))
    rw [octets, ofOctets, low, ih (by omega)]
    omega

theorem octets_ofOctets (list : List UInt8) : octets list.length (ofOctets list) = list := by
  induction list with
  | nil => rfl
  | cons octet rest ih =>
    have hlow : (octet.toNat + 256 * ofOctets rest) % 256 = octet.toNat := by
      have := octet.toNat_lt
      omega
    have hhigh : (octet.toNat + 256 * ofOctets rest) / 256 = ofOctets rest := by
      have := octet.toNat_lt
      omega
    rw [List.length_cons, ofOctets, octets, hlow, hhigh, ih, UInt8.ofNat_toNat]

theorem ofOctets32_octets32 (number : Int32) : ofOctets32 (octets32 number) = number := by
  have h : number.toUInt32.toNat < limit 4 := number.toUInt32.toNat_lt
  rw [ofOctets32, octets32, ofOctets_octets h, UInt32.ofNat_toNat]
  rfl

theorem ofOctets64_octets64 (number : Int64) : ofOctets64 (octets64 number) = number := by
  have h : number.toUInt64.toNat < limit 8 := number.toUInt64.toNat_lt
  rw [ofOctets64, octets64, ofOctets_octets h, UInt64.ofNat_toNat]
  rfl

end Symtab.Binary.Word
