import Symtab.Text.Utf8

/-!
# Octets of texts

Encoding puts texts one behind the other and loses nothing, and decoding undoes it: octets are
decoded to a text exactly when they are what the text is encoded to, and refused when they are
what no text is encoded to.

An octet below 128 stands for the character of this number and is part of no other character
(`mem_encode_iff`), so octets can be cut at such characters before they are decoded.
-/

set_option autoImplicit false

namespace Symtab.Text.Utf8

variable {text : String} {octets : List UInt8}

theorem encode_append (front back : String) :
    encode (front ++ back) = encode front ++ encode back := by
  rw [encode, String.toByteArray_append, ByteArray.toList_data_append]
  rfl

theorem encode_inj {front back : String} (h : encode front = encode back) : front = back := by
  have hdecoded := decode?_encode front
  rw [h, decode?_encode] at hdecoded
  exact (Option.some.inj hdecoded).symm

theorem decode?_eq_some_iff : decode? octets = some text ↔ encode text = octets := by
  constructor
  · intro h
    unfold decode? String.fromUTF8? at h
    split at h
    next hvalid =>
      obtain rfl := Option.some.inj h
      rfl
    next => cases h
  · rintro rfl
    exact decode?_encode text

theorem decode?_eq_none_iff : decode? octets = none ↔ ∀ text, encode text ≠ octets := by
  rw [Option.eq_none_iff_forall_not_mem]
  exact forall_congr' fun text => not_congr decode?_eq_some_iff

theorem decode_eq_ok_iff : decode octets = .ok text ↔ encode text = octets := by
  rw [← decode?_eq_some_iff, decode]
  cases decode? octets with
  | none => simp
  | some found => simp

theorem decode_eq_error_iff {fault : Fault} :
    decode octets = .error fault ↔
      (∀ text, encode text ≠ octets) ∧ faultFrom 0 octets = fault := by
  rw [← decode?_eq_none_iff, decode]
  cases decode? octets with
  | none => simp
  | some found => simp

/-! ## Octets of one character -/

theorem encode_ofList (chars : List Char) :
    encode (String.ofList chars) = chars.flatMap String.utf8EncodeChar := by
  rw [encode, String.toByteArray_ofList, List.utf8Encode, List.toList_data_toByteArray]

theorem encode_eq_flatMap (text : String) :
    encode text = text.toList.flatMap String.utf8EncodeChar := by
  rw [← encode_ofList, String.ofList_toList]

theorem utf8EncodeChar_of_le {c : Char} (h : c.toNat ≤ 127) :
    String.utf8EncodeChar c = [UInt8.ofNat c.toNat] :=
  if_pos h

/-- All octets of a character of several octets have the highest bit set. -/
theorem le_of_mem_utf8EncodeChar {c : Char} (h : ¬c.toNat ≤ 127) {octet : UInt8}
    (hmem : octet ∈ String.utf8EncodeChar c) : 128 ≤ octet.toNat := by
  have hhigh : ∀ count low base : Nat, count + base ≤ 256 → 128 ≤ base → 0 < count →
      128 ≤ (UInt8.ofNat (low % count + base)).toNat := by
    intro count low base hle hbase hpos
    have hlow := Nat.mod_lt low hpos
    rw [UInt8.toNat_ofNat']
    omega
  have hnumber : ¬c.val.toNat ≤ 127 := h
  rw [String.utf8EncodeChar, if_neg hnumber] at hmem
  split at hmem
  · simp only [List.mem_cons, List.not_mem_nil, or_false] at hmem
    rcases hmem with rfl | rfl <;> exact hhigh _ _ _ (by decide) (by decide) (by decide)
  split at hmem
  · simp only [List.mem_cons, List.not_mem_nil, or_false] at hmem
    rcases hmem with rfl | rfl | rfl <;> exact hhigh _ _ _ (by decide) (by decide) (by decide)
  · simp only [List.mem_cons, List.not_mem_nil, or_false] at hmem
    rcases hmem with rfl | rfl | rfl | rfl <;>
      exact hhigh _ _ _ (by decide) (by decide) (by decide)

theorem mem_encode_iff {c : Char} (hc : c.toNat ≤ 127) :
    UInt8.ofNat c.toNat ∈ encode text ↔ c ∈ text.toList := by
  rw [encode_eq_flatMap, List.mem_flatMap]
  constructor
  · rintro ⟨other, hother, hmem⟩
    by_cases hle : other.toNat ≤ 127
    · rw [utf8EncodeChar_of_le hle, List.mem_singleton] at hmem
      have hnumber := congrArg UInt8.toNat hmem
      rw [UInt8.toNat_ofNat', UInt8.toNat_ofNat', Nat.mod_eq_of_lt (by omega),
        Nat.mod_eq_of_lt (by omega)] at hnumber
      rwa [Char.toNat_inj.mp hnumber]
    · have hhigh := le_of_mem_utf8EncodeChar hle hmem
      rw [UInt8.toNat_ofNat'] at hhigh
      omega
  · intro hmem
    refine ⟨c, hmem, ?_⟩
    rw [utf8EncodeChar_of_le hc]
    exact List.mem_singleton_self _

end Symtab.Text.Utf8
