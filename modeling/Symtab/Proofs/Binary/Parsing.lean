import Symtab.Proofs.Binary.Grammar
import Symtab.Proofs.Text.Encoding

/-!
# What the readers read

Each reader of the binary format succeeds exactly on octets that start with what the format lays
out for its part, and fails exactly with the faults of the part.  A reader is a sequence of
smaller ones, and its faults are those of the first of them that fails (`bind_eq_error_iff`).

Main statements: `header_eq_ok_iff` and `header_eq_error_iff`, `record_eq_ok_iff` and
`record_eq_error_iff`.
-/

set_option autoImplicit false

namespace Symtab.Binary

/-! ## Words -/

namespace Word

theorem ofOctets_lt (list : List UInt8) : ofOctets list < limit list.length := by
  induction list with
  | nil => exact Nat.one_pos
  | cons octet rest ih =>
    have hoctet := octet.toNat_lt
    rw [ofOctets, List.length_cons, limit]
    omega

theorem octets32_ofOctets32 {list : List UInt8} (h : list.length = 4) :
    octets32 (ofOctets32 list) = list := by
  have hlt := ofOctets_lt list
  rw [h] at hlt
  show octets 4 (UInt32.ofNat (ofOctets list)).toNat = list
  rw [UInt32.toNat_ofNat_of_lt' hlt, ← h, octets_ofOctets]

theorem octets64_ofOctets64 {list : List UInt8} (h : list.length = 8) :
    octets64 (ofOctets64 list) = list := by
  have hlt := ofOctets_lt list
  rw [h] at hlt
  show octets 8 (UInt64.ofNat (ofOctets list)).toNat = list
  rw [UInt64.toNat_ofNat_of_lt' hlt, ← h, octets_ofOctets]

end Word

namespace Reader

variable {octets rest front : List UInt8} {text name symbol : String} {key available : Key}
  {error : Error} {fault : StreamFault} {count : Nat}

/-! ## Sequences of readers -/

theorem bind_eq_ok_iff {α β : Type} {first : Reader α} {after : α → Reader β} {answer : β} :
    (first >>= after) octets = .ok (answer, rest) ↔
      ∃ read between, first octets = .ok (read, between) ∧
        after read between = .ok (answer, rest) := by
  show (first octets >>= fun read => after read.1 read.2) = _ ↔ _
  cases first octets with
  | error error => simp [bind, Except.bind]
  | ok read =>
    obtain ⟨read, between⟩ := read
    simp [bind, Except.bind]

theorem bind_eq_error_iff {α β : Type} {first : Reader α} {after : α → Reader β} :
    (first >>= after) octets = .error error ↔
      first octets = .error error ∨
        ∃ read between, first octets = .ok (read, between) ∧ after read between = .error error := by
  show (first octets >>= fun read => after read.1 read.2) = _ ↔ _
  cases first octets with
  | error error => simp [bind, Except.bind]
  | ok read =>
    obtain ⟨read, between⟩ := read
    simp [bind, Except.bind]

theorem bind_eq_error_of_first {α β : Type} {first : Reader α} {after : α → Reader β}
    (h : first octets = .error error) : (first >>= after) octets = .error error :=
  bind_eq_error_iff.mpr (Or.inl h)

theorem bind_eq_error_of_after {α β : Type} {first : Reader α} {after : α → Reader β} {read : α}
    (hfirst : first octets = .ok (read, rest)) (h : after read rest = .error error) :
    (first >>= after) octets = .error error :=
  bind_eq_error_iff.mpr (Or.inr ⟨read, rest, hfirst, h⟩)

theorem refuse_eq_ok_iff {α : Type} {P : Prop} [Decidable P] {next : Reader α} {answer : α} :
    (if P then throw error else next) octets = .ok (answer, rest) ↔
      ¬P ∧ next octets = .ok (answer, rest) := by
  by_cases h : P
  · rw [if_pos h]
    exact iff_of_false (fun hthrow => by cases hthrow) fun hboth => hboth.1 h
  · rw [if_neg h]
    exact (and_iff_right h).symm

theorem refuse_eq_error_iff {α : Type} {P : Prop} [Decidable P] {next : Reader α}
    {other : Error} :
    (if P then throw error else next) octets = .error other ↔
      P ∧ other = error ∨ ¬P ∧ next octets = .error other := by
  by_cases h : P
  · rw [if_pos h]
    constructor
    · intro hthrow
      exact Or.inl ⟨h, (Except.error.inj hthrow).symm⟩
    · rintro (⟨-, rfl⟩ | ⟨hnot, -⟩)
      · rfl
      · exact absurd h hnot
  · rw [if_neg h]
    simp [h]

theorem refuse_eq_error {α : Type} {P : Prop} [Decidable P] {next : Reader α} (h : P) :
    (if P then throw error else next) octets = .error error :=
  refuse_eq_error_iff.mpr (Or.inl ⟨h, rfl⟩)

theorem refuse_eq_error_of_not {α : Type} {P : Prop} [Decidable P] {next : Reader α}
    {other : Error} (h : ¬P) (hnext : next octets = .error other) :
    (if P then throw error else next) octets = .error other :=
  refuse_eq_error_iff.mpr (Or.inr ⟨h, hnext⟩)

/-! ## Numbers -/

theorem take_eq (count : Nat) (fault : StreamFault) (octets : List UInt8) :
    take count fault octets =
      if octets.length < count then .error (.stream fault)
      else .ok (octets.take count, octets.drop count) := by
  have hiff : (octets.take count).length < count ↔ octets.length < count := by
    rw [List.length_take]
    omega
  simp only [take, hiff]

theorem take_eq_ok_iff :
    take count fault octets = .ok (front, rest) ↔
      front.length = count ∧ octets = front ++ rest := by
  constructor
  · intro h
    rw [take_eq] at h
    split at h
    · cases h
    next hlength =>
      obtain ⟨rfl, rfl⟩ := Prod.mk.inj (Except.ok.inj h)
      exact ⟨List.length_take_of_le (Nat.le_of_not_lt hlength),
        (List.take_append_drop count octets).symm⟩
  · rintro ⟨hlength, rfl⟩
    exact take_append hlength rest fault

theorem take_eq_error_iff :
    take count fault octets = .error error ↔ octets.length < count ∧ error = .stream fault := by
  rw [take_eq]
  split
  next h => simp [h, eq_comm]
  next h => simp [h]

/-- What a reader of numbers reads. -/
theorem take_pure_eq_ok_iff {α : Type} {decode : List UInt8 → α} {answer : α} :
    (take count fault >>= fun front => pure (decode front)) octets = .ok (answer, rest) ↔
      ∃ front, front.length = count ∧ decode front = answer ∧ octets = front ++ rest := by
  rw [bind_eq_ok_iff]
  constructor
  · rintro ⟨front, between, htake, hpure⟩
    obtain ⟨hlength, rfl⟩ := take_eq_ok_iff.mp htake
    obtain ⟨hdecode, rfl⟩ := Prod.mk.inj (Except.ok.inj hpure)
    exact ⟨front, hlength, hdecode, rfl⟩
  · rintro ⟨front, hlength, rfl, rfl⟩
    exact ⟨front, rest, take_eq_ok_iff.mpr ⟨hlength, rfl⟩, rfl⟩

theorem take_pure_eq_error_iff {α : Type} {decode : List UInt8 → α} :
    (take count fault >>= fun front => pure (decode front)) octets = .error error ↔
      octets.length < count ∧ error = .stream fault := by
  rw [bind_eq_error_iff, take_eq_error_iff, or_iff_left]
  rintro ⟨front, between, -, hpure⟩
  cases hpure

theorem int32_eq_ok_iff {number : Int32} :
    int32 octets = .ok (number, rest) ↔ octets = Word.octets32 number ++ rest := by
  constructor
  · intro h
    obtain ⟨front, hlength, rfl, rfl⟩ := take_pure_eq_ok_iff.mp h
    rw [Word.octets32_ofOctets32 hlength]
  · rintro rfl
    exact int32_octets32 number rest

theorem int64_eq_ok_iff {number : Int64} :
    int64 octets = .ok (number, rest) ↔ octets = Word.octets64 number ++ rest := by
  constructor
  · intro h
    obtain ⟨front, hlength, rfl, rfl⟩ := take_pure_eq_ok_iff.mp h
    rw [Word.octets64_ofOctets64 hlength]
  · rintro rfl
    exact int64_octets64 number rest

theorem int32_eq_error_iff :
    int32 octets = .error error ↔ octets.length < 4 ∧ error = .stream .cutInNumber :=
  take_pure_eq_error_iff

theorem int64_eq_error_iff :
    int64 octets = .error error ↔ octets.length < 8 ∧ error = .stream .cutInNumber :=
  take_pure_eq_error_iff

/-! ## Strings -/

/-- What is answered for the octets of a string. -/
def decoded (front : List UInt8) : Reader String :=
  match Text.Utf8.decode front with
  | .ok text => pure text
  | .error fault => throw (.utf8 fault)

theorem decoded_eq_ok_iff :
    decoded front octets = .ok (text, rest) ↔ Text.Utf8.encode text = front ∧ octets = rest := by
  rw [← Text.Utf8.decode_eq_ok_iff, decoded]
  cases Text.Utf8.decode front with
  | ok found =>
    show Except.ok (found, octets) = _ ↔ _
    simp
  | error fault =>
    show Except.error (Error.utf8 fault) = _ ↔ _
    simp

theorem decoded_eq_error_iff :
    decoded front octets = .error error ↔
      (∀ text, Text.Utf8.encode text ≠ front) ∧ error = .utf8 (Text.Utf8.faultFrom 0 front) := by
  cases hfront : Text.Utf8.decode front with
  | ok found =>
    have hencode := Text.Utf8.decode_eq_ok_iff.mp hfront
    rw [decoded, hfront]
    exact iff_of_false (fun h => by cases h) fun hboth => hboth.1 found hencode
  | error fault =>
    obtain ⟨hnone, rfl⟩ := Text.Utf8.decode_eq_error_iff.mp hfront
    rw [decoded, hfront, and_iff_right hnone]
    show Except.error _ = Except.error error ↔ _
    rw [Except.error.injEq, eq_comm]

theorem string_eq : string = int32 >>= fun length =>
    if length < 0 then throw (.corrupt .stringLength length.toInt)
    else take length.toInt.toNat .cutInString >>= decoded := rfl

theorem string_eq_ok_iff :
    string octets = .ok (text, rest) ↔ Fits text ∧ octets = stringOctets text ++ rest := by
  constructor
  · intro h
    rw [string_eq, bind_eq_ok_iff] at h
    obtain ⟨length, behind, hlength, h⟩ := h
    obtain rfl := int32_eq_ok_iff.mp hlength
    rw [refuse_eq_ok_iff, bind_eq_ok_iff] at h
    obtain ⟨hnonneg, front, between, htake, hdecoded⟩ := h
    obtain ⟨rfl, rfl⟩ := decoded_eq_ok_iff.mp hdecoded
    obtain ⟨hfront, rfl⟩ := take_eq_ok_iff.mp htake
    have hwritten : Int32.ofNat (Text.Utf8.encode text).length = length := by
      rw [hfront]
      exact Int32.ofNat_toNatClampNeg length (Int32.not_lt.mp hnonneg)
    have hfits : Fits text := by
      have hlt := Int32.toInt_lt length
      show _ ≤ 2147483647
      omega
    rw [stringOctets, hwritten, List.append_assoc]
    exact ⟨hfits, rfl⟩
  · rintro ⟨hfits, rfl⟩
    exact string_stringOctets hfits rest

/-- **A string cannot be read** exactly when it has a fault. -/
theorem string_eq_error_iff : string octets = .error error ↔ StringFault octets error := by
  rw [string_eq]
  constructor
  · intro h
    rw [bind_eq_error_iff] at h
    obtain hlength | ⟨length, behind, hlength, h⟩ := h
    · obtain ⟨hcut, rfl⟩ := int32_eq_error_iff.mp hlength
      exact .cutInLength hcut
    obtain rfl := int32_eq_ok_iff.mp hlength
    rw [refuse_eq_error_iff, bind_eq_error_iff] at h
    obtain ⟨hneg, rfl⟩ | ⟨hnonneg, htake | ⟨front, between, htake, hdecoded⟩⟩ := h
    · exact .negativeLength hneg behind
    · obtain ⟨hcut, rfl⟩ := take_eq_error_iff.mp htake
      exact .cutInText (Int32.not_lt.mp hnonneg) (by omega)
    · obtain ⟨hfront, rfl⟩ := take_eq_ok_iff.mp htake
      obtain ⟨hnone, rfl⟩ := decoded_eq_error_iff.mp hdecoded
      have hnonneg' := Int32.le_iff_toInt_le.mp (Int32.not_lt.mp hnonneg)
      rw [Int32.toInt_zero] at hnonneg'
      rw [← List.append_assoc]
      exact .notUtf8 (by omega) hnone between
  · intro h
    cases h with
    | cutInLength h => exact bind_eq_error_of_first (int32_eq_error_iff.mpr ⟨h, rfl⟩)
    | negativeLength h behind =>
      exact bind_eq_error_of_after (int32_octets32 ..) (refuse_eq_error h)
    | cutInText hnonneg h =>
      refine bind_eq_error_of_after (int32_octets32 ..) ?_
      refine refuse_eq_error_of_not (Int32.not_lt.mpr hnonneg) (bind_eq_error_of_first ?_)
      exact take_eq_error_iff.mpr ⟨by omega, rfl⟩
    | @notUtf8 length front hlength hnone behind =>
      have hnonneg : 0 ≤ length := by
        rw [Int32.le_iff_toInt_le, Int32.toInt_zero]
        omega
      rw [List.append_assoc]
      refine bind_eq_error_of_after (int32_octets32 ..) ?_
      refine refuse_eq_error_of_not (Int32.not_lt.mpr hnonneg) ?_
      refine bind_eq_error_of_after (take_append (by omega) behind _) ?_
      exact decoded_eq_error_iff.mpr ⟨hnone, rfl⟩

/-! ## Records -/

theorem record_eq : record = string >>= fun symbol => int64 >>= fun key =>
    if key = Key.noSymbol then throw (.corrupt .key key.toInt) else pure (symbol, key) := rfl

theorem record_eq_ok_iff {binding : String × Key} :
    record octets = .ok (binding, rest) ↔
      Fits binding.1 ∧ binding.2 ≠ Key.noSymbol ∧ octets = bindingOctets binding ++ rest := by
  constructor
  · intro h
    rw [record_eq, bind_eq_ok_iff] at h
    obtain ⟨symbol, between, hsymbol, h⟩ := h
    rw [bind_eq_ok_iff] at h
    obtain ⟨key, behind, hkey, h⟩ := h
    obtain ⟨hfits, rfl⟩ := string_eq_ok_iff.mp hsymbol
    obtain rfl := int64_eq_ok_iff.mp hkey
    obtain ⟨hreserved, hpure⟩ := refuse_eq_ok_iff.mp h
    obtain ⟨rfl, rfl⟩ := Prod.mk.inj (Except.ok.inj hpure)
    exact ⟨hfits, hreserved, (List.append_assoc ..).symm⟩
  · rintro ⟨hfits, hreserved, rfl⟩
    exact record_bindingOctets hfits hreserved rest

/-- **A record cannot be read** exactly when it has a fault. -/
theorem record_eq_error_iff : record octets = .error error ↔ RecordFault octets error := by
  rw [record_eq]
  constructor
  · intro h
    rw [bind_eq_error_iff] at h
    obtain hsymbol | ⟨symbol, between, hsymbol, h⟩ := h
    · exact .symbol (string_eq_error_iff.mp hsymbol)
    obtain ⟨hfits, rfl⟩ := string_eq_ok_iff.mp hsymbol
    rw [bind_eq_error_iff] at h
    obtain hkey | ⟨key, behind, hkey, h⟩ := h
    · obtain ⟨hcut, rfl⟩ := int64_eq_error_iff.mp hkey
      exact .cutInKey hfits hcut
    obtain rfl := int64_eq_ok_iff.mp hkey
    obtain ⟨rfl, rfl⟩ | ⟨-, hpure⟩ := refuse_eq_error_iff.mp h
    · rw [← List.append_assoc]
      exact .reserved hfits behind
    · cases hpure
  · intro h
    cases h with
    | symbol h => exact bind_eq_error_of_first (string_eq_error_iff.mpr h)
    | cutInKey hfits h =>
      refine bind_eq_error_of_after (string_stringOctets hfits _) (bind_eq_error_of_first ?_)
      exact int64_eq_error_iff.mpr ⟨h, rfl⟩
    | reserved hfits behind =>
      rw [bindingOctets, List.append_assoc]
      refine bind_eq_error_of_after (string_stringOctets hfits _) ?_
      exact bind_eq_error_of_after (int64_octets64 ..) (refuse_eq_error rfl)

/-! ## Headers -/

theorem header_eq : header = int32 >>= fun found =>
    if found ≠ magic then throw (.badMagic found)
    else string >>= fun name => int64 >>= fun available => int64 >>= fun count =>
      if count < 0 then throw (.corrupt .symbolCount count.toInt)
      else pure { name, available, count := count.toInt.toNat } := rfl

theorem header_eq_ok_iff {head : Header} :
    header octets = .ok (head, rest) ↔
      Fits head.name ∧ head.count < 2 ^ 63 ∧
        octets = headerOctets head.name head.available (Int64.ofNat head.count) ++ rest := by
  constructor
  · intro h
    rw [header_eq, bind_eq_ok_iff] at h
    obtain ⟨found, behind, hfound, h⟩ := h
    obtain rfl := int32_eq_ok_iff.mp hfound
    rw [refuse_eq_ok_iff, not_not, bind_eq_ok_iff] at h
    obtain ⟨rfl, name, between, hname, h⟩ := h
    obtain ⟨hfits, rfl⟩ := string_eq_ok_iff.mp hname
    rw [bind_eq_ok_iff] at h
    obtain ⟨available, after, havailable, h⟩ := h
    obtain rfl := int64_eq_ok_iff.mp havailable
    rw [bind_eq_ok_iff] at h
    obtain ⟨count, records, hcount, h⟩ := h
    obtain rfl := int64_eq_ok_iff.mp hcount
    obtain ⟨hnonneg, hpure⟩ := refuse_eq_ok_iff.mp h
    obtain ⟨rfl, rfl⟩ := Prod.mk.inj (Except.ok.inj hpure)
    have hwritten : Int64.ofNat count.toInt.toNat = count :=
      Int64.ofNat_toNatClampNeg count (Int64.not_lt.mp hnonneg)
    refine ⟨hfits, ?_, ?_⟩
    · have hlt := Int64.toInt_lt count
      show count.toInt.toNat < _
      omega
    · simp only [hwritten, headerOctets, List.append_assoc]
  · rintro ⟨hfits, hcount, rfl⟩
    exact header_headerOctets hfits head.available hcount rest

/-- **A header cannot be read** exactly when it has a fault. -/
theorem header_eq_error_iff : header octets = .error error ↔ HeaderFault octets error := by
  rw [header_eq]
  constructor
  · intro h
    -- part by part: the first that fails is the fault, and the ones before it were read
    rw [bind_eq_error_iff] at h
    obtain hfound | ⟨found, behind, hfound, h⟩ := h
    · obtain ⟨hcut, rfl⟩ := int32_eq_error_iff.mp hfound
      exact .cutInMagic hcut
    obtain rfl := int32_eq_ok_iff.mp hfound
    rw [refuse_eq_error_iff, not_not, bind_eq_error_iff] at h
    obtain ⟨hbad, rfl⟩ | ⟨rfl, hname | ⟨name, between, hname, h⟩⟩ := h
    · exact .badMagic hbad behind
    · exact .name (string_eq_error_iff.mp hname)
    obtain ⟨hfits, rfl⟩ := string_eq_ok_iff.mp hname
    rw [bind_eq_error_iff] at h
    obtain havailable | ⟨available, after, havailable, h⟩ := h
    · obtain ⟨hcut, rfl⟩ := int64_eq_error_iff.mp havailable
      rw [← List.append_assoc]
      exact .cutInAvailable hfits hcut
    obtain rfl := int64_eq_ok_iff.mp havailable
    rw [bind_eq_error_iff] at h
    obtain hcount | ⟨count, records, hcount, h⟩ := h
    · obtain ⟨hcut, rfl⟩ := int64_eq_error_iff.mp hcount
      rw [← List.append_assoc, ← List.append_assoc]
      exact .cutInCount hfits available hcut
    obtain rfl := int64_eq_ok_iff.mp hcount
    obtain ⟨hneg, rfl⟩ | ⟨-, hpure⟩ := refuse_eq_error_iff.mp h
    · rw [← List.append_assoc, ← List.append_assoc, ← List.append_assoc]
      exact .negativeCount hfits available hneg records
    · cases hpure
  · intro h
    have hmagic : ¬magic ≠ magic := not_not.mpr rfl
    cases h with
    | cutInMagic h => exact bind_eq_error_of_first (int32_eq_error_iff.mpr ⟨h, rfl⟩)
    | badMagic h behind => exact bind_eq_error_of_after (int32_octets32 ..) (refuse_eq_error h)
    | name h =>
      refine bind_eq_error_of_after (int32_octets32 ..) (refuse_eq_error_of_not hmagic ?_)
      exact bind_eq_error_of_first (string_eq_error_iff.mpr h)
    | cutInAvailable hfits h =>
      rw [List.append_assoc]
      refine bind_eq_error_of_after (int32_octets32 ..) (refuse_eq_error_of_not hmagic ?_)
      refine bind_eq_error_of_after (string_stringOctets hfits _) (bind_eq_error_of_first ?_)
      exact int64_eq_error_iff.mpr ⟨h, rfl⟩
    | cutInCount hfits available h =>
      rw [List.append_assoc, List.append_assoc]
      refine bind_eq_error_of_after (int32_octets32 ..) (refuse_eq_error_of_not hmagic ?_)
      refine bind_eq_error_of_after (string_stringOctets hfits _) ?_
      refine bind_eq_error_of_after (int64_octets64 ..) (bind_eq_error_of_first ?_)
      exact int64_eq_error_iff.mpr ⟨h, rfl⟩
    | negativeCount hfits available h behind =>
      rw [headerOctets, List.append_assoc, List.append_assoc, List.append_assoc]
      refine bind_eq_error_of_after (int32_octets32 ..) (refuse_eq_error_of_not hmagic ?_)
      refine bind_eq_error_of_after (string_stringOctets hfits _) ?_
      refine bind_eq_error_of_after (int64_octets64 ..) ?_
      exact bind_eq_error_of_after (int64_octets64 ..) (refuse_eq_error h)

end Reader
end Symtab.Binary
