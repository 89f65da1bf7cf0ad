import Symtab.Proofs.Binary.Encoding

/-!
# The language of the binary format

What the octets of a table are, and in which ways octets fail to be those of a table, said
without the reader.  A document is what octets say when they are read as the format lays them
out; it may repeat symbols, and a record that repeats one is passed over.  So of the records only
the first of each symbol is stored (`firsts`), and only their keys must differ.

The faults of a part of the format are relations between octets and an error.  Each fault has
everything before it in order, so that the fault of the octets is the first one in them.
`Symtab.Proofs.Binary.Parsing` shows that the readers of the parts fail with exactly these.
-/

set_option autoImplicit false

namespace Symtab.Binary

/-! ## Documents -/

/-- What octets in the binary format say. -/
structure Document where
  name : String
  available : Key
  records : List (String × Key)
deriving DecidableEq, Repr

/-- The records whose symbol is in no record before. -/
def firsts : List (String × Key) → List (String × Key)
  | [] => []
  | record :: rest => record :: (firsts rest).filter (·.1 ≠ record.1)

/-- A record may stand behind these: a symbol that is new there has a key that none of the
    records stored so far has. -/
structure Admissible (earlier : List (String × Key)) (record : String × Key) : Prop where
  fits : Fits record.1
  unreserved : record.2 ≠ Key.noSymbol
  free : record.1 ∉ earlier.map Prod.fst → record.2 ∉ (firsts earlier).map Prod.snd

/-- Each of these records may stand behind the earlier ones and those before it. -/
def Replayable (earlier records : List (String × Key)) : Prop :=
  ∀ front record back, records = front ++ record :: back → Admissible (earlier ++ front) record

namespace Document

/-- How a document is laid out. -/
def octets (document : Document) : List UInt8 :=
  Reader.headerOctets document.name document.available (Int64.ofNat document.records.length) ++
    document.records.flatMap bindingOctets

structure Valid (document : Document) : Prop where
  name : Fits document.name
  /-- The count is a signed number of 64 bits. -/
  count : document.records.length < 2 ^ 63
  records : Replayable [] document.records

end Document

/-! ## Faults -/

/-- What is wrong with octets that should start with a string. -/
inductive StringFault : List UInt8 → Error → Prop where
  | cutInLength {octets : List UInt8} (h : octets.length < 4) :
      StringFault octets (.stream .cutInNumber)
  | negativeLength {length : Int32} (h : length < 0) (rest : List UInt8) :
      StringFault (Word.octets32 length ++ rest) (.corrupt .stringLength length.toInt)
  | cutInText {length : Int32} {rest : List UInt8} (hlength : 0 ≤ length)
      (h : (rest.length : Int) < length.toInt) :
      StringFault (Word.octets32 length ++ rest) (.stream .cutInString)
  | notUtf8 {length : Int32} {front : List UInt8} (hlength : (front.length : Int) = length.toInt)
      (h : ∀ text, Text.Utf8.encode text ≠ front) (rest : List UInt8) :
      StringFault (Word.octets32 length ++ front ++ rest) (.utf8 (Text.Utf8.faultFrom 0 front))

/-- What is wrong with octets before the first record. -/
inductive HeaderFault : List UInt8 → Error → Prop where
  | cutInMagic {octets : List UInt8} (h : octets.length < 4) :
      HeaderFault octets (.stream .cutInNumber)
  | badMagic {found : Int32} (h : found ≠ magic) (rest : List UInt8) :
      HeaderFault (Word.octets32 found ++ rest) (.badMagic found)
  | name {rest : List UInt8} {error : Error} (h : StringFault rest error) :
      HeaderFault (Word.octets32 magic ++ rest) error
  | cutInAvailable {name : String} {rest : List UInt8} (hname : Fits name)
      (h : rest.length < 8) :
      HeaderFault (Word.octets32 magic ++ stringOctets name ++ rest) (.stream .cutInNumber)
  | cutInCount {name : String} {rest : List UInt8} (hname : Fits name) (available : Key)
      (h : rest.length < 8) :
      HeaderFault (Word.octets32 magic ++ stringOctets name ++ Word.octets64 available ++ rest)
        (.stream .cutInNumber)
  | negativeCount {name : String} {count : Int64} (hname : Fits name) (available : Key)
      (h : count < 0) (rest : List UInt8) :
      HeaderFault (Reader.headerOctets name available count ++ rest)
        (.corrupt .symbolCount count.toInt)

/-- What is wrong with octets that should start with a record. -/
inductive RecordFault : List UInt8 → Error → Prop where
  | symbol {octets : List UInt8} {error : Error} (h : StringFault octets error) :
      RecordFault octets error
  | cutInKey {symbol : String} {rest : List UInt8} (hsymbol : Fits symbol)
      (h : rest.length < 8) :
      RecordFault (stringOctets symbol ++ rest) (.stream .cutInNumber)
  | reserved {symbol : String} (hsymbol : Fits symbol) (rest : List UInt8) :
      RecordFault (bindingOctets (symbol, Key.noSymbol) ++ rest)
        (.corrupt .key Key.noSymbol.toInt)

/-- What is wrong with octets that should go on with a record behind earlier ones, in a table of
    this name. -/
inductive ReplayFault (name : String) (earlier : List (String × Key)) :
    List UInt8 → Error → Prop where
  | record {octets : List UInt8} {error : Error} (h : RecordFault octets error) :
      ReplayFault name earlier octets error
  | duplicate {symbol : String} {key : Key} (hfits : Fits symbol) (hkey : key ≠ Key.noSymbol)
      (hsymbol : symbol ∉ earlier.map Prod.fst) (h : key ∈ (firsts earlier).map Prod.snd)
      (rest : List UInt8) :
      ReplayFault name earlier (bindingOctets (symbol, key) ++ rest)
        (.duplicateKey name symbol key)

/-- **What is wrong with octets first.** -/
inductive Fault : List UInt8 → Error → Prop where
  | header {octets : List UInt8} {error : Error} (h : HeaderFault octets error) :
      Fault octets error
  | record {name : String} {available : Key} {count : Nat} {earlier : List (String × Key)}
      {rest : List UInt8} {error : Error} (hname : Fits name) (hcount : count < 2 ^ 63)
      (hearlier : Replayable [] earlier) (hmore : earlier.length < count)
      (h : ReplayFault name earlier rest error) :
      Fault (Reader.headerOctets name available (Int64.ofNat count) ++
        (earlier.flatMap bindingOctets ++ rest)) error

/-! ## The first records -/

variable {earlier records : List (String × Key)} {record : String × Key}

theorem mem_map_fst_firsts {symbol : String} :
    symbol ∈ (firsts records).map Prod.fst ↔ symbol ∈ records.map Prod.fst := by
  induction records with
  | nil => rfl
  | cons record rest ih =>
    rw [firsts, List.map_cons, List.map_cons, List.mem_cons, List.mem_cons, ← ih]
    by_cases h : symbol = record.1
    · exact iff_of_true (Or.inl h) (Or.inl h)
    · rw [or_iff_right h, or_iff_right h, List.mem_map, List.mem_map]
      refine exists_congr fun other => ?_
      rw [List.mem_filter]
      constructor
      · rintro ⟨⟨hmem, -⟩, heq⟩
        exact ⟨hmem, heq⟩
      · rintro ⟨hmem, rfl⟩
        exact ⟨⟨hmem, decide_eq_true h⟩, rfl⟩

theorem firsts_concat (records : List (String × Key)) (record : String × Key) :
    firsts (records ++ [record]) =
      if record.1 ∈ records.map Prod.fst then firsts records else firsts records ++ [record] := by
  induction records with
  | nil => rfl
  | cons first rest ih =>
    rw [List.cons_append, firsts, ih, firsts]
    by_cases hfirst : record.1 = first.1
    · have hmem : record.1 ∈ (first :: rest).map Prod.fst := by simp [hfirst]
      rw [if_pos hmem]
      split
      · rfl
      · simp [hfirst]
    · simp only [List.map_cons, List.mem_cons, hfirst, false_or]
      split
      · rfl
      · simp [hfirst]

theorem firsts_sublist (records : List (String × Key)) : (firsts records).Sublist records := by
  induction records with
  | nil => exact List.Sublist.refl []
  | cons record rest ih => exact (List.filter_sublist.trans ih).cons_cons record

/-- No symbol is stored twice. -/
theorem nodup_map_fst_firsts (records : List (String × Key)) :
    ((firsts records).map Prod.fst).Nodup := by
  induction records with
  | nil => exact List.nodup_nil
  | cons record rest ih =>
    rw [firsts, List.map_cons, List.nodup_cons]
    refine ⟨?_, ih.sublist (List.filter_sublist.map Prod.fst)⟩
    intro hmem
    obtain ⟨other, hother, heq⟩ := List.mem_map.mp hmem
    exact of_decide_eq_true (List.mem_filter.mp hother).2 heq

/-- A record is stored exactly if looking for its symbol from the front finds it. -/
theorem mem_firsts_iff :
    record ∈ firsts records ↔ records.find? (·.1 = record.1) = some record := by
  induction records with
  | nil => simp [firsts]
  | cons first rest ih =>
    rw [firsts, List.mem_cons, List.mem_filter, ih, List.find?_cons]
    by_cases h : first.1 = record.1
    · simp only [h, ne_eq, not_true_eq_false, decide_false, Bool.false_eq_true, and_false,
        or_false, decide_true, Option.some.injEq]
      exact eq_comm
    · have hne : record ≠ first := fun heq => h (heq ▸ rfl)
      simp [h, hne, Ne.symm h]

/-- Where no symbol repeats, every record is the first. -/
theorem firsts_eq_self (h : (records.map Prod.fst).Nodup) : firsts records = records := by
  induction records with
  | nil => rfl
  | cons record rest ih =>
    rw [List.map_cons, List.nodup_cons] at h
    rw [firsts, ih h.2, List.filter_eq_self.mpr]
    intro other hmem
    refine decide_eq_true ?_
    intro heq
    exact h.1 (heq ▸ List.mem_map_of_mem hmem)

theorem replayable_nil : Replayable earlier [] := by
  intro front record back h
  simp at h

theorem replayable_cons :
    Replayable earlier (record :: records) ↔
      Admissible earlier record ∧ Replayable (earlier ++ [record]) records := by
  constructor
  · intro h
    refine ⟨by simpa using h [] record records rfl, ?_⟩
    rintro front other back rfl
    simpa using h (record :: front) other back rfl
  · rintro ⟨hfirst, hrest⟩ front other back heq
    cases front with
    | nil =>
      obtain ⟨rfl, rfl⟩ := List.cons.inj heq
      simpa using hfirst
    | cons first front =>
      obtain ⟨rfl, rfl⟩ := List.cons.inj heq
      simpa using hrest front other back rfl

/-- Where no key repeats, no record is refused. -/
theorem replayable_of_nodup (hfits : ∀ record ∈ records, Fits record.1)
    (hkeys : (records.map Prod.snd).Nodup) (hreserved : Key.noSymbol ∉ records.map Prod.snd) :
    Replayable [] records := by
  rintro front record back rfl
  have hmem : record ∈ front ++ record :: back :=
    List.mem_append_right _ List.mem_cons_self
  refine ⟨hfits record hmem, ?_, ?_⟩
  · intro heq
    exact hreserved (heq ▸ List.mem_map_of_mem hmem)
  · intro _ hkey
    rw [List.map_append, List.map_cons] at hkeys
    have hfront := List.map_subset Prod.snd (firsts_sublist front).subset hkey
    exact (List.nodup_append.mp hkeys).2.2 record.2 hfront record.2 List.mem_cons_self rfl

instance (earlier : List (String × Key)) (record : String × Key) :
    Decidable (Admissible earlier record) :=
  decidable_of_iff (Fits record.1 ∧ record.2 ≠ Key.noSymbol ∧
      (record.1 ∉ earlier.map Prod.fst → record.2 ∉ (firsts earlier).map Prod.snd))
    ⟨fun h => ⟨h.1, h.2.1, h.2.2⟩, fun h => ⟨h.fits, h.unreserved, h.free⟩⟩

instance decidableReplayable : (earlier records : List (String × Key)) →
    Decidable (Replayable earlier records)
  | _, [] => isTrue replayable_nil
  | earlier, record :: records =>
    have := decidableReplayable (earlier ++ [record]) records
    decidable_of_iff _ replayable_cons.symm

end Symtab.Binary
