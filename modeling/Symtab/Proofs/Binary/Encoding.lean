import Symtab.Proofs.Binary.Soundness
import Symtab.Proofs.Output

/-!
# What the binary format writes

`Ledger.octets` lays a list of bindings out as the binary format does, with no regard to how a
table is stored.  Main statements: `Sound.toBytes_eq_ok_iff`, a sound table is written as its
ledger if all strings fit, and not at all otherwise; and the lemmas by which each reader takes
back what was laid out for it, whatever stands behind.
-/

set_option autoImplicit false

namespace Symtab

namespace Binary

open Output (Step Completes)

variable {text symbol : String} {key : Key} {rest : List UInt8}

/-! ## Layout -/

/-- A string is short enough for the format. -/
def Fits (text : String) : Prop := (Text.Utf8.encode text).length ≤ maxStringLength

instance (text : String) : Decidable (Fits text) := inferInstanceAs (Decidable (_ ≤ _))

def stringOctets (text : String) : List UInt8 :=
  Word.octets32 (Int32.ofNat (Text.Utf8.encode text).length) ++ Text.Utf8.encode text

def bindingOctets (binding : String × Key) : List UInt8 :=
  stringOctets binding.1 ++ Word.octets64 binding.2

theorem stringSteps_of_fits (h : Fits text) :
    stringSteps text = [.put (Word.octets32 (Int32.ofNat (Text.Utf8.encode text).length)),
      .put (Text.Utf8.encode text)] :=
  if_pos h

theorem stringSteps_of_not_fits (h : ¬Fits text) :
    stringSteps text = [.fail (.corrupt .stringLength (Text.Utf8.encode text).length)] :=
  if_neg h

theorem completes_stringSteps : Completes (stringSteps text) ↔ Fits text := by
  by_cases h : Fits text
  · simp [stringSteps_of_fits h, h]
  · simp [stringSteps_of_not_fits h, h]

theorem octets_stringSteps (h : Fits text) :
    (stringSteps text).flatMap Step.octets = stringOctets text := by
  simp [stringSteps_of_fits h, Step.octets, stringOctets]

def bindingSteps (binding : String × Key) : List Step :=
  stringSteps binding.1 ++ [.put (Word.octets64 binding.2)]

theorem completes_bindingSteps {binding : String × Key} :
    Completes (bindingSteps binding) ↔ Fits binding.1 := by
  simp [bindingSteps, completes_stringSteps]

theorem octets_bindingSteps {binding : String × Key} (h : Fits binding.1) :
    (bindingSteps binding).flatMap Step.octets = bindingOctets binding := by
  rw [bindingSteps, List.flatMap_append, octets_stringSteps h, bindingOctets,
    List.flatMap_singleton]
  rfl

/-! ## Reading back -/

namespace Reader

theorem bind_of_ok {α β : Type} {first : Reader α} {after : α → Reader β}
    {octets rest : List UInt8} {answer : α} (h : first octets = .ok (answer, rest)) :
    (first >>= after) octets = after answer rest := by
  show (first octets >>= fun read => after read.1 read.2) = _
  rw [h]
  rfl

theorem take_append {count : Nat} {front : List UInt8} (h : front.length = count)
    (rest : List UInt8) (fault : StreamFault) :
    take count fault (front ++ rest) = .ok (front, rest) := by
  subst h
  simp [take]

theorem int32_octets32 (number : Int32) (rest : List UInt8) :
    int32 (Word.octets32 number ++ rest) = .ok (number, rest) := by
  have hlength : (Word.octets32 number).length = 4 := Word.length_octets ..
  rw [int32, bind_of_ok (take_append hlength rest .cutInNumber), Word.ofOctets32_octets32]
  rfl

theorem int64_octets64 (number : Int64) (rest : List UInt8) :
    int64 (Word.octets64 number ++ rest) = .ok (number, rest) := by
  have hlength : (Word.octets64 number).length = 8 := Word.length_octets ..
  rw [int64, bind_of_ok (take_append hlength rest .cutInNumber), Word.ofOctets64_octets64]
  rfl

theorem string_stringOctets (h : Fits text) (rest : List UInt8) :
    string (stringOctets text ++ rest) = .ok (text, rest) := by
  have hlength : (Int32.ofNat (Text.Utf8.encode text).length).toInt =
      (Text.Utf8.encode text).length := by
    unfold Fits maxStringLength at h
    exact Int32.toInt_ofNat_of_lt (by omega)
  have hnonneg : ¬Int32.ofNat (Text.Utf8.encode text).length < 0 := by
    rw [Int32.lt_iff_toInt_lt, hlength, Int32.toInt_zero]
    omega
  rw [string, stringOctets, List.append_assoc, bind_of_ok (int32_octets32 ..)]
  simp only [hnonneg, if_false, hlength, Int.toNat_natCast]
  rw [bind_of_ok (take_append rfl rest .cutInString), Text.Utf8.decode_encode]
  rfl

theorem record_bindingOctets {binding : String × Key} (h : Fits binding.1)
    (hkey : binding.2 ≠ Key.noSymbol) (rest : List UInt8) :
    record (bindingOctets binding ++ rest) = .ok (binding, rest) := by
  rw [record, bindingOctets, List.append_assoc, bind_of_ok (string_stringOctets h _),
    bind_of_ok (int64_octets64 ..)]
  simp only [hkey, if_false]
  rfl

def headerOctets (name : String) (available count : Key) : List UInt8 :=
  Word.octets32 magic ++ stringOctets name ++ Word.octets64 available ++ Word.octets64 count

theorem header_headerOctets {name : String} (h : Fits name) (available : Key) {count : Nat}
    (hcount : count < 2 ^ 63) (rest : List UInt8) :
    header (headerOctets name available (Int64.ofNat count) ++ rest) =
      .ok (⟨name, available, count⟩, rest) := by
  have hint : (Int64.ofNat count).toInt = count := Int64.toInt_ofNat_of_lt hcount
  have hnonneg : ¬Int64.ofNat count < 0 := by
    rw [Int64.lt_iff_toInt_lt, hint, Int64.toInt_zero]
    omega
  rw [header, headerOctets, List.append_assoc, List.append_assoc, List.append_assoc,
    bind_of_ok (int32_octets32 ..)]
  simp only [ne_eq, not_true_eq_false, if_false]
  rw [bind_of_ok (string_stringOctets h _), bind_of_ok (int64_octets64 ..),
    bind_of_ok (int64_octets64 ..)]
  simp only [hnonneg, if_false, hint, Int.toNat_natCast]
  rfl

end Reader
end Binary

/-! ## Ledgers and tables -/

namespace Ledger

open Binary

/-- All strings of a ledger are short enough for the format. -/
structure Encodable (ledger : Ledger) : Prop where
  name : Fits ledger.name
  symbols : ∀ symbol ∈ ledger.symbols, Fits symbol

instance (ledger : Ledger) : Decidable ledger.Encodable :=
  decidable_of_iff (Fits ledger.name ∧ ∀ symbol ∈ ledger.symbols, Fits symbol)
    ⟨fun h => ⟨h.1, h.2⟩, fun h => ⟨h.name, h.symbols⟩⟩

def octets (ledger : Ledger) : List UInt8 :=
  Reader.headerOctets ledger.name ledger.available (Int64.ofNat ledger.bindings.length) ++
    ledger.bindings.flatMap bindingOctets

end Ledger

namespace Table

open Binary Output

variable {hash : Hash} {table : Table hash} {octets : List UInt8}

/-- Every position has its key, so the records are the bindings of the ledger. -/
theorem Sound.recordSteps_eq (h : Sound table) :
    table.index.toList.zipIdx.flatMap (recordSteps table.keys) =
      table.ledger.bindings.flatMap bindingSteps := by
  have hlength := h.length_eq
  have hbindings : table.ledger.bindings = table.index.toList.zipIdx.map
      fun entry => (entry.1, (table.keys.key? entry.2).getD Key.noSymbol) := by
    refine List.ext_getElem ?_ ?_
    · simp [ledger, hlength]
    · intro position hlt hlt'
      have hkey : position < table.keys.toList.length := by simpa [hlength] using hlt'
      simp [ledger, KeyMap.key?_eq, List.getElem?_eq_getElem hkey]
  rw [hbindings, List.flatMap_map]
  refine List.flatMap_congr ?_
  intro entry hmem
  have hlt := List.snd_lt_of_mem_zipIdx hmem
  rw [← hlength] at hlt
  rw [recordSteps, KeyMap.key?_eq, List.getElem?_eq_getElem hlt]
  rfl

theorem Sound.completes_binarySteps (h : Sound table) :
    Completes table.binarySteps ↔ table.ledger.Encodable := by
  rw [binarySteps, h.recordSteps_eq]
  simp only [completes_append, completes_put, completes_nil, completes_flatMap,
    completes_stringSteps, completes_bindingSteps, true_and, and_true]
  constructor
  · intro hboth
    obtain ⟨hname, hbindings⟩ := hboth
    refine ⟨hname, ?_⟩
    intro symbol hsymbol
    obtain ⟨binding, hbinding, rfl⟩ := List.mem_map.mp hsymbol
    exact hbindings binding hbinding
  · intro hencodable
    exact ⟨hencodable.name, fun binding hbinding =>
      hencodable.symbols _ (List.mem_map_of_mem hbinding)⟩

theorem Sound.octets_binarySteps (h : Sound table) (hencodable : table.ledger.Encodable) :
    table.binarySteps.flatMap Step.octets = table.ledger.octets := by
  have hbindings : (table.ledger.bindings.flatMap bindingSteps).flatMap Step.octets =
      table.ledger.bindings.flatMap bindingOctets := by
    rw [List.flatMap_assoc]
    refine List.flatMap_congr ?_
    intro binding hbinding
    exact octets_bindingSteps (hencodable.symbols _ (List.mem_map_of_mem hbinding))
  have hname : (stringSteps table.name).flatMap Step.octets = stringOctets table.name :=
    octets_stringSteps hencodable.name
  rw [binarySteps, h.recordSteps_eq, Ledger.octets, Reader.headerOctets, ← h.size_eq]
  simp [hbindings, hname, Step.octets]
  rfl

/-- **When a table can be written**, and what is written. -/
theorem Sound.toBytes_eq_ok_iff (h : Sound table) :
    table.toBytes = .ok octets ↔ table.ledger.Encodable ∧ table.ledger.octets = octets := by
  rw [toBytes, writeBinary, complete_eq_ok_iff, h.completes_binarySteps]
  constructor
  · intro hboth
    obtain ⟨hencodable, hoctets⟩ := hboth
    exact ⟨hencodable, (h.octets_binarySteps hencodable).symm.trans hoctets⟩
  · intro hboth
    obtain ⟨hencodable, hoctets⟩ := hboth
    exact ⟨hencodable, (h.octets_binarySteps hencodable).trans hoctets⟩

/-- The format has room for the name and for each symbol of a table. -/
structure Encodable (table : Table hash) : Prop where
  name : (Text.Utf8.encode table.name).length ≤ 2 ^ 31 - 1
  symbols : ∀ symbol ∈ table.index.toList, (Text.Utf8.encode symbol).length ≤ 2 ^ 31 - 1

theorem Sound.encodable_iff (h : Sound table) : table.Encodable ↔ table.ledger.Encodable := by
  have hsymbols := h.symbols_eq
  constructor
  · intro hencodable
    refine ⟨hencodable.name, ?_⟩
    rw [hsymbols]
    exact hencodable.symbols
  · intro hencodable
    refine ⟨hencodable.name, ?_⟩
    rw [← hsymbols]
    exact hencodable.symbols

end Table
end Symtab
