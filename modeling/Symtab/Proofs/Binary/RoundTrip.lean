import Symtab.Proofs.Binary.Decoding
import Symtab.Proofs.Digest.Canonical

/-!
# Writing a table and reading it back

A table is written by storage position, and read back by adding its records one after another
to a table without bindings.  No record meets its symbol or its key again, so each is put
behind the ones before.  The table that is read may have another dense range and other buckets
than the one that was written; that it answers the same is what the ledger of both says.

Main statements: `readBinary_octets`, what is laid out for a ledger is read as this ledger, and
what is behind is left; `Reachable.binary_round_trip`, a table that can be written is read back
with the same contents.
-/

set_option autoImplicit false

namespace Symtab

variable {hash left right : Hash}

namespace Table

open Binary

/-- **What is laid out for a ledger is read as the ledger**: no record meets its symbol or its key
    again. -/
theorem readBinary_octets {ledger : Ledger} (hdistinct : ledger.Distinct)
    (hencodable : ledger.Encodable) (hcount : ledger.bindings.length < 2 ^ 63)
    (rest : List UInt8) :
    ∃ result : Table hash, (readBinary (ledger.octets ++ rest)).value = .ok (result, rest) ∧
      result.Sound ∧ result.Compact ∧
      result.ledger = Ledger.extend ⟨ledger.name, [], ledger.available⟩ ledger.bindings := by
  let document : Document := ⟨ledger.name, ledger.available, ledger.bindings⟩
  have hfits : ∀ binding ∈ ledger.bindings, Fits binding.1 := fun binding hbinding =>
    hencodable.symbols _ (List.mem_map_of_mem hbinding)
  have hvalid : document.Valid := ⟨hencodable.name, hcount,
    replayable_of_nodup hfits hdistinct.keys hdistinct.reserved⟩
  have hread : ∃ result : Table hash, _ := readBinary_document hvalid rest
  obtain ⟨result, hread, hreplayed⟩ := hread
  have hledger := hreplayed.ledger_eq
  rw [Ledger.ofRecords, firsts_eq_self hdistinct.symbols] at hledger
  exact ⟨result, hread, hreplayed.sound, hreplayed.compact, hledger⟩

theorem ofBytes_octets {ledger : Ledger} (hdistinct : ledger.Distinct)
    (hencodable : ledger.Encodable) (hcount : ledger.bindings.length < 2 ^ 63) :
    ∃ result : Table hash, (ofBytes ledger.octets).value = .ok result ∧ result.Sound ∧
      result.Compact ∧
      result.ledger = Ledger.extend ⟨ledger.name, [], ledger.available⟩ ledger.bindings := by
  obtain ⟨result, hread, hresult⟩ := readBinary_octets hdistinct hencodable hcount []
  rw [List.append_nil] at hread
  exact ⟨result, ofBytes_eq_ok_iff.mpr ⟨[], hread⟩, hresult⟩

/-! ## Contents -/

/-- A table has all that another one can be asked for, but for the keys to come. -/
structure SameContents (table : Table left) (other : Table right) : Prop where
  name : other.name = table.name
  symbols : other.index.toList = table.index.toList
  nthKey? : ∀ position, other.nthKey? position = table.nthKey? position
  pairs : other.pairs = table.pairs
  find? : ∀ key, other.find? key = table.find? key
  keyOf? : ∀ symbol, other.keyOf? symbol = table.keyOf? symbol
  checksums : other.checksums = table.checksums

/-- Only name and bindings matter. -/
theorem Sound.sameContents {table : Table left} {other : Table right} (h : table.Sound)
    (hother : other.Sound) (hname : other.name = table.name)
    (hbindings : other.ledger.bindings = table.ledger.bindings) : table.SameContents other := by
  have hsymbols : other.index.toList = table.index.toList := by
    rw [← h.symbols_eq, ← hother.symbols_eq, Ledger.symbols, Ledger.symbols, hbindings]
  have hfind : ∀ key, other.find? key = table.find? key := by
    intro key
    rw [h.find?_eq, hother.find?_eq, Ledger.find?, Ledger.find?, hbindings]
  have hlabeled : other.labeledOctets = table.labeledOctets := by
    rw [h.labeledOctets_eq, hother.labeledOctets_eq,
      (hother.labeledPairs_eq_iff h).mpr fun key _ => hfind key]
  refine ⟨hname, hsymbols, ?_, ?_, hfind, ?_, ?_⟩
  · intro position
    rw [h.nthKey?_eq, hother.nthKey?_eq, Ledger.nthKey?, Ledger.nthKey?, Ledger.keys, Ledger.keys,
      hbindings]
  · rw [h.pairs_eq, hother.pairs_eq, Ledger.ascending, Ledger.ascending, hbindings]
  · intro symbol
    rw [h.keyOf?_eq, hother.keyOf?_eq, Ledger.keyOf?, Ledger.keyOf?, hbindings]
  · rw [h.checksums_eq, hother.checksums_eq, computeChecksums, computeChecksums, hlabeled,
      contentOctets, contentOctets, hsymbols]

end Table

open Binary

/-- **Writing a table and reading it back.**  A table can be written exactly when its name and
    its symbols are at most 2^31 - 1 octets long.  What was written is read, by whatever hash
    function, as a table with the same contents.  The count of the format is a signed number of
    64 bits, which is room for as many symbols as an array in memory can hold, and no more. -/
theorem Reachable.binary_round_trip {table : Table left} (h : Reachable table) (other : Hash) :
    ((∃ octets, table.toBytes = .ok octets) ↔
      (Text.Utf8.encode table.name).length ≤ 2 ^ 31 - 1 ∧
        ∀ symbol ∈ table.index.toList, (Text.Utf8.encode symbol).length ≤ 2 ^ 31 - 1) ∧
    ∀ octets, table.toBytes = .ok octets → table.size < 2 ^ 63 →
      ∃ copy : Table other, (Table.ofBytes octets).value = .ok copy ∧ table.SameContents copy := by
  have hsound := h.sound
  constructor
  · rw [← hsound.symbols_eq]
    constructor
    · intro hex
      obtain ⟨octets, hwritten⟩ := hex
      have hencodable := (hsound.toBytes_eq_ok_iff.mp hwritten).1
      exact ⟨hencodable.name, hencodable.symbols⟩
    · intro hboth
      obtain ⟨hname, hsymbols⟩ := hboth
      exact ⟨_, hsound.toBytes_eq_ok_iff.mpr ⟨⟨hname, hsymbols⟩, rfl⟩⟩
  · intro octets hwritten hsize
    obtain ⟨hencodable, rfl⟩ := hsound.toBytes_eq_ok_iff.mp hwritten
    rw [hsound.size_eq] at hsize
    have hread : ∃ copy : Table other, _ :=
      Table.ofBytes_octets hsound.distinct hencodable hsize
    obtain ⟨copy, hread, hcopy, -, hledger⟩ := hread
    have hname : copy.ledger.name = table.name := by
      rw [hledger, Ledger.name_extend]
      rfl
    have hbindings : copy.ledger.bindings = table.ledger.bindings := by
      rw [hledger, Ledger.bindings_extend]
      rfl
    exact ⟨copy, hread, hsound.sameContents hcopy hname hbindings⟩

/-- A table whose dense range ended at a removal, read back with other buckets. -/
theorem binary_round_trip_of_removal :
    let filled : Table (Hash.constant 0) := .ofBindings "words" [("a", 0), ("b", 1), ("c", 2)]
    let table := (filled.remove 1).value.2
    Reachable table ∧ table.ledger.bindings = [("a", 0), ("c", 2)] ∧
      ∃ octets, table.toBytes = .ok octets ∧ ∃ copy : Table Hash.mixed,
        (Table.ofBytes octets).value = .ok copy ∧ table.SameContents copy := by
  intro filled table
  have hfilled : Reachable filled := reachable_ofBindings ..
  have h : Reachable table := hfilled.change (.remove 1) fun hmerge => by cases hmerge
  have hledger : table.ledger = (filled.ledger.remove 1).2 := (hfilled.sound.remove 1).2.2
  have hbindings : table.ledger.bindings = [("a", 0), ("c", 2)] := by
    rw [hledger]
    rfl
  have hround := h.binary_round_trip Hash.mixed
  have hshort : ∀ symbol ∈ table.index.toList,
      (Text.Utf8.encode symbol).length ≤ 2 ^ 31 - 1 := by
    rw [← h.sound.symbols_eq, Ledger.symbols, hbindings]
    decide
  have hname : (Text.Utf8.encode table.name).length ≤ 2 ^ 31 - 1 := by decide
  have hsize : table.size < 2 ^ 63 := by
    rw [h.sound.size_eq, hbindings]
    decide
  obtain ⟨octets, hwritten⟩ := hround.1.mpr ⟨hname, hshort⟩
  exact ⟨h, hbindings, octets, hwritten, hround.2 octets hwritten hsize⟩

end Symtab
