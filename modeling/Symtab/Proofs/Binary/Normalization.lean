import Symtab.Proofs.Binary.RoundTrip
import Symtab.Proofs.Table.Available

/-!
# Reading octets and writing them again

A document can say one thing in several ways.  A record that repeats a symbol is passed over, and an
available key that is not past the keys of the records is moved past them.  What a table is written
as has neither (`Document.normalized`), so reading and writing a second time changes nothing more.

To compare octets is to compare what they say, as no octets are those of two documents
(`Document.octets_append_inj`).  Main statement: `Table.decoding_normalizes`, what octets become
when they are read and written, and which octets stay as they are.
-/

set_option autoImplicit false

namespace Symtab

namespace Binary

variable {earlier records others : List (String × Key)} {rest behind : List UInt8}

/-! ## What octets say -/

theorem Replayable.laidOut (h : Replayable earlier records) :
    ∀ record ∈ records, Fits record.1 ∧ record.2 ≠ Key.noSymbol := by
  intro record hmem
  obtain ⟨front, back, rfl⟩ := List.append_of_mem hmem
  have hadmissible := h front record back rfl
  exact ⟨hadmissible.fits, hadmissible.unreserved⟩

/-- No octets are those of two lists of records that are equally long. -/
theorem flatMap_bindingOctets_inj
    (hrecords : ∀ record ∈ records, Fits record.1 ∧ record.2 ≠ Key.noSymbol)
    (hothers : ∀ record ∈ others, Fits record.1 ∧ record.2 ≠ Key.noSymbol)
    (hlength : records.length = others.length)
    (heq : records.flatMap bindingOctets ++ rest = others.flatMap bindingOctets ++ behind) :
    records = others ∧ rest = behind := by
  induction records generalizing others with
  | nil =>
    obtain rfl := List.length_eq_zero_iff.mp hlength.symm
    exact ⟨rfl, heq⟩
  | cons record records ih =>
    obtain ⟨other, others, rfl⟩ := List.exists_cons_of_length_eq_add_one hlength.symm
    obtain ⟨⟨hfits, hkey⟩, hrecords'⟩ := List.forall_mem_cons.mp hrecords
    obtain ⟨⟨hfits', hkey'⟩, hothers'⟩ := List.forall_mem_cons.mp hothers
    rw [List.flatMap_cons, List.flatMap_cons, List.append_assoc, List.append_assoc] at heq
    -- the reader of records takes the first one off both
    have hread := congrArg Reader.record heq
    rw [Reader.record_bindingOctets hfits hkey, Reader.record_bindingOctets hfits' hkey'] at hread
    obtain ⟨rfl, hrest⟩ := Prod.mk.inj (Except.ok.inj hread)
    obtain ⟨rfl, rfl⟩ := ih hrecords' hothers' (Nat.succ.inj hlength) hrest
    exact ⟨rfl, rfl⟩

namespace Document

variable {document other : Document}

/-- **Octets are those of one document**, and end where it ends. -/
theorem octets_append_inj (h : document.Valid) (hother : other.Valid)
    (heq : document.octets ++ rest = other.octets ++ behind) :
    document = other ∧ rest = behind := by
  obtain ⟨name, available, records⟩ := document
  obtain ⟨name', available', records'⟩ := other
  rw [octets, octets, List.append_assoc, List.append_assoc] at heq
  have hread := congrArg Reader.header heq
  rw [Reader.header_headerOctets h.name available h.count,
    Reader.header_headerOctets hother.name available' hother.count] at hread
  obtain ⟨hheader, heq⟩ := Prod.mk.inj (Except.ok.inj hread)
  obtain ⟨rfl, rfl, hlength⟩ := Reader.Header.mk.inj hheader
  obtain ⟨rfl, rfl⟩ :=
    flatMap_bindingOctets_inj h.records.laidOut hother.records.laidOut hlength heq
  exact ⟨rfl, rfl⟩

/-! ## Canonical documents -/

/-- Nothing in the document is passed over or moved. -/
structure Canonical (document : Document) : Prop where
  /-- No record repeats the symbol of an earlier one. -/
  symbols : (document.records.map Prod.fst).Nodup
  /-- The available key is past the key of every record, so far as there is a key past it. -/
  available : ∀ record ∈ document.records, record.2.succ ≤ document.available

instance (document : Document) : Decidable document.Canonical :=
  decidable_of_iff ((document.records.map Prod.fst).Nodup ∧
      ∀ record ∈ document.records, record.2.succ ≤ document.available)
    ⟨fun h => ⟨h.1, h.2⟩, fun h => ⟨h.symbols, h.available⟩⟩

/-- What a table means that was read from the document. -/
def ledger (document : Document) : Ledger :=
  .ofRecords document.name document.available document.records

/-- The document without the records that are passed over, and with the available key moved past
    the keys of the others. -/
def normalized (document : Document) : Document :=
  ⟨document.ledger.name, document.ledger.available, document.ledger.bindings⟩

@[simp] theorem name_normalized (document : Document) :
    document.normalized.name = document.name :=
  Ledger.name_extend ..

@[simp] theorem records_normalized (document : Document) :
    document.normalized.records = firsts document.records :=
  Ledger.bindings_ofRecords

theorem ahead_ledger (document : Document) : document.ledger.Ahead :=
  Ledger.AheadOf.extend (fun _ hmem => absurd hmem List.not_mem_nil) (firsts document.records)

theorem canonical_normalized (document : Document) : document.normalized.Canonical where
  symbols := by
    rw [records_normalized]
    exact nodup_map_fst_firsts document.records
  available := fun record hmem =>
    document.ahead_ledger record.2 (List.mem_map_of_mem hmem) trivial

theorem normalized_eq_self_iff : document.normalized = document ↔ document.Canonical := by
  constructor
  · intro h
    exact h ▸ document.canonical_normalized
  · intro h
    have hfirsts := firsts_eq_self h.symbols
    have havailable : document.ledger.available = document.available := by
      rw [ledger, Ledger.ofRecords, hfirsts]
      exact Ledger.available_extend_of_le h.available
    calc document.normalized
        = ⟨document.normalized.name, document.ledger.available, document.normalized.records⟩ := rfl
      _ = document := by rw [name_normalized, records_normalized, hfirsts, havailable]

/-- **Normalizing once is enough.** -/
theorem normalized_normalized (document : Document) :
    document.normalized.normalized = document.normalized :=
  normalized_eq_self_iff.mpr document.canonical_normalized

theorem Valid.distinct (h : document.Valid) : document.ledger.Distinct := by
  have hread : ∃ table : Table (Hash.constant 0), _ := Table.readBinary_document h []
  obtain ⟨table, -, hreplayed⟩ := hread
  have hdistinct := hreplayed.sound.distinct
  rw [hreplayed.ledger_eq] at hdistinct
  exact hdistinct

theorem Valid.encodable (h : document.Valid) : document.ledger.Encodable where
  name := by
    show Fits document.normalized.name
    rw [name_normalized]
    exact h.name
  symbols := by
    intro symbol hmem
    obtain ⟨record, hrecord, rfl⟩ := List.mem_map.mp (Ledger.mem_symbols_ofRecords.mp hmem)
    exact (h.records.laidOut record hrecord).1

theorem Valid.normalized (h : document.Valid) : document.normalized.Valid where
  name := h.encodable.name
  count := by
    rw [records_normalized]
    exact (firsts_sublist document.records).length_le.trans_lt h.count
  records := replayable_of_nodup
    (fun _ hmem => h.encodable.symbols _ (List.mem_map_of_mem hmem)) h.distinct.keys
    h.distinct.reserved

/-- **Which documents are laid out as their normal form is.** -/
theorem Valid.octets_normalized_iff (h : document.Valid) :
    document.normalized.octets = document.octets ↔ document.Canonical := by
  rw [← normalized_eq_self_iff]
  constructor
  · intro heq
    exact (octets_append_inj h.normalized h (congrArg (· ++ []) heq)).1
  · exact congrArg octets

end Document
end Binary

/-! ## Tables -/

open Binary

variable {left right hash : Hash} {document : Document}

/-- A table is written as the normal form of the document that was read. -/
theorem Replayed.toBytes {table : Table hash} (hvalid : document.Valid)
    (h : Replayed document.name document.available document.records table) :
    table.toBytes = .ok document.normalized.octets := by
  refine h.sound.toBytes_eq_ok_iff.mpr ?_
  rw [h.ledger_eq]
  exact ⟨hvalid.encodable, rfl⟩

/-- Documents with the same normal form are read as the same, dense range and available key
    included. -/
theorem Replayed.sameContents {other : Document} {table : Table left} {copy : Table right}
    (h : Replayed document.name document.available document.records table)
    (hcopy : Replayed other.name other.available other.records copy)
    (hsame : other.normalized = document.normalized) :
    table.SameContents copy ∧ copy.availableKey = table.availableKey ∧
      copy.denseLimit = table.denseLimit := by
  obtain ⟨hname, havailable, hbindings⟩ := Document.mk.inj hsame
  have hledger : copy.ledger = table.ledger := by
    rw [h.ledger_eq, hcopy.ledger_eq]
    show Ledger.mk other.ledger.name other.ledger.bindings other.ledger.available = _
    rw [hname, havailable, hbindings]
    rfl
  refine ⟨h.sound.sameContents hcopy.sound ?_ ?_, congrArg Ledger.available hledger, ?_⟩
  · exact congrArg Ledger.name hledger
  · rw [hledger]
  · rw [← h.sound.denseLimit_eq_leading_iff.mpr h.compact,
      ← hcopy.sound.denseLimit_eq_leading_iff.mpr hcopy.compact, Table.storageKeys,
      Table.storageKeys, ← h.sound.keys_eq, ← hcopy.sound.keys_eq, hledger]

namespace Table

variable {octets rest : List UInt8} {table : Table left}

/-- What is read is a document in order, and the table holds what comes of its records. -/
theorem exists_replayed (h : (readBinary octets).value = .ok (table, rest)) :
    ∃ document, Document.Valid document ∧ octets = document.octets ++ rest ∧
      Replayed document.name document.available document.records table := by
  obtain ⟨document, behind, hvalid, rfl⟩ := exists_document h
  obtain ⟨read, hread, hreplayed⟩ := readBinary_document hvalid behind
  obtain ⟨rfl, rfl⟩ := Prod.mk.inj (Except.ok.inj (hread.symm.trans h))
  exact ⟨document, hvalid, rfl, hreplayed⟩

/-- **Decoding normalizes once.**  Octets that are read as a table are those of a document, and what
    is left.  The table is written as the normal form of this document, which is read as a table
    with the same contents, available key and dense range, and is written as it was read.  It is
    laid out as the document was exactly if no record of the document repeats a symbol and the
    available key is past the keys of all records. -/
theorem decoding_normalizes (h : (ofBytes octets).value = .ok table) (right : Hash) :
    ∃ document rest, Document.Valid document ∧ octets = document.octets ++ rest ∧
      (readBinary octets).value = .ok (table, rest) ∧
      table.toBytes = .ok document.normalized.octets ∧
      (∃ copy : Table right, (ofBytes document.normalized.octets).value = .ok copy ∧
        (table.SameContents copy ∧ copy.availableKey = table.availableKey ∧
          copy.denseLimit = table.denseLimit) ∧
        copy.toBytes = .ok document.normalized.octets) ∧
      (document.normalized.octets = document.octets ↔ document.Canonical) := by
  obtain ⟨rest, hread⟩ := ofBytes_eq_ok_iff.mp h
  obtain ⟨document, hvalid, hoctets, hreplayed⟩ := exists_replayed hread
  have hagain : ∃ copy : Table right, _ := readBinary_document hvalid.normalized []
  obtain ⟨copy, hcopy, hcopied⟩ := hagain
  rw [List.append_nil] at hcopy
  have hwritten := hcopied.toBytes hvalid.normalized
  rw [document.normalized_normalized] at hwritten
  exact ⟨document, rest, hvalid, hoctets, hread, hreplayed.toBytes hvalid,
    ⟨copy, ofBytes_eq_ok_iff.mpr ⟨[], hcopy⟩,
      hreplayed.sameContents hcopied document.normalized_normalized, hwritten⟩,
    hvalid.octets_normalized_iff⟩

/-- A repeated symbol, an available key that is moved past a record, and an octet that is left. -/
theorem decoding_normalizes_of_repetition :
    let given : Document := ⟨"words", 1, [("a", 0), ("a", 9), ("b", 1)]⟩
    let written : Document := ⟨"words", 2, [("a", 0), ("b", 1)]⟩
    ∃ table : Table (Hash.constant 0), (ofBytes (given.octets ++ [255])).value = .ok table ∧
      table.toBytes = .ok written.octets ∧ written.octets ≠ given.octets ∧
      ∃ copy : Table Hash.mixed, (ofBytes written.octets).value = .ok copy ∧
        (table.SameContents copy ∧ copy.availableKey = table.availableKey ∧
          copy.denseLimit = table.denseLimit) ∧
        copy.toBytes = .ok written.octets := by
  intro given written
  have hgiven : given.Valid := ⟨by decide, by decide, by decide⟩
  have hread : ∃ table : Table (Hash.constant 0), _ := readBinary_document hgiven [255]
  obtain ⟨table, hread, -⟩ := hread
  have h := ofBytes_eq_ok_iff.mpr ⟨_, hread⟩
  obtain ⟨document, rest, hvalid, hoctets, -, hwritten, hcopy, hsame⟩ :=
    decoding_normalizes h Hash.mixed
  obtain ⟨rfl, -⟩ := Document.octets_append_inj hgiven hvalid hoctets
  have hcanonical : ¬given.Canonical := by decide
  exact ⟨table, h, hwritten, fun heq => hcanonical (hsame.mp heq), hcopy⟩

end Table
end Symtab
