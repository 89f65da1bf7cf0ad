import Symtab.Proofs.TextFormat.Decoding

/-!
# The records that a reading keeps

Octets say records and a text says bindings, one after another; both are added one by one, and a
reading ends when one is refused.  A record is not refused, though, when its symbol is there
already: it is passed over, whatever key it asks for.  So a reading that ends well keeps the first
record of each symbol (`Table.KeepsFirst`), and it keeps all of them exactly if those with one
symbol agree (`Agreeing`).

Main statement: `Table.reading_keepsFirst`, for octets and for text.
-/

set_option autoImplicit false

namespace Symtab

open Binary TextFormat

variable {hash : Hash} {table : Table hash} {name : String} {available : Key}
  {records : List (String × Key)} {record : String × Key}

/-- Records with the same symbol are the same. -/
def Agreeing (records : List (String × Key)) : Prop :=
  ∀ record ∈ records, ∀ other ∈ records, other.1 = record.1 → other = record

instance : Decidable (Agreeing records) :=
  inferInstanceAs (Decidable (∀ record ∈ records, ∀ other ∈ records, _ → _))

/-- Looking for the symbol of a record finds one, if not this one. -/
theorem exists_find?_eq_some (hmem : record ∈ records) :
    ∃ first ∈ records, first.1 = record.1 ∧
      records.find? (·.1 = record.1) = some first := by
  cases hfind : records.find? (·.1 = record.1) with
  | none => exact absurd (List.find?_eq_none.mp hfind record hmem) (by simp)
  | some first =>
    exact ⟨first, List.mem_of_find?_eq_some hfind, by simpa using List.find?_some hfind, rfl⟩

/-- Records agree exactly if looking for the symbol of a record finds this one. -/
theorem agreeing_iff :
    Agreeing records ↔
      ∀ record ∈ records, records.find? (·.1 = record.1) = some record := by
  constructor
  · intro hagree record hmem
    obtain ⟨first, hfirst, hsymbol, hfind⟩ := exists_find?_eq_some hmem
    rw [hfind, hagree record hmem first hfirst hsymbol]
  · intro hfind record hmem other hother hsymbol
    have hsame := hfind other hother
    rw [hsymbol, hfind record hmem] at hsame
    exact (Option.some.inj hsame).symm

namespace Table

/-- A record is bound, looked up either way. -/
structure Binds (table : Table hash) (record : String × Key) : Prop where
  find? : table.find? record.2 = some record.1
  keyOf? : table.keyOf? record.1 = some record.2

/-- A table has, of these records, the first with each symbol, and it has no other binding. -/
structure KeepsFirst (table : Table hash) (records : List (String × Key)) : Prop where
  find?_iff : ∀ key symbol,
    table.find? key = some symbol ↔ records.find? (·.1 = symbol) = some (symbol, key)
  keyOf?_iff : ∀ symbol key,
    table.keyOf? symbol = some key ↔ records.find? (·.1 = symbol) = some (symbol, key)
  all_iff : (∀ record ∈ records, table.Binds record) ↔ Agreeing records

end Table

/-- **Replaying keeps the first record of each symbol.** -/
theorem Replayed.keepsFirst (h : Replayed name available records table) :
    table.KeepsFirst records := by
  have hfind : ∀ key symbol, table.find? key = some symbol ↔
      records.find? (·.1 = symbol) = some (symbol, key) := by
    intro key symbol
    rw [h.holds.find?, mem_firsts_iff]
  have hkeyOf : ∀ symbol key, table.keyOf? symbol = some key ↔
      records.find? (·.1 = symbol) = some (symbol, key) := by
    intro symbol key
    rw [h.holds.keyOf?, mem_firsts_iff]
  refine ⟨hfind, hkeyOf, ?_⟩
  rw [agreeing_iff]
  refine forall₂_congr fun record _ => ?_
  constructor
  · intro hbinds
    exact (hfind record.2 record.1).mp hbinds.find?
  · intro hfirst
    exact ⟨(hfind record.2 record.1).mpr hfirst, (hkeyOf record.1 record.2).mpr hfirst⟩

namespace Table

/-- **What a reading keeps.**  Octets that are read say a document, and a text that is read says
    a binding in each line that is not without fields.  Of the records with one symbol the table
    has the first, so it has all records exactly if those that repeat a symbol repeat its key. -/
theorem reading_keepsFirst (hash : Hash) :
    (∀ (octets : List UInt8) (table : Table hash), (ofBytes octets).value = .ok table →
      (∃ document rest, Document.Valid document ∧ octets = document.octets ++ rest) ∧
        ∀ document rest, Document.Valid document → octets = document.octets ++ rest →
          table.KeepsFirst document.records) ∧
    ∀ (options : Options) (octets : List UInt8) (source : String) (table : Table hash),
      (ofText octets source options).value = .ok table →
        (∀ line ∈ Text.Lines.lines octets, Formed options line) ∧
          table.KeepsFirst (bindings options octets) := by
  constructor
  · intro octets table h
    obtain ⟨rest, hread⟩ := ofBytes_eq_ok_iff.mp h
    refine ⟨exists_document hread, ?_⟩
    rintro document rest' hvalid rfl
    have hdocument : ∃ table : Table hash, _ := readBinary_document hvalid rest'
    obtain ⟨table', hread', hreplayed⟩ := hdocument
    rw [hread] at hread'
    obtain ⟨rfl, -⟩ := Prod.mk.inj (Except.ok.inj hread')
    exact hreplayed.keepsFirst
  · intro options octets source table h
    obtain ⟨hformed, hreplayed⟩ := replayed_ofText h
    exact ⟨hformed, hreplayed.keepsFirst⟩

/-- A document and a text that say a binding twice, with the same key, lose nothing. -/
theorem reading_keepsFirst_of_agreeing :
    let document : Document := ⟨"words", 0, [("a", 4), ("b", 1), ("a", 4)]⟩
    let text := Text.Utf8.encode "a 4\n\nb 1\na 4\n"
    bindings .standard text = document.records ∧ Agreeing document.records ∧
      (∃ table : Table (Hash.constant 0), (ofBytes document.octets).value = .ok table ∧
        ∀ record ∈ document.records, table.Binds record) ∧
      ∃ table : Table (Hash.constant 0), (ofText text "words" .standard).value = .ok table ∧
        ∀ record ∈ document.records, table.Binds record := by
  intro document text
  obtain ⟨hoctets, htext⟩ := reading_keepsFirst (Hash.constant 0)
  have hvalid : document.Valid := ⟨by decide, by decide, by decide⟩
  have hagree : Agreeing document.records := by decide
  have hbindings : bindings .standard text = document.records := by rfl
  refine ⟨hbindings, hagree, ?_, ?_⟩
  · have hread : ∃ table : Table (Hash.constant 0), _ := readBinary_document hvalid []
    obtain ⟨table, hread, -⟩ := hread
    rw [List.append_nil] at hread
    have hok := ofBytes_eq_ok_iff.mpr ⟨[], hread⟩
    obtain ⟨-, hkeeps⟩ := hoctets document.octets table hok
    have heq : document.octets = document.octets ++ [] := (List.append_nil _).symm
    exact ⟨table, hok, (hkeeps document [] hvalid heq).all_iff.mpr hagree⟩
  · let read : Logged (Except Error (Table (Hash.constant 0))) := ofText text "words" .standard
    cases hread : read.value with
    | error error => cases hread
    | ok table =>
      obtain ⟨-, hkeeps⟩ := htext .standard text "words" table hread
      rw [hbindings] at hkeeps
      exact ⟨table, rfl, hkeeps.all_iff.mpr hagree⟩

/-- **A record that is lost**: it repeats a symbol and asks for the key of another one, and neither
    reading refuses it. -/
theorem reading_loses_record :
    let document : Document := ⟨"words", 0, [("a", 0), ("b", 9), ("a", 9)]⟩
    let text := Text.Utf8.encode "a 0\nb 9\na 9\n"
    bindings .standard text = document.records ∧
      (∃ table : Table (Hash.constant 0), (ofBytes document.octets).value = .ok table ∧
        table.find? 9 = some "b" ∧ table.keyOf? "a" = some 0 ∧ ¬table.Binds ("a", 9)) ∧
      ∃ table : Table (Hash.constant 0), (ofText text "words" .standard).value = .ok table ∧
        table.find? 9 = some "b" ∧ ¬table.Binds ("a", 9) := by
  intro document text
  have hvalid : document.Valid := ⟨by decide, by decide, by decide⟩
  have hread : ∃ table : Table (Hash.constant 0), _ := readBinary_document hvalid []
  obtain ⟨table, hread, hreplayed⟩ := hread
  rw [List.append_nil] at hread
  obtain ⟨hfind, hkeyOf, -⟩ := hreplayed.keepsFirst
  have hlost : ∀ table : Table (Hash.constant 0), table.find? 9 = some "b" →
      ¬table.Binds ("a", 9) := by
    intro table hnine hbinds
    exact absurd (Option.some.inj (hnine.symm.trans hbinds.find?)) (by decide)
  have hnine : table.find? 9 = some "b" := (hfind 9 "b").mpr rfl
  refine ⟨by rfl, ⟨table, ofBytes_eq_ok_iff.mpr ⟨[], hread⟩, hnine, (hkeyOf "a" 0).mpr rfl,
    hlost table hnine⟩, ?_⟩
  let read : Logged (Except Error (Table (Hash.constant 0))) := ofText text "words" .standard
  cases hread : read.value with
  | error error => cases hread
  | ok table =>
    obtain ⟨-, hreplayed⟩ := replayed_ofText hread
    have hnine : table.find? 9 = some "b" := (hreplayed.keepsFirst.find?_iff 9 "b").mpr rfl
    exact ⟨table, rfl, hnine, hlost table hnine⟩

end Table
end Symtab
