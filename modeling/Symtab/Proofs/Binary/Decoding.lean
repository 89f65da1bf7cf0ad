import Symtab.Proofs.Binary.Parsing
import Symtab.Proofs.Table.Dense

/-!
# What octets are read as

A table that is read holds the first record of each symbol, in the order of the octets.  The
replay of the records is followed record by record: while the records so far may stand one behind
the other, the table is what adding the first ones to a table without bindings comes to
(`Replayed`), and the next record is refused for its faults alone
(`Replayed.step_eq_error_iff`).

Main statement: `Table.ofBytes_reads_documents`.  Octets are read exactly if a document in order
is laid out at their front; then the table holds the document.  Otherwise the error is their first
fault.
-/

set_option autoImplicit false

namespace Symtab

variable {hash : Hash} {table : Table hash} {name symbol : String} {available key : Key}
  {earlier records : List (String × Key)} {record : String × Key}

open Binary

namespace Ledger

/-- The ledger of records: of those with one symbol, the first. -/
def ofRecords (name : String) (available : Key) (records : List (String × Key)) : Ledger :=
  extend ⟨name, [], available⟩ (firsts records)

theorem bindings_ofRecords : (ofRecords name available records).bindings = firsts records :=
  bindings_extend ..

theorem mem_symbols_ofRecords :
    symbol ∈ (ofRecords name available records).symbols ↔ symbol ∈ records.map Prod.fst := by
  rw [symbols, bindings_ofRecords, mem_map_fst_firsts]

theorem keys_ofRecords :
    (ofRecords name available records).keys = (firsts records).map Prod.snd := by
  rw [keys, bindings_ofRecords]

/-- Adding a record makes it the last one, unless its key is taken. -/
theorem addWithKey_ofRecords (h : (ofRecords name available earlier).Distinct)
    (hunreserved : key ≠ Key.noSymbol)
    (hfree : symbol ∉ earlier.map Prod.fst → key ∉ (firsts earlier).map Prod.snd) :
    ((ofRecords name available earlier).addWithKey symbol key).1 ≠ Key.noSymbol ∧
      ((ofRecords name available earlier).addWithKey symbol key).2 =
        ofRecords name available (earlier ++ [(symbol, key)]) := by
  by_cases hsymbol : symbol ∈ earlier.map Prod.fst
  -- the symbol has its key already, which is not the reserved one
  · have hfirsts : firsts (earlier ++ [(symbol, key)]) = firsts earlier := by
      rw [firsts_concat, if_pos hsymbol]
    cases hkey : (ofRecords name available earlier).keyOf? symbol with
    | none => exact absurd (mem_symbols_ofRecords.mpr hsymbol) (keyOf?_eq_none_iff.mp hkey)
    | some existing =>
      rw [addWithKey_present hkey hunreserved]
      refine ⟨?_, ?_⟩
      · rintro rfl
        exact h.reserved (List.mem_map_of_mem (h.keyOf?_eq_some_iff.mp hkey))
      · simp only [ofRecords, hfirsts]
  · have hfirsts : firsts (earlier ++ [(symbol, key)]) = firsts earlier ++ [(symbol, key)] := by
      rw [firsts_concat, if_neg hsymbol]
    have hkey := hfree hsymbol
    rw [← keys_ofRecords] at hkey
    rw [addWithKey_absent (mt mem_symbols_ofRecords.mp hsymbol) hkey hunreserved]
    exact ⟨hunreserved, by rw [ofRecords, ofRecords, hfirsts, extend_concat]⟩

end Ledger

/-- A table holds the contents of a document: the first record of each symbol, by storage
    position. -/
structure Table.Holds (table : Table hash) (document : Document) : Prop where
  name : table.name = document.name
  symbols : table.index.toList = (firsts document.records).map Prod.fst
  keys : table.storageKeys = (firsts document.records).map Prod.snd
  find? : ∀ key symbol, table.find? key = some symbol ↔ (symbol, key) ∈ firsts document.records
  keyOf? : ∀ symbol key, table.keyOf? symbol = some key ↔ (symbol, key) ∈ firsts document.records
  /-- The key of the document, or the one after the greatest key of a record. -/
  available : table.availableKey =
    (firsts document.records).foldl (fun available record => max available record.2.succ)
      document.available
  dense : table.denseLimit = KeyMap.leading ((firsts document.records).map Prod.snd)

/-! ## Replaying -/

/-- The records so far were replayed into a table. -/
structure Replayed (name : String) (available : Key) (earlier : List (String × Key))
    (table : Table hash) : Prop where
  sound : table.Sound
  compact : table.Compact
  ledger_eq : table.ledger = .ofRecords name available earlier

namespace Replayed

variable {octets : List UInt8} {error : Error} {count completed : Nat}

theorem start (hash : Hash) (header : Reader.Header) (rest : List UInt8) :
    Replayed header.name header.available [] (Replay.start header rest : Replay hash).table where
  sound := Replay.sound_start header rest
  compact := Table.compact_iff.mpr KeyMap.compact_empty
  ledger_eq := rfl

theorem name_eq (h : Replayed name available earlier table) : table.name = name := by
  show table.ledger.name = name
  rw [h.ledger_eq, Ledger.ofRecords, Ledger.name_extend]

theorem addWithKey (h : Replayed name available earlier table) (hunreserved : key ≠ Key.noSymbol)
    (hfree : symbol ∉ earlier.map Prod.fst → key ∉ (firsts earlier).map Prod.snd) :
    (table.addWithKey symbol key).value.1 ≠ Key.noSymbol ∧
      Replayed name available (earlier ++ [(symbol, key)])
        (table.addWithKey symbol key).value.2 := by
  have hdistinct := h.sound.distinct
  obtain ⟨hsound, hanswer, hledger⟩ := h.sound.addWithKey symbol key
  rw [h.ledger_eq] at hdistinct hanswer hledger
  obtain ⟨hadded, hrecords⟩ := Ledger.addWithKey_ofRecords hdistinct hunreserved hfree
  rw [hanswer]
  exact ⟨hadded, hsound, h.sound.compact_addWithKey h.compact symbol key,
    hledger.trans hrecords⟩

/-- A record that is not reserved is refused for its key alone. -/
theorem addWithKey_eq_noSymbol_iff (h : Replayed name available earlier table)
    (hunreserved : key ≠ Key.noSymbol) :
    (table.addWithKey symbol key).value.1 = Key.noSymbol ↔
      symbol ∉ earlier.map Prod.fst ∧ key ∈ (firsts earlier).map Prod.snd := by
  constructor
  · intro hrefused
    by_contra hnot
    exact (h.addWithKey hunreserved fun hsymbol hkey => hnot ⟨hsymbol, hkey⟩).1 hrefused
  · rintro ⟨hsymbol, hkey⟩
    obtain ⟨-, hanswer, -⟩ := h.sound.addWithKey symbol key
    rw [← Ledger.keys_ofRecords] at hkey
    rw [hanswer, h.ledger_eq,
      Ledger.addWithKey_taken (mt Ledger.mem_symbols_ofRecords.mp hsymbol) hkey]

/-- Whatever is added and not refused is replayed. -/
theorem of_added (h : Replayed name available earlier table)
    (hadded : (table.addWithKey symbol key).value.1 ≠ Key.noSymbol) :
    Replayed name available (earlier ++ [(symbol, key)])
      (table.addWithKey symbol key).value.2 := by
  have hunreserved : key ≠ Key.noSymbol := by
    rintro rfl
    exact hadded rfl
  refine (h.addWithKey hunreserved fun hsymbol hkey => hadded ?_).2
  exact (h.addWithKey_eq_noSymbol_iff hunreserved).mpr ⟨hsymbol, hkey⟩

/-- A record that may stand behind the others is replayed. -/
theorem step_record (h : Replayed name available earlier table)
    (hadmissible : Admissible earlier record) (rest : List UInt8) (completed : Nat) :
    ∃ next : Table hash,
      (Replay.step ⟨table, bindingOctets record ++ rest, completed⟩).value =
          .ok ⟨next, rest, completed + 1⟩ ∧
        Replayed name available (earlier ++ [record]) next := by
  obtain ⟨hadded, hnext⟩ := h.addWithKey hadmissible.unreserved hadmissible.free
  refine ⟨_, ?_, hnext⟩
  rw [Replay.step, Reader.record_bindingOctets hadmissible.fits hadmissible.unreserved]
  show (Replay.add _ record.1 record.2 rest).value = _
  rw [Replay.value_add, if_neg hadded]

/-- **A record is refused** exactly when it has a fault. -/
theorem step_eq_error_iff (h : Replayed name available earlier table) :
    (Replay.step ⟨table, octets, completed⟩).value = .error error ↔
      ReplayFault name earlier octets error := by
  constructor
  · intro hstep
    unfold Replay.step at hstep
    cases hrecord : Reader.record octets with
    | error error =>
      simp only [hrecord] at hstep
      obtain rfl := Except.error.inj hstep
      exact .record (Reader.record_eq_error_iff.mp hrecord)
    | ok read =>
      obtain ⟨record, rest⟩ := read
      obtain ⟨hfits, hunreserved, rfl⟩ := Reader.record_eq_ok_iff.mp hrecord
      simp only [hrecord, Replay.value_add] at hstep
      split at hstep
      next hrefused =>
        obtain rfl := Except.error.inj hstep
        obtain ⟨hsymbol, hkey⟩ := (h.addWithKey_eq_noSymbol_iff hunreserved).mp hrefused
        rw [h.name_eq]
        exact .duplicate hfits hunreserved hsymbol hkey rest
      next => cases hstep
  · intro hfault
    cases hfault with
    | record hrecord =>
      rw [Replay.step, Reader.record_eq_error_iff.mpr hrecord]
      rfl
    | duplicate hfits hunreserved hsymbol hkey rest =>
      rw [Replay.step, Reader.record_bindingOctets hfits hunreserved]
      show (Replay.add _ _ _ rest).value = _
      rw [Replay.value_add, if_pos, h.name_eq]
      exact (h.addWithKey_eq_noSymbol_iff hunreserved).mpr ⟨hsymbol, hkey⟩

/-- What is replayed is a record that may stand behind the others. -/
theorem exists_record {next : Replay hash} (h : Replayed name available earlier table)
    (hstep : (Replay.step ⟨table, octets, completed⟩).value = .ok next) :
    ∃ record rest, octets = bindingOctets record ++ rest ∧ Admissible earlier record := by
  unfold Replay.step at hstep
  cases hrecord : Reader.record octets with
  | error error =>
    simp only [hrecord] at hstep
    cases hstep
  | ok read =>
    obtain ⟨record, rest⟩ := read
    obtain ⟨hfits, hunreserved, rfl⟩ := Reader.record_eq_ok_iff.mp hrecord
    simp only [hrecord] at hstep
    obtain ⟨hadded, -⟩ := Replay.add_eq_ok hstep
    refine ⟨record, rest, rfl, hfits, hunreserved, fun hsymbol hkey => hadded ?_⟩
    exact (h.addWithKey_eq_noSymbol_iff hunreserved).mpr ⟨hsymbol, hkey⟩

/-- **Records that may stand one behind the other** are replayed to the last. -/
theorem run_records (h : Replayed name available earlier table)
    (hrecords : Replayable earlier records) (rest : List UInt8) (completed : Nat) :
    ∃ result : Table hash,
      (Replay.run records.length
            ⟨table, records.flatMap bindingOctets ++ rest, completed⟩).value =
          (⟨result, rest, completed + records.length⟩, none) ∧
        Replayed name available (earlier ++ records) result := by
  induction records generalizing table earlier completed with
  | nil => exact ⟨table, rfl, by rwa [List.append_nil]⟩
  | cons record records ih =>
    obtain ⟨hadmissible, hrecords'⟩ := replayable_cons.mp hrecords
    obtain ⟨next, hstep, hnext⟩ :=
      h.step_record hadmissible (records.flatMap bindingOctets ++ rest) completed
    obtain ⟨result, hrun, hresult⟩ := ih hnext hrecords' (completed + 1)
    refine ⟨result, ?_, by rwa [List.append_assoc] at hresult⟩
    rw [List.length_cons, Replay.value_run_succ, List.flatMap_cons, List.append_assoc, hstep]
    simp only [hrun, Nat.add_assoc, Nat.add_comm 1]

/-- A fault behind such records ends the replay. -/
theorem run_fault (h : Replayed name available earlier table)
    (hrecords : Replayable earlier records) {rest : List UInt8}
    (hfault : ReplayFault name (earlier ++ records) rest error) (hmore : records.length < count)
    (completed : Nat) :
    (Replay.run count ⟨table, records.flatMap bindingOctets ++ rest, completed⟩).value.2 =
      some error := by
  obtain ⟨count, rfl⟩ := Nat.exists_eq_add_one_of_ne_zero (Nat.ne_zero_of_lt hmore)
  rw [Replay.value_run_succ]
  -- by induction on the records before the fault, each of which takes one from the count
  induction records generalizing table earlier count completed with
  | nil =>
    rw [List.append_nil] at hfault
    rw [List.flatMap_nil, List.nil_append, h.step_eq_error_iff.mpr hfault]
  | cons record records ih =>
    obtain ⟨hadmissible, hrecords'⟩ := replayable_cons.mp hrecords
    obtain ⟨next, hstep, hnext⟩ :=
      h.step_record hadmissible (records.flatMap bindingOctets ++ rest) completed
    rw [List.append_cons] at hfault
    obtain ⟨count, rfl⟩ := Nat.exists_eq_add_one_of_ne_zero
      (Nat.ne_zero_of_lt (Nat.lt_of_succ_lt_succ hmore))
    rw [List.flatMap_cons, List.append_assoc, hstep]
    simp only
    rw [Replay.value_run_succ]
    exact ih hnext hrecords' hfault (completed + 1) count (Nat.lt_of_succ_lt_succ hmore)

/-- How far a replay comes: it ends with the last record, or at the first that has a fault. -/
theorem exists_records (h : Replayed name available earlier table) (count : Nat)
    (octets : List UInt8) (completed : Nat) :
    ∃ records rest, octets = records.flatMap bindingOctets ++ rest ∧ Replayable earlier records ∧
      ((Replay.run count ⟨table, octets, completed⟩).value.2 = none → records.length = count) ∧
      ∀ error, (Replay.run count ⟨table, octets, completed⟩).value.2 = some error →
        records.length < count ∧ ReplayFault name (earlier ++ records) rest error := by
  induction count generalizing table earlier octets completed with
  | zero =>
    refine ⟨[], octets, rfl, replayable_nil, fun _ => rfl, ?_⟩
    intro error hrun
    cases hrun
  | succ count ih =>
    rw [Replay.value_run_succ]
    cases hstep : (Replay.step ⟨table, octets, completed⟩).value with
    | error found =>
      have hfault := h.step_eq_error_iff.mp hstep
      refine ⟨[], octets, rfl, replayable_nil, ?_, ?_⟩
      · intro hrun
        cases hrun
      intro error hrun
      obtain rfl := Option.some.inj hrun
      exact ⟨Nat.succ_pos count, by rwa [List.append_nil]⟩
    | ok next =>
      obtain ⟨record, behind, rfl, hadmissible⟩ := h.exists_record hstep
      obtain ⟨table', hstep', hnext⟩ := h.step_record hadmissible behind completed
      obtain rfl := Except.ok.inj (hstep.symm.trans hstep')
      -- the table has one record more, and the rest of the replay starts behind it
      obtain ⟨records, rest, rfl, hrecords, hnone, hsome⟩ := ih hnext behind (completed + 1)
      refine ⟨record :: records, rest, ?_, replayable_cons.mpr ⟨hadmissible, hrecords⟩, ?_, ?_⟩
      · rw [List.flatMap_cons, List.append_assoc]
      · intro hrun
        exact congrArg Nat.succ (hnone hrun)
      · intro error hrun
        obtain ⟨hmore, hfault⟩ := hsome error hrun
        rw [List.append_assoc] at hfault
        exact ⟨Nat.succ_lt_succ hmore, hfault⟩

/-- **What records are replayed to.** -/
theorem holds (h : Replayed name available records table) :
    table.Holds ⟨name, available, records⟩ := by
  have hsound := h.sound
  have hbindings : table.ledger.bindings = firsts records := by
    rw [h.ledger_eq, Ledger.bindings_ofRecords]
  have hkeys : table.storageKeys = (firsts records).map Prod.snd := by
    rw [Table.storageKeys, ← hsound.keys_eq, Ledger.keys, hbindings]
  refine ⟨h.name_eq, ?_, hkeys, ?_, ?_, ?_, ?_⟩
  · rw [← hsound.symbols_eq, Ledger.symbols, hbindings]
  · intro key symbol
    rw [hsound.find?_eq, hsound.distinct.find?_eq_some_iff, hbindings]
  · intro symbol key
    rw [hsound.keyOf?_eq, hsound.distinct.keyOf?_eq_some_iff, hbindings]
  · show table.ledger.available = _
    rw [h.ledger_eq, Ledger.ofRecords, Ledger.available_extend]
  · rw [← hkeys]
    exact (hsound.denseLimit_eq_leading_iff.mpr h.compact).symm

end Replayed

namespace Table

variable {octets rest : List UInt8} {error : Error} {header : Reader.Header}

/-- A replay that is ended by an error ends the reading. -/
theorem readBinary_eq_error (hheader : Reader.header octets = .ok (header, rest))
    (hrun : (Replay.run header.count (.start header rest : Replay hash)).value.2 = some error) :
    (readBinary octets : Logged (Except Error (Table hash × List UInt8))).value = .error error := by
  rw [value_readBinary hheader]
  generalize (Replay.run header.count (.start header rest : Replay hash)).value = outcome at hrun ⊢
  obtain ⟨replay, ended⟩ := outcome
  obtain rfl : ended = some error := hrun
  rfl

/-- A document in order is read, whatever is behind it. -/
theorem readBinary_document {document : Document} (h : document.Valid) (rest : List UInt8) :
    ∃ table : Table hash, (readBinary (document.octets ++ rest)).value = .ok (table, rest) ∧
      Replayed document.name document.available document.records table := by
  let header : Reader.Header := ⟨document.name, document.available, document.records.length⟩
  let records := document.records.flatMap bindingOctets ++ rest
  have hheader : Reader.header (document.octets ++ rest) = .ok (header, records) := by
    rw [Document.octets, List.append_assoc]
    exact Reader.header_headerOctets h.name document.available h.count records
  obtain ⟨table, hrun, hreplayed⟩ :=
    (Replayed.start hash header records).run_records h.records rest 0
  refine ⟨table, ?_, hreplayed⟩
  have hrun' : (Replay.run header.count (.start header records : Replay hash)).value =
      (⟨table, rest, 0 + document.records.length⟩, none) := hrun
  rw [value_readBinary hheader, hrun']
  rfl

/-- **What is read is a document in order.** -/
theorem exists_document (h : (readBinary octets).value = .ok (table, rest)) :
    ∃ document rest, Document.Valid document ∧ octets = document.octets ++ rest := by
  cases hheader : Reader.header octets with
  | error error =>
    rw [readBinary, hheader] at h
    cases h
  | ok read =>
    obtain ⟨header, behind⟩ := read
    obtain ⟨records, rest, heq, hrecords, hnone, -⟩ :=
      (Replayed.start hash header behind).exists_records header.count behind 0
    cases hrun : (Replay.run header.count (.start header behind : Replay hash)).value.2 with
    | some error =>
      rw [readBinary_eq_error hheader hrun] at h
      cases h
    | none =>
      have hcount : records.length = header.count := hnone hrun
      obtain ⟨hname, hlt, rfl⟩ := Reader.header_eq_ok_iff.mp hheader
      refine ⟨⟨header.name, header.available, records⟩, rest, ⟨hname, ?_, hrecords⟩, ?_⟩
      · exact hcount ▸ hlt
      · rw [heq, Document.octets, List.append_assoc, hcount]

/-- **Octets cannot be read** exactly when they have a fault. -/
theorem readBinary_eq_error_iff :
    (readBinary octets : Logged (Except Error (Table hash × List UInt8))).value = .error error ↔
      Fault octets error := by
  constructor
  · intro h
    cases hheader : Reader.header octets with
    | error found =>
      rw [readBinary, hheader] at h
      obtain rfl := Except.error.inj h
      exact .header (Reader.header_eq_error_iff.mp hheader)
    | ok read =>
      obtain ⟨header, behind⟩ := read
      obtain ⟨records, rest, heq, hrecords, -, hsome⟩ :=
        (Replayed.start hash header behind).exists_records header.count behind 0
      cases hrun : (Replay.run header.count (.start header behind : Replay hash)).value.2 with
      | none =>
        rw [value_readBinary hheader] at h
        split at h
        next hended =>
          rw [hended] at hrun
          cases hrun
        next => cases h
      | some found =>
        rw [readBinary_eq_error hheader hrun] at h
        obtain rfl := Except.error.inj h
        obtain ⟨hmore, hfault⟩ := hsome found hrun
        obtain ⟨hname, hlt, rfl⟩ := Reader.header_eq_ok_iff.mp hheader
        rw [heq]
        exact .record hname hlt hrecords hmore hfault
  · intro h
    cases h with
    | header h =>
      rw [readBinary, Reader.header_eq_error_iff.mpr h]
      rfl
    | @record name available count earlier behind error hname hcount hearlier hmore h =>
      let records := earlier.flatMap bindingOctets ++ behind
      refine readBinary_eq_error (Reader.header_headerOctets hname available hcount records) ?_
      exact (Replayed.start hash ⟨name, available, count⟩ records).run_fault hearlier h hmore 0

/-- **What octets are read as.**  Octets are read exactly if a document in order stands at their
    front, and then as a table that holds this document.  Otherwise the error is the first fault
    of the octets. -/
theorem ofBytes_reads_documents (hash : Hash) (octets : List UInt8) :
    ((∃ table : Table hash, (ofBytes octets).value = .ok table) ↔
      ∃ document rest, Document.Valid document ∧ octets = document.octets ++ rest) ∧
    (∀ document rest, Document.Valid document → octets = document.octets ++ rest →
      ∃ table : Table hash, (ofBytes octets).value = .ok table ∧ table.Holds document) ∧
    ∀ error, (ofBytes octets : Logged (Except Error (Table hash))).value = .error error ↔
      Fault octets error := by
  have hdocument : ∀ document rest, Document.Valid document → octets = document.octets ++ rest →
      ∃ table : Table hash, (ofBytes octets).value = .ok table ∧ table.Holds document := by
    rintro document rest hvalid rfl
    have hread : ∃ table : Table hash, _ := readBinary_document hvalid rest
    obtain ⟨table, hread, hreplayed⟩ := hread
    exact ⟨table, ofBytes_eq_ok_iff.mpr ⟨rest, hread⟩, hreplayed.holds⟩
  refine ⟨⟨?_, ?_⟩, hdocument, ?_⟩
  · rintro ⟨table, h⟩
    obtain ⟨rest, hread⟩ := ofBytes_eq_ok_iff.mp h
    exact exists_document hread
  · rintro ⟨document, rest, hvalid, heq⟩
    obtain ⟨table, hread, -⟩ := hdocument document rest hvalid heq
    exact ⟨table, hread⟩
  · intro error
    rw [ofBytes_eq_error_iff, readBinary_eq_error_iff]

/-- The second record of a symbol counts for nothing, though its key is past the available one,
    and what is behind the document does not count either. -/
theorem ofBytes_reads_documents_of_repetition :
    let document : Document := ⟨"words", 7, [("a", 0), ("a", 9), ("b", 1)]⟩
    document.Valid ∧ ∃ table : Table (Hash.constant 0),
      (ofBytes (document.octets ++ [255])).value = .ok table ∧ table.Holds document ∧
        table.storageKeys = [0, 1] ∧ table.availableKey = 7 ∧ table.denseLimit = 2 := by
  intro document
  have hvalid : document.Valid := ⟨by decide, by decide, by decide⟩
  obtain ⟨table, hread, hholds⟩ :=
    (ofBytes_reads_documents (Hash.constant 0) (document.octets ++ [255])).2.1 document [255]
      hvalid rfl
  exact ⟨hvalid, table, hread, hholds, hholds.keys, hholds.available, hholds.dense⟩

end Table
end Symtab
