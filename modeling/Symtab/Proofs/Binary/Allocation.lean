import Symtab.Proofs.Binary.RoundTrip
import Symtab.Proofs.Table.Available
import Symtab.Proofs.Table.Dense

/-!
# What a copy hands out next

The binary format holds the available key and the keys in storage order, but not how far the
dense range reaches.  Reading records the keys anew, so the range of a copy is as long as the
keys allow.  The table that was written may have a shorter one, after a removal that uncovered a
key (`Table.Uncovers`).  The available key of the copy is that of the table, as long as no bound
key is past it.

Main statement: `Reachable.binary_allocation`.
-/

set_option autoImplicit false

namespace Symtab

variable {left : Hash}

namespace Table

/-- What is read of a table that was written, key by key. -/
theorem Sound.exists_copy {table : Table left} (h : Sound table) (right : Hash)
    (hencodable : table.ledger.Encodable) (hsize : table.size < 2 ^ 63) :
    ∃ octets, ∃ copy : Table right, table.toBytes = .ok octets ∧
      (ofBytes octets).value = .ok copy ∧ copy.Sound ∧ copy.Compact ∧
      copy.storageKeys = table.storageKeys ∧
      ((∀ key ∈ table.storageKeys, key.succ ≤ table.availableKey) →
        copy.availableKey = table.availableKey) := by
  rw [h.size_eq] at hsize
  have hread : ∃ copy : Table right, _ := ofBytes_octets h.distinct hencodable hsize
  obtain ⟨copy, hread, hsound, hcompact, hledger⟩ := hread
  have hkeys : copy.storageKeys = table.storageKeys := by
    show copy.keys.toList = table.keys.toList
    rw [← hsound.keys_eq, ← h.keys_eq, hledger, Ledger.keys, Ledger.bindings_extend]
    rfl
  refine ⟨_, copy, h.toBytes_eq_ok_iff.mpr ⟨hencodable, rfl⟩, hread, hsound, hcompact, hkeys, ?_⟩
  intro hahead
  show copy.ledger.available = _
  rw [hledger, Ledger.available_extend_of_le]
  · rfl
  · intro binding hmem
    have hkey : binding.2 ∈ table.ledger.keys := List.mem_map_of_mem hmem
    rw [h.keys_eq] at hkey
    exact hahead _ hkey

end Table

/-- **What a copy hands out next.**  A table whose strings fit is read back with the longest dense
    range that its keys allow.  This is the range of the table itself exactly when the table is
    compact, as every table is at first and stays under all changes but removals that uncover a
    key.  The available key comes back, unless the greatest key is bound and is not it. -/
theorem Reachable.binary_allocation {table : Table left} (h : Reachable table) (right : Hash) :
    ((Text.Utf8.encode table.name).length ≤ 2 ^ 31 - 1 →
      (∀ symbol ∈ table.index.toList, (Text.Utf8.encode symbol).length ≤ 2 ^ 31 - 1) →
      table.size < 2 ^ 63 →
      ∃ octets, ∃ copy : Table right, table.toBytes = .ok octets ∧
        (Table.ofBytes octets).value = .ok copy ∧
        copy.denseLimit = KeyMap.leading table.storageKeys ∧
        table.denseLimit ≤ copy.denseLimit ∧
        (copy.denseLimit = table.denseLimit ↔ table.Compact) ∧
        ((table.containsKey Key.greatest = true → table.availableKey = Key.greatest) →
          copy.availableKey = table.availableKey)) ∧
    (table.Initial → table.Compact) ∧
    ∀ change : Change, table.Compact →
      ((change.apply table).value.2.Compact ↔
        ¬∃ key, change = .remove key ∧ table.Uncovers key) := by
  have hsound := h.sound
  refine ⟨?_, Table.Initial.compact, fun change hcompact =>
    hsound.compact_apply_iff hcompact change⟩
  intro hname hsymbols hsize
  rw [← hsound.symbols_eq] at hsymbols
  obtain ⟨octets, copy, hwritten, hread, hcopy, hcompact, hkeys, havailable⟩ :=
    hsound.exists_copy right ⟨hname, hsymbols⟩ hsize
  have hleading : copy.denseLimit = KeyMap.leading table.storageKeys := by
    rw [← hkeys]
    exact (hcopy.denseLimit_eq_leading_iff.mpr hcompact).symm
  refine ⟨octets, copy, hwritten, hread, hleading, ?_, ?_, ?_⟩
  · rw [hleading]
    exact hsound.keys.denseLimit_le_leading
  · rw [hleading]
    exact hsound.denseLimit_eq_leading_iff
  · intro htop
    refine havailable ?_
    have hahead : table.ledger.Ahead := Ledger.ahead_iff.mpr
      ⟨h.invariant Ledger.aheadBelowGreatest_invariant, fun hmem =>
        htop ((hsound.containsKey_iff _).mpr hmem)⟩
    intro key hmem
    rw [Table.storageKeys, ← hsound.keys_eq] at hmem
    exact hahead key hmem trivial

/-- The dense range of a table that ended at a removal, and its available key, come back. -/
theorem binary_allocation_of_removal :
    let filled : Table (Hash.constant 0) := .ofBindings "words" [("a", 0), ("b", 1), ("c", 2)]
    let table := (filled.remove 1).value.2
    Reachable table ∧ table.Compact ∧ table.containsKey Key.greatest = false ∧
      ∃ octets, ∃ copy : Table Hash.mixed, table.toBytes = .ok octets ∧
        (Table.ofBytes octets).value = .ok copy ∧ copy.denseLimit = 1 ∧ copy.availableKey = 3 := by
  intro filled table
  have hfilled : Reachable filled := reachable_ofBindings ..
  have h : Reachable table := hfilled.remove 1
  have hledger : table.ledger = (filled.ledger.remove 1).2 := (hfilled.sound.remove 1).2.2
  have hbindings : table.ledger.bindings = [("a", 0), ("c", 2)] := by
    rw [hledger]
    rfl
  have hfull : filled.Compact := by
    rw [Table.Compact, hfilled.sound.nthKey?_eq]
    simp [show filled.denseLimit = 3 by rfl, show filled.ledger.nthKey? 3 = none by rfl]
  have hcompact : table.Compact := by
    refine ((hfilled.binary_allocation Hash.mixed).2.2 (.remove 1) hfull).mpr ?_
    rintro ⟨key, heq, hat, -⟩
    rw [hfilled.sound.nthKey?_eq] at hat
    cases hat
  have hgreatest : table.containsKey Key.greatest = false := by
    rw [Bool.eq_false_iff, Ne, h.sound.containsKey_iff, Ledger.keys, hbindings]
    decide
  have hname : (Text.Utf8.encode table.name).length ≤ 2 ^ 31 - 1 := by decide
  have hshort : ∀ symbol ∈ table.index.toList,
      (Text.Utf8.encode symbol).length ≤ 2 ^ 31 - 1 := by
    rw [← h.sound.symbols_eq, Ledger.symbols, hbindings]
    decide
  have hsize : table.size < 2 ^ 63 := by
    rw [h.sound.size_eq, hbindings]
    decide
  obtain ⟨octets, copy, hwritten, hread, -, -, hlimit, havailable⟩ :=
    (h.binary_allocation Hash.mixed).1 hname hshort hsize
  refine ⟨h, hcompact, hgreatest, octets, copy, hwritten, hread, ?_, ?_⟩
  · exact hlimit.mpr hcompact
  · rw [havailable fun htop => by rw [hgreatest] at htop; cases htop]
    show table.ledger.available = 3
    rw [hledger]
    rfl

/-- The zeroth place was taken while the key zero was added, and is its own only after the
    removal. -/
theorem denseLimit_not_restored :
    let filled : Table (Hash.constant 0) := .ofBindings "words" [("one", 1), ("zero", 0)]
    let table := (filled.remove 1).value.2
    Reachable table ∧ table.denseLimit = 0 ∧
      ∃ octets, ∃ copy : Table (Hash.constant 0), table.toBytes = .ok octets ∧
        (Table.ofBytes octets).value = .ok copy ∧ copy.denseLimit = 1 := by
  intro filled table
  have hfilled : Reachable filled := reachable_ofBindings ..
  have h : Reachable table := hfilled.remove 1
  have hledger : table.ledger = (filled.ledger.remove 1).2 := (hfilled.sound.remove 1).2.2
  have hbindings : table.ledger.bindings = [("zero", 0)] := by
    rw [hledger]
    rfl
  have hencodable : table.ledger.Encodable := by
    refine ⟨by decide, ?_⟩
    rw [Ledger.symbols, hbindings]
    decide
  have hsize : table.size < 2 ^ 63 := by
    rw [h.sound.size_eq, hbindings]
    decide
  obtain ⟨octets, copy, hwritten, hread, hcopy, hcompact, hkeys, -⟩ :=
    h.sound.exists_copy (Hash.constant 0) hencodable hsize
  refine ⟨h, by rfl, octets, copy, hwritten, hread, ?_⟩
  rw [← hcopy.denseLimit_eq_leading_iff.mpr hcompact, hkeys, Table.storageKeys,
    ← h.sound.keys_eq, Ledger.keys, hbindings]
  rfl

/-- The greatest key is bound and the one before it was removed and is available again, which no
    copy has: reading records the greatest key, and then the greatest key is the available one. -/
example :
    let filled : Table (Hash.constant 0) :=
      .ofBindings "edge" [("top", Key.greatest), ("below", Key.greatest - 1)]
    let table := (filled.remove (Key.greatest - 1)).value.2
    let copy := table.toBytes.bind fun octets =>
      (Table.ofBytes octets : Logged (Except Error (Table Hash.mixed))).value
    table.availableKey = Key.greatest - 1 ∧
      (copy.map Table.availableKey).toOption = some Key.greatest := by
  cbv

end Symtab
