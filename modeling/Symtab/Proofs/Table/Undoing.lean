import Symtab.Proofs.Binary.RoundTrip
import Symtab.Proofs.Table.Dense

/-!
# Removing what was just added

A key that was just added stands at the last place.  If it made the dense range longer, removing
it makes the range shorter by as much, and nothing stands behind it that would have to move; if it
went to the ordered map, it leaves this map again.  Both happen whatever the table has been through
before, and the key map is the same as before in all its parts but one.

That part is the available key.  Adding moves it past the added key if it is not past it already, and
removing moves it back to the removed key if it is the next one.  So it comes back if the added key
was the available one, the greatest key included, and also if it was farther past the added key than
the next one (`Key.afterRemoving_afterAdding`).

The index can have more buckets than before, which no lookup tells, and digests that were kept are
computed again when they are asked for.

Main statement: `Reachable.removal_undoes_adding`.
-/

set_option autoImplicit false

namespace Symtab

/-- **Removing the key that was recorded last** gives the key map back, but for the available key. -/
theorem KeyMap.Sound.remove_record {keys : KeyMap} {key : Key} (h : keys.Sound)
    (hnot : key ∉ keys.toList) :
    (keys.record key keys.toList.length).remove key =
      some (keys.toList.length,
        { keys with available := (keys.available.afterAdding key).afterRemoving key }) := by
  obtain ⟨hrecorded, hlist⟩ := sound_record h hnot
  have hat : (keys.record key keys.toList.length).toList[keys.toList.length]? = some key := by
    rw [hlist, List.getElem?_concat_length]
  obtain ⟨rest, hremove, hrest, herased, havailable⟩ := sound_remove hrecorded hat
  have hback : rest.toList = keys.toList := by
    rw [herased, hlist, List.eraseIdx_append_of_length_le (Nat.le_refl _), Nat.sub_self]
    exact List.append_nil _
  have hlimit : rest.denseLimit = keys.denseLimit := by
    have hlength := length_toList keys
    rw [hrecorded.denseLimit_remove hat hremove]
    by_cases hcond : 0 ≤ key ∧ key.toNatClampNeg = keys.denseLimit ∧
        keys.toList.length = keys.denseLimit
    · obtain ⟨hnonneg, hkey, hend⟩ := hcond
      rw [hend, record_dense hnonneg hkey]
      exact Nat.min_eq_left (Nat.le_succ _)
    · rw [record_sparse hcond]
      exact Nat.min_eq_right (hlength ▸ Nat.le_add_right _ _)
  rw [hremove, h.eq_withAvailable hrest hlimit.symm hback.symm, havailable, available_record]

/-- Adding and removing leaves a list of bindings as it was, but for the available key. -/
theorem Ledger.remove_append {ledger : Ledger} {key : Key} (hkey : key ∉ ledger.keys)
    (symbol : String) :
    (ledger.append symbol key).remove key =
      (true, { ledger with
        available := (ledger.available.afterAdding key).afterRemoving key }) := by
  have hmem : key ∈ (ledger.append symbol key).keys := by
    rw [keys_append]
    exact List.mem_append_right _ List.mem_cons_self
  have hlast : [(symbol, key)].filter (·.2 ≠ key) = [] := by simp
  rw [remove, if_pos hmem]
  simp only [append, List.filter_append, filter_ne_eq_self hkey, hlast, List.append_nil]

namespace Table

variable {hash : Hash} {table : Table hash} {symbol : String} {key : Key}

/-- A table that answers as another one, with the same key map but for the available key. -/
structure Restored (table rest : Table hash) : Prop where
  contents : table.SameContents rest
  storageKeys : rest.storageKeys = table.storageKeys
  denseLimit : rest.denseLimit = table.denseLimit
  keys : rest.keys = { table.keys with available := rest.availableKey }

/-- The key map of a table from which a key was removed. -/
theorem keys_remove {position : Nat} {rest : KeyMap}
    (hremove : table.keys.remove key = some (position, rest)) :
    (table.remove key).value.2.keys = rest := by
  unfold Table.remove
  rw [hremove]
  rfl

/-- What is answered another key than the reserved one, of an absent symbol, is bound. -/
theorem Sound.bound_of_answer (h : Sound table) (hsymbol : symbol ∉ table.ledger.symbols)
    (hanswer : (table.addWithKey symbol key).value.1 ≠ Key.noSymbol) :
    key ≠ Key.noSymbol ∧ key ∉ table.ledger.keys ∧
      (table.addWithKey symbol key).value = (key, (table.bindNew symbol key).value) := by
  have hadding := h.adding symbol key
  generalize (table.addWithKey symbol key).value = outcome at hadding hanswer ⊢
  cases hadding with
  | reserved => exact absurd rfl hanswer
  | present _ hpresent =>
    rw [Ledger.keyOf?_eq_none_iff.mpr hsymbol] at hpresent
    cases hpresent
  | taken _ _ _ => exact absurd rfl hanswer
  | bound hkey _ hfree => exact ⟨hkey, hfree, rfl⟩

/-- **A new binding is removed without a trace**, but for the available key. -/
theorem Sound.restored_of_bindNew (h : Sound table) (hsymbol : symbol ∉ table.ledger.symbols)
    (hkey : key ∉ table.ledger.keys) (hreserved : key ≠ Key.noSymbol) :
    let added := (table.bindNew symbol key).value
    let rest := (added.remove key).value.2
    (added.remove key).value.1 = true ∧ table.Restored rest ∧
      rest.availableKey = if table.availableKey ≤ key.succ then key else table.availableKey := by
  intro added rest
  rw [h.symbols_eq] at hsymbol
  have hkey' : key ∉ table.keys.toList := h.keys_eq ▸ hkey
  obtain ⟨hadded, hledger⟩ := h.bindNew hsymbol hkey' hreserved
  obtain ⟨hrest, hanswer, hremoved⟩ := hadded.remove key
  rw [hledger, Ledger.remove_append hkey] at hanswer hremoved
  have hkeys : rest.keys = { table.keys with
      available := (table.availableKey.afterAdding key).afterRemoving key } := by
    have hremove := h.keys.remove_record hkey'
    rw [← h.keys_bindNew hsymbol key] at hremove
    exact keys_remove hremove
  change rest.ledger = _ at hremoved
  have hname : rest.ledger.name = table.ledger.name := by rw [hremoved]
  have hbindings : rest.ledger.bindings = table.ledger.bindings := by rw [hremoved]
  have hcontents : table.SameContents rest := h.sameContents hrest hname hbindings
  refine ⟨hanswer, ⟨hcontents, ?_, ?_, ?_⟩, ?_⟩
  · rw [storageKeys, hkeys]
    rfl
  · rw [denseLimit, hkeys]
    rfl
  · rw [availableKey, hkeys]
  · rw [availableKey, hkeys, Key.afterRemoving_afterAdding]

end Table

/-- **Removing undoes adding.**  When a symbol that is absent was added, removing the key that it got
    finds this key, and leaves a table that answers as the one before the two changes, with the same
    keys at the same places, the same dense range and the same digests.  If the table chose the key,
    the available key is the same, too.  If the key was asked for, it is the available key in the
    end, unless the available key was farther past it than the next one, and then stays. -/
theorem Reachable.removal_undoes_adding {hash : Hash} {table : Table hash} (h : Reachable table)
    {symbol : String} (habsent : table.containsSymbol symbol = false) :
    (∀ key added, (table.add symbol).value = (key, added) → key ≠ Key.noSymbol →
      ∃ rest, (added.remove key).value = (true, rest) ∧ table.Restored rest ∧
        rest.availableKey = table.availableKey ∧ rest.keys = table.keys) ∧
    ∀ key, key ≠ Key.noSymbol → table.containsKey key = false →
      ∃ added rest, (table.addWithKey symbol key).value = (key, added) ∧
        (added.remove key).value = (true, rest) ∧ table.Restored rest ∧
        rest.availableKey = if table.availableKey ≤ key.succ then key else table.availableKey := by
  have hsound := h.sound
  have hsymbol : symbol ∉ table.ledger.symbols := by
    rw [← hsound.containsSymbol_iff, habsent]
    exact Bool.false_ne_true
  constructor
  · intro key added hadd hkey
    have hanswer : (table.addWithKey symbol table.availableKey).value.1 ≠ Key.noSymbol := by
      rw [show (table.addWithKey symbol table.availableKey).value = _ from hadd]
      exact hkey
    obtain ⟨hreserved, hfree, hbound⟩ := hsound.bound_of_answer hsymbol hanswer
    obtain ⟨rfl, rfl⟩ := Prod.mk.inj (hadd.symm.trans hbound)
    obtain ⟨hremoved, hrestored, havailable⟩ :=
      hsound.restored_of_bindNew hsymbol hfree hreserved
    rw [if_pos (Key.le_succ _)] at havailable
    refine ⟨_, Prod.ext hremoved rfl, hrestored, havailable, ?_⟩
    rw [hrestored.keys, havailable]
    rfl
  · intro key hkey hcontains
    have hfree : key ∉ table.ledger.keys := by
      rw [← hsound.containsKey_iff, hcontains]
      exact Bool.false_ne_true
    have hanswer : (table.addWithKey symbol key).value.1 ≠ Key.noSymbol := by
      rw [(hsound.addWithKey symbol key).2.1, Ledger.addWithKey_absent hsymbol hfree hkey]
      exact hkey
    obtain ⟨-, -, hbound⟩ := hsound.bound_of_answer hsymbol hanswer
    obtain ⟨hremoved, hrestored, havailable⟩ := hsound.restored_of_bindNew hsymbol hfree hkey
    exact ⟨_, _, hbound, Prod.ext hremoved rfl, hrestored, havailable⟩

/-- A key that stands at the dense limit without being dense, and a symbol that is put behind it, once
    under the available key and once under the greatest one. -/
theorem removal_undoes_adding_of_limit :
    let table : Table (Hash.constant 0) := .ofBindings "words" [("a", 0), ("two", 2), ("b", 1)]
    Reachable table ∧ table.containsSymbol "c" = false ∧ table.denseLimit = 1 ∧
      (∃ added rest, (table.add "c").value = (3, added) ∧ (added.remove 3).value = (true, rest) ∧
        table.Restored rest ∧ rest.availableKey = 3) ∧
      table.containsKey Key.greatest = false ∧
      ∃ added rest, (table.addWithKey "c" Key.greatest).value = (Key.greatest, added) ∧
        (added.remove Key.greatest).value = (true, rest) ∧ table.Restored rest ∧
        rest.availableKey = Key.greatest := by
  intro table
  have h : Reachable table := reachable_ofBindings ..
  have hledger : table.ledger = ⟨"words", [("a", 0), ("two", 2), ("b", 1)], 3⟩ := by rfl
  have habsent : table.containsSymbol "c" = false := by
    rw [← Bool.not_eq_true, h.sound.containsSymbol_iff, hledger]
    decide
  have hfree : table.containsKey Key.greatest = false := by
    rw [← Bool.not_eq_true, h.sound.containsKey_iff, hledger]
    decide
  have hanswer : (table.add "c").value.1 = 3 := by
    rw [(h.sound.add "c").2.1, hledger]
    rfl
  obtain ⟨hadd, haddWithKey⟩ := h.removal_undoes_adding habsent
  obtain ⟨rest, hremove, hrestored, havailable, -⟩ :=
    hadd 3 (table.add "c").value.2 (Prod.ext hanswer rfl) (by decide)
  exact ⟨h, habsent, by rfl, ⟨_, rest, Prod.ext hanswer rfl, hremove, hrestored, havailable⟩,
    hfree, haddWithKey Key.greatest (by decide) hfree⟩

end Symtab
