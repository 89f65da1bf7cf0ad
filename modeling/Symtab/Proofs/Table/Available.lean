import Symtab.Proofs.Table.Reach

/-!
# The key to hand out next

A table hands its keys out one after another, and is to hand out no key twice.  So the available
key should be past every key that is bound, or, as nothing is past the greatest key, be the
greatest key when that one is bound (`Table.Ahead`).

Adding moves the available key past the key that was added.  Removing the key right before the
available one moves it back to that key, so that it is handed out again.  This takes for granted
that the available key was not itself bound; it is bound when it is the greatest key, and then it
moves back below a key that the table still has.

Main statement: `Reachable.availableKey_bounds`, the available key is past all keys but the
greatest, and the one change by which it comes to lie below the greatest.
-/

set_option autoImplicit false

namespace Symtab

namespace Ledger

variable {ledger : Ledger} {symbol : String} {key : Key} {among : Key → Prop}

/-- The available key is past the keys, among those in question, that are bound. -/
def AheadOf (among : Key → Prop) (ledger : Ledger) : Prop :=
  ∀ key ∈ ledger.keys, among key → key.succ ≤ ledger.available

abbrev Ahead (ledger : Ledger) : Prop := ledger.AheadOf fun _ => True

abbrev AheadBelowGreatest (ledger : Ledger) : Prop := ledger.AheadOf (· ≠ Key.greatest)

theorem AheadOf.append (h : ledger.AheadOf among) (symbol : String) (key : Key) :
    (ledger.append symbol key).AheadOf among := by
  intro other hmem hamong
  show other.succ ≤ ledger.available.afterAdding key
  rw [keys_append, List.mem_append, List.mem_singleton] at hmem
  rcases hmem with hmem | rfl
  · exact Int64.le_trans (h other hmem hamong) (Key.le_afterAdding ledger.available key)
  · exact Key.succ_le_afterAdding ledger.available other

theorem AheadOf.extend (h : ledger.AheadOf among) (bindings : List (String × Key)) :
    (ledger.extend bindings).AheadOf among := by
  induction bindings generalizing ledger with
  | nil => exact h
  | cons binding rest ih => exact ih (h.append binding.1 binding.2)

theorem AheadOf.addWithKey (h : ledger.AheadOf among) (symbol : String) (key : Key) :
    (ledger.addWithKey symbol key).2.AheadOf among := by
  rcases ledger.addWithKey_cases symbol key with heq | ⟨-, heq⟩
  · rw [heq]
    exact h
  · rw [heq]
    exact h.append symbol key

/-- Only the greatest key can be in the way. -/
theorem ahead_iff :
    ledger.Ahead ↔
      ledger.AheadBelowGreatest ∧
        (Key.greatest ∈ ledger.keys → ledger.available = Key.greatest) := by
  constructor
  · intro h
    refine ⟨fun key hmem _ => h key hmem trivial, fun hmem => ?_⟩
    exact Int64.le_antisymm (Key.le_greatest _) (h Key.greatest hmem trivial)
  · rintro ⟨h, htop⟩ key hmem -
    by_cases hkey : key = Key.greatest
    · subst hkey
      rw [Key.succ_greatest, htop hmem]
      exact Int64.le_rfl
    · exact h key hmem hkey

theorem available_remove (hmem : key ∈ ledger.keys) :
    (ledger.remove key).2.available = ledger.available.afterRemoving key := by
  simp [remove, hmem]

theorem remove_absent (hmem : key ∉ ledger.keys) : (ledger.remove key).2 = ledger := by
  simp [remove, hmem]

/-- The keys that are left lie before the one that was removed if it lay right before the
    available key. -/
theorem AheadOf.remove (h : ledger.AheadBelowGreatest) (key : Key) :
    (ledger.remove key).2.AheadBelowGreatest := by
  by_cases hmem : key ∈ ledger.keys
  · intro other hother hne
    obtain ⟨hother, hkey⟩ := mem_keys_remove.mp hother
    have hbound := h other hother hne
    rw [available_remove hmem, Key.afterRemoving]
    split
    next hnext =>
      obtain ⟨hkeyne, hsucc⟩ := Key.next?_eq_some_iff.mp hnext
      rw [← hsucc, Key.succ_le_iff hne, Key.lt_succ_iff hkeyne] at hbound
      exact (Key.succ_le_iff hne).mpr (Int64.lt_of_le_of_ne hbound hkey)
    next => exact hbound
  · rw [remove_absent hmem]
    exact h

theorem aheadBelowGreatest_invariant : Invariant AheadBelowGreatest where
  start := fun _ _ _ hmem => absurd hmem List.not_mem_nil
  addWithKey := fun _ symbol key h => h.addWithKey symbol key
  remove := fun _ key h => h.remove key
  rename := fun _ _ h => h

/-- **What moves the available key below a key that is bound.** -/
theorem Ahead.remove_iff (h : ledger.Ahead) (key : Key) :
    (ledger.remove key).2.Ahead ↔
      ¬(key.next? = some Key.greatest ∧ key ∈ ledger.keys ∧ Key.greatest ∈ ledger.keys) := by
  obtain ⟨hbelow, htop⟩ := ahead_iff.mp h
  rw [ahead_iff, and_iff_right (hbelow.remove key), mem_keys_remove]
  by_cases hmem : key ∈ ledger.keys
  · rw [available_remove hmem, Key.afterRemoving]
    constructor
    · rintro hstays ⟨hnext, -, hgreatest⟩
      obtain ⟨hne, -⟩ := Key.next?_eq_some_iff.mp hnext
      rw [htop hgreatest, if_pos hnext] at hstays
      exact hne (hstays ⟨hgreatest, hne.symm⟩)
    · rintro hnot ⟨hgreatest, -⟩
      rw [htop hgreatest, if_neg]
      exact fun hnext => hnot ⟨hnext, hmem, hgreatest⟩
  · rw [remove_absent hmem]
    exact iff_of_true (fun hboth => htop hboth.1) fun hall => hmem hall.2.1

theorem Ahead.addAll (h : ledger.Ahead) (symbols : List String) :
    (ledger.addAll symbols).Ahead := by
  induction symbols generalizing ledger with
  | nil => exact h
  | cons symbol rest ih => exact ih (h.addWithKey symbol ledger.available)

/-- **The one change that the bound does not outlast.** -/
theorem Ahead.onLedger_iff (h : ledger.Ahead) (change : Change) :
    (change.onLedger ledger).2.Ahead ↔
      ¬∃ key, change = .remove key ∧ key.next? = some Key.greatest ∧ key ∈ ledger.keys ∧
        Key.greatest ∈ ledger.keys := by
  refine Change.iff_not_remove ?_ ?_
  · rintro key rfl
    exact h.remove_iff key
  · intro hne
    cases change with
    | remove key => exact absurd rfl (hne key)
    | add symbol => exact h.addWithKey symbol ledger.available
    | addWithKey symbol key => exact h.addWithKey symbol key
    | merge source => exact h.addAll _
    | rename name => exact h
    | shrink => exact h
    | copy => exact h
    | refreeze => exact h
    | digest => exact h

end Ledger

variable {hash : Hash} {table : Table hash}

/-- The available key is past every key that is bound, so far as there is a key past it. -/
def Table.Ahead (table : Table hash) : Prop :=
  ∀ key, table.containsKey key = true → key.succ ≤ table.availableKey

theorem Table.Sound.ahead_iff (h : table.Sound) : table.Ahead ↔ table.ledger.Ahead := by
  unfold Table.Ahead Ledger.Ahead Ledger.AheadOf
  simp only [h.containsKey_iff, forall_const]
  rfl

/-- **The available key is past every key but the greatest**, in every table that can come about.
    So it is past all keys unless the greatest is bound and the available key is another one.  No
    table begins like that, and there is one change that leads to it: removing the key before the
    greatest one while both are bound. -/
theorem Reachable.availableKey_bounds (h : Reachable table) :
    (∀ key, table.containsKey key = true → key ≠ Key.greatest → key.succ ≤ table.availableKey) ∧
    (table.Ahead ↔
      (table.containsKey Key.greatest = true → table.availableKey = Key.greatest)) ∧
    (table.Initial → table.Ahead) ∧
    ∀ change : Change, change.Possible → table.Ahead →
      ((change.apply table).value.2.Ahead ↔
        ¬∃ key, change = .remove key ∧ key.next? = some Key.greatest ∧
          table.containsKey key = true ∧ table.containsKey Key.greatest = true) := by
  have hsound := h.sound
  have hbelow := h.invariant Ledger.aheadBelowGreatest_invariant
  refine ⟨?_, ?_, ?_, ?_⟩
  · intro key hkey hne
    exact hbelow key ((hsound.containsKey_iff key).mp hkey) hne
  · rw [hsound.ahead_iff, Ledger.ahead_iff, hsound.containsKey_iff]
    exact and_iff_right hbelow
  · intro hinitial
    rw [hsound.ahead_iff]
    refine hinitial.ledger_keeps ?_ fun ledger symbol key h => h.addWithKey symbol key
    intro name available key hmem
    exact absurd hmem List.not_mem_nil
  · intro change hpossible hahead
    obtain ⟨hsound', -, hledger⟩ := hsound.apply change fun hmerge => (hpossible hmerge).sound
    rw [hsound'.ahead_iff, hledger, (hsound.ahead_iff.mp hahead).onLedger_iff change]
    simp only [hsound.containsKey_iff]

/-- The greatest key is bound and its bound outlasts the removal of a key farther below. -/
theorem availableKey_bounds_of_removal :
    let table : Table (Hash.constant 0) := .ofBindings "edge" [("top", Key.greatest), ("low", 3)]
    Reachable table ∧ table.containsKey Key.greatest = true ∧ table.containsKey 3 = true ∧
      (3 : Key).succ ≤ table.availableKey ∧ table.Ahead ∧ (table.remove 3).value.2.Ahead := by
  intro table
  have h : Reachable table := reachable_ofBindings ..
  have hkeys : table.ledger.keys = [Key.greatest, 3] := by rfl
  have hgreatest : table.containsKey Key.greatest = true := by
    rw [h.sound.containsKey_iff, hkeys]
    simp
  have hthree : table.containsKey 3 = true := by
    rw [h.sound.containsKey_iff, hkeys]
    simp
  obtain ⟨hbelow, hahead, -, hchange⟩ := Reachable.availableKey_bounds h
  have hahead' : table.Ahead := hahead.mpr fun _ => by rfl
  refine ⟨h, hgreatest, hthree, hbelow 3 hthree (by decide), hahead', ?_⟩
  refine (hchange (.remove 3) (fun hmerge => by cases hmerge) hahead').mpr ?_
  rintro ⟨key, heq, hnext, -⟩
  cases heq
  exact absurd hnext (by decide)

/-- With the greatest key and the one before it, removing the latter hands it out again, below a
    key that the table still has. -/
theorem availableKey_below_greatest :
    let filled : Table (Hash.constant 0) :=
      .ofBindings "edge" [("top", Key.greatest), ("below", 9223372036854775806)]
    let table := (filled.remove 9223372036854775806).value.2
    Reachable table ∧ table.find? Key.greatest = some "top" ∧
      table.availableKey = 9223372036854775806 ∧
      ¬Key.greatest.succ ≤ table.availableKey := by
  intro filled table
  have hfilled : Reachable filled := reachable_ofBindings ..
  have h : Reachable table := hfilled.remove 9223372036854775806
  have hledger : table.ledger = (filled.ledger.remove 9223372036854775806).2 :=
    (hfilled.sound.remove 9223372036854775806).2.2
  have hfound : table.find? Key.greatest = some "top" := by
    rw [h.sound.find?_eq, hledger]
    rfl
  have havailable : table.availableKey = 9223372036854775806 := by
    show table.ledger.available = _
    rw [hledger]
    rfl
  refine ⟨h, hfound, havailable, ?_⟩
  rw [havailable]
  decide

end Symtab
