import Symtab.Proofs.Binary.Decoding
import Symtab.Proofs.Table.Available

/-!
# What adding a symbol does

Adding takes the available key as the one to add under.  A table that is grown begins with the
key 0 as its available one and cannot come below it; a table that is read from octets begins with
whatever key the octets say, the reserved one included.  To add under the reserved key is refused
before the symbol is looked for.

So for a symbol that is absent there are two ways to fail: the available key is reserved, or it is
the greatest key and bound (`Table.Exhausted`).  In all other tables the available key is free.
A symbol that is present is answered its key unless the available key is reserved.

Main statements: `Reachable.add_absent`, `Reachable.add_present`.
-/

set_option autoImplicit false

namespace Symtab

namespace Ledger

variable {ledger : Ledger} {symbol : String} {key : Key}

/-- **The available key is free** unless it is the greatest one. -/
theorem available_mem_keys_iff (h : ledger.AheadBelowGreatest) :
    ledger.available ∈ ledger.keys ↔
      ledger.available = Key.greatest ∧ Key.greatest ∈ ledger.keys := by
  constructor
  · intro hmem
    by_cases hgreatest : ledger.available = Key.greatest
    · exact ⟨hgreatest, hgreatest ▸ hmem⟩
    · have hlt := (Key.succ_le_iff hgreatest).mp (h ledger.available hmem hgreatest)
      exact absurd hlt Int64.lt_irrefl
  · rintro ⟨hgreatest, hmem⟩
    exact hgreatest ▸ hmem

/-! ## Available keys below zero -/

theorem available_le_addWithKey (ledger : Ledger) (symbol : String) (key : Key) :
    ledger.available ≤ (ledger.addWithKey symbol key).2.available := by
  rcases ledger.addWithKey_cases symbol key with heq | ⟨-, heq⟩
  · rw [heq]
    exact Int64.le_rfl
  · rw [heq]
    exact Key.le_afterAdding ledger.available key

theorem available_le_addAll (ledger : Ledger) (symbols : List String) :
    ledger.available ≤ (ledger.addAll symbols).available := by
  induction symbols generalizing ledger with
  | nil => exact Int64.le_rfl
  | cons symbol rest ih =>
    exact Int64.le_trans (ledger.available_le_addWithKey symbol ledger.available) (ih _)

theorem nonneg_remove (hreserved : Key.noSymbol ∉ ledger.keys) (h : 0 ≤ ledger.available)
    (key : Key) : 0 ≤ (ledger.remove key).2.available := by
  by_cases hmem : key ∈ ledger.keys
  · rw [available_remove hmem]
    exact Key.nonneg_afterRemoving h fun heq => hreserved (heq ▸ hmem)
  · rw [remove_absent hmem]
    exact h

/-- No change brings the available key below zero. -/
theorem nonneg_onLedger (hreserved : Key.noSymbol ∉ ledger.keys) (h : 0 ≤ ledger.available)
    (change : Change) : 0 ≤ (change.onLedger ledger).2.available := by
  cases change with
  | add symbol => exact Int64.le_trans h (ledger.available_le_addWithKey symbol ledger.available)
  | addWithKey symbol key => exact Int64.le_trans h (ledger.available_le_addWithKey symbol key)
  | remove key => exact nonneg_remove hreserved h key
  | merge source => exact Int64.le_trans h (ledger.available_le_addAll _)
  | rename name => exact h
  | shrink => exact h
  | copy => exact h
  | refreeze => exact h
  | digest => exact h

/-- Once the greatest key is bound, the available key stays at zero or above. -/
def NonnegWithGreatest (ledger : Ledger) : Prop :=
  Key.noSymbol ∉ ledger.keys ∧ (Key.greatest ∈ ledger.keys → 0 ≤ ledger.available)

theorem nonnegWithGreatest_invariant : Invariant NonnegWithGreatest where
  start := fun _ _ => ⟨List.not_mem_nil, fun hmem => absurd hmem List.not_mem_nil⟩
  addWithKey := by
    intro ledger symbol key h
    obtain ⟨hreserved, hgreatest⟩ := h
    rcases ledger.addWithKey_cases symbol key with heq | ⟨hkey, heq⟩
    · rw [heq]
      exact ⟨hreserved, hgreatest⟩
    · rw [heq, NonnegWithGreatest, keys_append]
      simp only [List.mem_append, List.mem_singleton]
      refine ⟨?_, ?_⟩
      · intro hmem
        cases hmem with
        | inl hmem => exact hreserved hmem
        | inr heq => exact hkey heq.symm
      · intro hmem
        cases hmem with
        | inl hmem =>
          exact Int64.le_trans (hgreatest hmem) (Key.le_afterAdding ledger.available key)
        | inr heq =>
          subst heq
          exact Int64.le_trans (by decide) (Key.succ_le_afterAdding ledger.available Key.greatest)
  remove := by
    intro ledger key h
    obtain ⟨hreserved, hgreatest⟩ := h
    refine ⟨fun hmem => hreserved (mem_keys_remove.mp hmem).1, ?_⟩
    intro hmem
    exact nonneg_remove hreserved (hgreatest (mem_keys_remove.mp hmem).1) key
  rename := fun _ _ h => h

end Ledger

/-- The tables that come about without octets.  What is merged may be any table, as no key is
    taken from it. -/
inductive Grown : {hash : Hash} → Table hash → Prop where
  | empty {hash : Hash} (name : String) : Grown (Table.empty name : Table hash)
  | readText {hash : Hash} {table : Table hash} {octets : List UInt8} {source : String}
      {options : TextFormat.Options} (h : (Table.ofText octets source options).value = .ok table) :
      Grown table
  | change {hash : Hash} {table : Table hash} (change : Change) (h : Grown table)
      (hpossible : change.Possible) : Grown (change.apply table).value.2

variable {hash : Hash} {table : Table hash} {symbol : String}

theorem Grown.reachable (h : Grown table) : Reachable table := by
  induction h with
  | empty name => exact .empty name
  | readText h => exact .readText h
  | change change _ hpossible ih => exact .change change ih hpossible

/-- **A table that was not read from octets** has no available key below zero. -/
theorem Grown.nonneg (h : Grown table) : 0 ≤ table.availableKey := by
  show 0 ≤ table.ledger.available
  induction h with
  | empty name => exact Int64.le_rfl
  | readText h =>
    refine (Table.keeps_ofText (P := fun table => table.Sound ∧ 0 ≤ table.ledger.available)
      ⟨Table.sound_empty _, Int64.le_rfl⟩ ?_ h).2
    intro table number line symbol key _ hboth
    obtain ⟨hsound, hnonneg⟩ := hboth
    obtain ⟨hsound', -, hledger⟩ := hsound.addWithKey symbol key
    rw [hledger]
    exact ⟨hsound', Int64.le_trans hnonneg (Ledger.available_le_addWithKey ..)⟩
  | change change h hpossible ih =>
    have hsound := h.reachable.sound
    obtain ⟨-, -, hledger⟩ := hsound.apply change fun hmerge => (hpossible hmerge).sound
    rw [hledger]
    exact Ledger.nonneg_onLedger hsound.distinct.reserved ih change

namespace Table

/-- A table that has no key left to hand out. -/
def Exhausted (table : Table hash) : Prop :=
  table.availableKey = Key.noSymbol ∨
    table.availableKey = Key.greatest ∧ table.containsKey Key.greatest = true

/-- A table has one binding more than another, behind the others. -/
structure Appends (table next : Table hash) (symbol : String) (key : Key) : Prop where
  name : next.name = table.name
  symbols : next.index.toList = table.index.toList ++ [symbol]
  keys : next.storageKeys = table.storageKeys ++ [key]
  available : next.availableKey = table.availableKey.afterAdding key

theorem Sound.appends_of_ledger {next : Table hash} {key : Key} (h : table.Sound)
    (hnext : next.Sound) (hledger : next.ledger = table.ledger.append symbol key) :
    table.Appends next symbol key where
  name := congrArg Ledger.name hledger
  symbols := by
    rw [← h.symbols_eq, ← hnext.symbols_eq, hledger]
    simp [Ledger.symbols, Ledger.append]
  keys := by
    rw [storageKeys, storageKeys, ← h.keys_eq, ← hnext.keys_eq, hledger, Ledger.keys_append]
  available := congrArg Ledger.available hledger

end Table

/-- **When an absent symbol cannot be added.**  A table that is exhausted refuses it and stays as
    it is.  Any other table puts it behind the others under the available key, which is free and
    past every bound key but the greatest.  Where no octets were read, this key is not negative. -/
theorem Reachable.add_absent (h : Reachable table) :
    (∀ symbol, table.containsSymbol symbol = false →
      (table.Exhausted → (table.add symbol).value = (Key.noSymbol, table)) ∧
      (¬table.Exhausted →
        (table.add symbol).value.1 = table.availableKey ∧
          table.availableKey ≠ Key.noSymbol ∧ table.containsKey table.availableKey = false ∧
          (∀ key, table.containsKey key = true → key ≠ Key.greatest → key < table.availableKey) ∧
          table.Appends (table.add symbol).value.2 symbol table.availableKey)) ∧
    (Grown table → 0 ≤ table.availableKey) := by
  have hsound := h.sound
  have hbelow := h.invariant Ledger.aheadBelowGreatest_invariant
  refine ⟨?_, Grown.nonneg⟩
  intro symbol habsent
  have hsymbol : symbol ∉ table.ledger.symbols := by
    rw [← hsound.containsSymbol_iff, habsent]
    simp
  obtain ⟨hsound', hanswer, hledger⟩ := hsound.add symbol
  constructor
  · intro hexhausted
    refine hsound.addWithKey_refused (hanswer.trans ?_)
    cases hexhausted with
    | inl hreserved =>
      rw [Ledger.add, Table.available_ledger, hreserved, Ledger.addWithKey_reserved]
    | inr hgreatest =>
      rw [hsound.containsKey_iff] at hgreatest
      rw [Ledger.add, Ledger.addWithKey_taken hsymbol]
      exact (Ledger.available_mem_keys_iff hbelow).mpr hgreatest
  · intro hnot
    obtain ⟨hunreserved, hgreatest⟩ := not_or.mp hnot
    have hfree : table.ledger.available ∉ table.ledger.keys := by
      rw [Ledger.available_mem_keys_iff hbelow, ← hsound.containsKey_iff]
      exact hgreatest
    rw [Ledger.add, Ledger.addWithKey_absent hsymbol hfree hunreserved] at hanswer hledger
    refine ⟨hanswer, hunreserved, ?_, ?_, hsound.appends_of_ledger hsound' hledger⟩
    · rw [← Bool.not_eq_true, hsound.containsKey_iff]
      exact hfree
    · intro key hkey hne
      rw [hsound.containsKey_iff] at hkey
      exact (Key.succ_le_iff hne).mp (hbelow key hkey hne)

/-- The last key is handed out once, and once more after it was removed. -/
theorem add_absent_of_greatest :
    let full : Table (Hash.constant 0) :=
      ((Change.addWithKey "top" Key.greatest).apply (.empty "edge")).value.2
    let table := ((Change.remove Key.greatest).apply full).value.2
    Grown full ∧ full.Exhausted ∧ (full.add "more").value = (Key.noSymbol, full) ∧
      Grown table ∧ ¬table.Exhausted ∧ (table.add "more").value.1 = Key.greatest ∧
        table.Appends (table.add "more").value.2 "more" Key.greatest ∧ 0 ≤ table.availableKey := by
  intro full table
  have hfull : Grown full :=
    (Grown.empty "edge").change (.addWithKey "top" Key.greatest) fun hmerge => by cases hmerge
  have htable : Grown table := hfull.change (.remove Key.greatest) fun hmerge => by cases hmerge
  have hexhausted : full.Exhausted := Or.inr ⟨rfl, rfl⟩
  have hnot : ¬table.Exhausted := by
    rintro (hreserved | ⟨-, hbound⟩)
    · cases hreserved
    · cases hbound
  have hledger : full.ledger = ⟨"edge", [("top", Key.greatest)], Key.greatest⟩ := by rfl
  have hledger' : table.ledger = (full.ledger.remove Key.greatest).2 :=
    (hfull.reachable.sound.remove Key.greatest).2.2
  have habsent : full.containsSymbol "more" = false := by
    rw [← Bool.not_eq_true, hfull.reachable.sound.containsSymbol_iff, hledger]
    decide
  have habsent' : table.containsSymbol "more" = false := by
    rw [← Bool.not_eq_true, htable.reachable.sound.containsSymbol_iff, hledger', hledger]
    decide
  obtain ⟨hrefused, -⟩ := hfull.reachable.add_absent.1 "more" habsent
  obtain ⟨hsymbols, hnonneg⟩ := htable.reachable.add_absent
  obtain ⟨-, hadded⟩ := hsymbols "more" habsent'
  obtain ⟨hanswer, -, -, -, happends⟩ := hadded hnot
  exact ⟨hfull, hexhausted, hrefused hexhausted, htable, hnot, hanswer, happends, hnonneg htable⟩

/-- **What adding a symbol that is present answers.**  The table stays as it is.  The answer is the
    key of the symbol, unless the available key is the reserved one; then the reserved key is the
    answer, and all keys of the table are below it.  Where no octets were read, that is never so. -/
theorem Reachable.add_present {existing : Key} (h : Reachable table)
    (hpresent : table.keyOf? symbol = some existing) :
    (table.add symbol).value.2 = table ∧
    ((table.add symbol).value.1 = existing ↔ table.availableKey ≠ Key.noSymbol) ∧
    (table.availableKey = Key.noSymbol → (table.add symbol).value.1 = Key.noSymbol ∧
      ∀ key, table.containsKey key = true → key < Key.noSymbol) ∧
    (Grown table → table.availableKey ≠ Key.noSymbol) := by
  have hsound := h.sound
  obtain ⟨-, hanswer, -⟩ := hsound.add symbol
  have hexisting : table.ledger.keyOf? symbol = some existing := by
    rw [← hsound.keyOf?_eq, hpresent]
  have hrefused : table.availableKey = Key.noSymbol →
      (table.add symbol).value.1 = Key.noSymbol := by
    intro hreserved
    rw [hanswer, Ledger.add, Table.available_ledger, hreserved, Ledger.addWithKey_reserved]
  refine ⟨hsound.addWithKey_present hpresent table.availableKey, ⟨?_, ?_⟩, ?_, ?_⟩
  · rintro hkey hreserved
    -- no symbol has the reserved key
    have hmem := List.mem_map_of_mem (f := Prod.snd)
      (hsound.distinct.keyOf?_eq_some_iff.mp hexisting)
    rw [← hkey, hrefused hreserved] at hmem
    exact hsound.distinct.reserved hmem
  · intro hunreserved
    rw [hanswer, Ledger.add, Table.available_ledger,
      Ledger.addWithKey_present hexisting hunreserved]
  · intro hreserved
    refine ⟨hrefused hreserved, ?_⟩
    intro key hkey
    rw [hsound.containsKey_iff] at hkey
    by_cases hne : key = Key.greatest
    · subst hne
      have hnonneg := (h.invariant Ledger.nonnegWithGreatest_invariant).2 hkey
      rw [Table.available_ledger, hreserved] at hnonneg
      exact absurd hnonneg (by decide)
    · have hbelow := h.invariant Ledger.aheadBelowGreatest_invariant key hkey hne
      rw [Table.available_ledger, hreserved] at hbelow
      exact (Key.succ_le_iff hne).mp hbelow
  · intro hgrown hreserved
    have hnonneg := hgrown.nonneg
    rw [hreserved] at hnonneg
    exact absurd hnonneg (by decide)

/-- A symbol that was put under a negative key is answered this key. -/
theorem add_present_of_negative :
    let table : Table (Hash.constant 0) :=
      ((Change.addWithKey "low" (-5)).apply (.empty "words")).value.2
    Grown table ∧ table.keyOf? "low" = some (-5) ∧ table.availableKey ≠ Key.noSymbol ∧
      (table.add "low").value = (-5, table) := by
  intro table
  have h : Grown table :=
    (Grown.empty "words").change (.addWithKey "low" (-5)) fun hmerge => by cases hmerge
  have hpresent : table.keyOf? "low" = some (-5) := by
    rw [h.reachable.sound.keyOf?_eq]
    rfl
  obtain ⟨htable, hanswer, -, hgrown⟩ := h.reachable.add_present hpresent
  have hunreserved := hgrown h
  exact ⟨h, hpresent, hunreserved, Prod.ext (hanswer.mpr hunreserved) htable⟩

/-- **A symbol that is not answered its key**: the octets of the table say that the reserved key is
    the available one. -/
theorem add_refuses_present :
    let document : Binary.Document := ⟨"words", Key.noSymbol, [("low", -5)]⟩
    ∃ table : Table (Hash.constant 0), (Table.ofBytes document.octets).value = .ok table ∧
      table.keyOf? "low" = some (-5) ∧ (table.add "low").value.1 = Key.noSymbol := by
  intro document
  have hvalid : document.Valid := ⟨by decide, by decide, by decide⟩
  have hread : ∃ table : Table (Hash.constant 0), _ := Table.readBinary_document hvalid []
  obtain ⟨table, hread, hreplayed⟩ := hread
  rw [List.append_nil] at hread
  refine ⟨table, Table.ofBytes_eq_ok_iff.mpr ⟨[], hread⟩, ?_, ?_⟩
  · rw [hreplayed.sound.keyOf?_eq, hreplayed.ledger_eq]
    rfl
  · rw [(hreplayed.sound.add "low").2.1, hreplayed.ledger_eq]
    rfl

end Symtab
