import Symtab.Frozen
import Symtab.Proofs.Index.Soundness
import Symtab.Proofs.KeyMap.Order
import Symtab.Proofs.Ledger

/-!
# A table is a ledger

`Table.ledger` reads off a table the list of its bindings; it pairs the symbols of the index
with the keys of the key map, position by position.  The two are stored and changed apart, so
the pairing means something only while they keep step: `Table.Sound` says that they do, that
each is sound by itself, and that digests which were kept are those of the bindings.

Main statements: the lookups of a sound table answer what its ledger says (`Sound.find?_eq` and
the lemmas beside it), and each change of a sound table is the change of its ledger, with the
same answer (`Sound.addWithKey`, `Sound.add`, `Sound.remove`, `Sound.merge`).  What adding does to
the table itself is one of four cases (`Sound.adding`).
-/

set_option autoImplicit false

namespace Symtab.Table

variable {hash : Hash} {table : Table hash} {symbol : String} {key : Key} {position : Nat}

/-- The bindings of a table by storage position, its name and its available key. -/
def ledger (table : Table hash) : Ledger where
  name := table.name
  bindings := table.index.toList.zip table.keys.toList
  available := table.availableKey

@[simp] theorem available_ledger (table : Table hash) :
    table.ledger.available = table.availableKey := rfl

/-- A table whose parts keep step. -/
structure Sound (table : Table hash) : Prop where
  index : table.index.Sound
  keys : table.keys.Sound
  /-- Every symbol has its key. -/
  length_eq : table.keys.toList.length = table.index.toList.length
  reserved : Key.noSymbol ∉ table.keys.toList
  /-- Digests that were kept are not stale. -/
  cache : ∀ sums, table.cache = some sums → sums = table.computeChecksums

theorem sound_empty (name : String) : Sound (empty name : Table hash) where
  index := Index.sound_empty
  keys := KeyMap.sound_empty
  length_eq := rfl
  reserved := List.not_mem_nil
  cache := by
    intro sums hsums
    cases hsums

/-- What adding a symbol under a key can come to: the answer, and the table afterwards. -/
inductive Adding (table : Table hash) (symbol : String) : Key → Key × Table hash → Prop where
  | reserved : Adding table symbol Key.noSymbol (Key.noSymbol, table)
  | present {key existing : Key} (hkey : key ≠ Key.noSymbol)
      (h : table.ledger.keyOf? symbol = some existing) :
      Adding table symbol key (existing, table)
  | taken {key : Key} (hkey : key ≠ Key.noSymbol) (hsymbol : symbol ∉ table.ledger.symbols)
      (h : key ∈ table.ledger.keys) : Adding table symbol key (Key.noSymbol, table)
  | bound {key : Key} (hkey : key ≠ Key.noSymbol) (hsymbol : symbol ∉ table.ledger.symbols)
      (h : key ∉ table.ledger.keys) :
      Adding table symbol key (key, (table.bindNew symbol key).value)

namespace Sound

/-! ## Lookups -/

theorem symbols_eq (h : Sound table) : table.ledger.symbols = table.index.toList :=
  List.map_fst_zip (Nat.le_of_eq h.length_eq.symm)

theorem keys_eq (h : Sound table) : table.ledger.keys = table.keys.toList :=
  List.map_snd_zip (Nat.le_of_eq h.length_eq)

/-- Where a key stands, a symbol stands. -/
theorem exists_symbol (h : Sound table) (hkey : table.keys.toList[position]? = some key) :
    ∃ symbol, table.index.toList[position]? = some symbol := by
  obtain ⟨hlt, -⟩ := List.getElem?_eq_some_iff.mp hkey
  rw [h.length_eq] at hlt
  exact ⟨_, List.getElem?_eq_getElem hlt⟩

/-- Where a symbol stands, a key stands. -/
theorem exists_key (h : Sound table) (hsymbol : table.index.toList[position]? = some symbol) :
    ∃ key, table.keys.toList[position]? = some key := by
  obtain ⟨hlt, -⟩ := List.getElem?_eq_some_iff.mp hsymbol
  rw [← h.length_eq] at hlt
  exact ⟨_, List.getElem?_eq_getElem hlt⟩

theorem distinct (h : Sound table) : table.ledger.Distinct where
  symbols := by
    rw [h.symbols_eq]
    exact h.index.nodup
  keys := by
    rw [h.keys_eq]
    exact h.keys.nodup
  reserved := by
    rw [h.keys_eq]
    exact h.reserved

theorem mem_bindings_iff :
    (symbol, key) ∈ table.ledger.bindings ↔ ∃ position : Nat,
      table.index.toList[position]? = some symbol ∧ table.keys.toList[position]? = some key := by
  rw [List.mem_iff_getElem?]
  constructor
  · intro hex
    obtain ⟨position, hat⟩ := hex
    exact ⟨position, List.getElem?_zip_eq_some.mp hat⟩
  · intro hex
    obtain ⟨position, hat⟩ := hex
    exact ⟨position, List.getElem?_zip_eq_some.mpr hat⟩

theorem size_eq (h : Sound table) : table.size = table.ledger.bindings.length := by
  rw [ledger, List.length_zip, h.length_eq, Nat.min_self]
  rfl

theorem find?_eq (h : Sound table) (key : Key) : table.find? key = table.ledger.find? key := by
  apply Option.ext
  intro symbol
  rw [h.distinct.find?_eq_some_iff, mem_bindings_iff, find?, Option.bind_eq_some_iff]
  constructor
  · intro hex
    obtain ⟨position, hposition, hget⟩ := hex
    rw [Index.get?_eq] at hget
    exact ⟨position, hget, h.keys.position?_eq_some_iff.mp hposition⟩
  · intro hex
    obtain ⟨position, hsymbol, hkey⟩ := hex
    refine ⟨position, h.keys.position?_eq_some_iff.mpr hkey, ?_⟩
    rw [Index.get?_eq]
    exact hsymbol

theorem keyOf?_eq (h : Sound table) (symbol : String) :
    table.keyOf? symbol = table.ledger.keyOf? symbol := by
  apply Option.ext
  intro key
  rw [h.distinct.keyOf?_eq_some_iff, mem_bindings_iff, keyOf?, Option.bind_eq_some_iff]
  constructor
  · intro hex
    obtain ⟨position, hposition, hkey⟩ := hex
    rw [KeyMap.key?_eq] at hkey
    exact ⟨position, h.index.find?_eq_some_iff.mp hposition, hkey⟩
  · intro hex
    obtain ⟨position, hsymbol, hkey⟩ := hex
    refine ⟨position, h.index.find?_eq_some_iff.mpr hsymbol, ?_⟩
    rw [KeyMap.key?_eq]
    exact hkey

theorem containsKey_iff (h : Sound table) (key : Key) :
    table.containsKey key = true ↔ key ∈ table.ledger.keys := by
  rw [containsKey, h.find?_eq, Option.isSome_iff_ne_none, Ne, Ledger.find?_eq_none_iff, not_not]

theorem containsSymbol_iff (h : Sound table) (symbol : String) :
    table.containsSymbol symbol = true ↔ symbol ∈ table.ledger.symbols := by
  rw [containsSymbol, h.keyOf?_eq, Option.isSome_iff_ne_none, Ne, Ledger.keyOf?_eq_none_iff,
    not_not]

theorem nthKey?_eq (h : Sound table) (position : Nat) :
    table.nthKey? position = table.ledger.nthKey? position := by
  rw [nthKey?, KeyMap.key?_eq, Ledger.nthKey?, h.keys_eq]

theorem entry?_eq_some_iff {pair : Key × String} :
    table.entry? (key, position) = some pair ↔
      ∃ symbol, table.index.toList[position]? = some symbol ∧ (key, symbol) = pair := by
  unfold entry?
  rw [Index.get?_eq, Option.map_eq_some_iff]

theorem mem_pairs_iff (h : Sound table) :
    (key, symbol) ∈ table.pairs ↔ (symbol, key) ∈ table.ledger.bindings := by
  rw [pairs, List.mem_filterMap, mem_bindings_iff]
  constructor
  · intro hex
    obtain ⟨⟨other, position⟩, hmem, hentry⟩ := hex
    obtain ⟨_, hsymbol, heq⟩ := entry?_eq_some_iff.mp hentry
    obtain ⟨rfl, rfl⟩ := Prod.mk.inj heq
    exact ⟨position, hsymbol, h.keys.mem_entries_iff.mp hmem⟩
  · intro hex
    obtain ⟨position, hsymbol, hkey⟩ := hex
    exact ⟨(key, position), h.keys.mem_entries_iff.mpr hkey,
      entry?_eq_some_iff.mpr ⟨symbol, hsymbol, rfl⟩⟩

theorem pairs_ascending (h : Sound table) :
    table.pairs.Pairwise fun first second => first.1 < second.1 := by
  rw [pairs, List.pairwise_filterMap]
  refine h.keys.entries_ascending.imp ?_
  intro first second hlt pair hpair other hother
  obtain ⟨_, -, rfl⟩ := entry?_eq_some_iff.mp hpair
  obtain ⟨_, -, rfl⟩ := entry?_eq_some_iff.mp hother
  exact hlt

/-- **The bindings by key** are the ledger sorted. -/
theorem pairs_eq (h : Sound table) : table.pairs = table.ledger.ascending :=
  Ledger.eq_of_ascending h.pairs_ascending h.distinct.ascending_strict fun ⟨_, _⟩ => by
    rw [h.mem_pairs_iff, Ledger.mem_ascending_iff]

/-- The digests that a table answers with are those of its bindings, kept or not. -/
theorem checksums_eq (h : Sound table) : table.checksums = table.computeChecksums := by
  unfold checksums
  cases hcache : table.cache with
  | none => rfl
  | some sums => exact h.cache sums hcache

/-! ## Changes -/

theorem bindNew (h : Sound table) (hsymbol : symbol ∉ table.index.toList)
    (hkey : key ∉ table.keys.toList) (hreserved : key ≠ Key.noSymbol) :
    Sound (table.bindNew symbol key).value ∧
      (table.bindNew symbol key).value.ledger = table.ledger.append symbol key := by
  obtain ⟨name, index, keys, cache⟩ := table
  obtain ⟨hposition, -, hindex, hsymbols⟩ := h.index.insert_absent hsymbol
  obtain ⟨hsound, hkeys⟩ := KeyMap.sound_record h.keys hkey
  have hlength := h.length_eq
  have hplace : (index.insert symbol).value.position = keys.toList.length :=
    hposition.trans hlength.symm
  rw [← hplace] at hsound hkeys
  have hbound : (bindNew (⟨name, index, keys, cache⟩ : Table hash) symbol key).value =
      ⟨name, (index.insert symbol).value.index,
        keys.record key (index.insert symbol).value.position, none⟩ := rfl
  rw [hbound]
  refine ⟨⟨hindex, hsound, ?_, ?_, ?_⟩, ?_⟩
  · simp only at hlength
    simp only [hkeys, hsymbols, List.length_append, List.length_singleton, hlength]
  · simp only [hkeys, List.mem_append, List.mem_singleton]
    intro hmem
    cases hmem with
    | inl hmem => exact h.reserved hmem
    | inr heq => exact hreserved heq.symm
  · intro sums hsums
    cases hsums
  · simp only [ledger, hkeys, hsymbols, Ledger.append, availableKey, KeyMap.available_record]
    simp only at hlength
    rw [List.zip_append hlength.symm]
    rfl

/-- **What adding does.** -/
theorem adding (h : Sound table) (symbol : String) (key : Key) :
    Adding table symbol key (table.addWithKey symbol key).value := by
  unfold Table.addWithKey
  by_cases hreserved : key = Key.noSymbol
  · subst hreserved
    exact .reserved
  simp only [if_neg hreserved]
  have hkeyOf := h.keyOf?_eq symbol
  cases hposition : table.index.find? symbol with
  | some position =>
    obtain ⟨existing, hat⟩ := h.exists_key (h.index.find?_eq_some_iff.mp hposition)
    have hkey : table.keys.key? position = some existing := (KeyMap.key?_eq ..).trans hat
    have hexisting : table.ledger.keyOf? symbol = some existing := by
      rw [← hkeyOf, keyOf?, hposition, Option.bind_some, hkey]
    simp only [hkey, Option.getD_some]
    split
    all_goals exact .present hreserved hexisting
  | none =>
    have habsent : symbol ∉ table.ledger.symbols := by
      rw [← Ledger.keyOf?_eq_none_iff, ← hkeyOf, keyOf?, hposition, Option.bind_none]
    have hfind := h.find?_eq key
    cases htaken : table.find? key with
    | some taken =>
      refine .taken hreserved habsent ?_
      by_contra hnot
      rw [hfind, Ledger.find?_eq_none_iff.mpr hnot] at htaken
      cases htaken
    | none => exact .bound hreserved habsent (Ledger.find?_eq_none_iff.mp (hfind ▸ htaken))

/-- A symbol that is present is not added again. -/
theorem addWithKey_present {existing : Key} (h : Sound table)
    (hexisting : table.keyOf? symbol = some existing) (key : Key) :
    (table.addWithKey symbol key).value.2 = table := by
  rw [h.keyOf?_eq] at hexisting
  have hadding := h.adding symbol key
  generalize (table.addWithKey symbol key).value = outcome at hadding ⊢
  cases hadding with
  | reserved => rfl
  | present _ _ => rfl
  | taken _ _ _ => rfl
  | bound _ hsymbol _ =>
    rw [Ledger.keyOf?_eq_none_iff.mpr hsymbol] at hexisting
    cases hexisting

/-- What is refused changes nothing. -/
theorem addWithKey_refused (h : Sound table)
    (hrefused : (table.addWithKey symbol key).value.1 = Key.noSymbol) :
    (table.addWithKey symbol key).value = (Key.noSymbol, table) := by
  have hadding := h.adding symbol key
  generalize (table.addWithKey symbol key).value = outcome at hadding hrefused ⊢
  cases hadding with
  | reserved => rfl
  | present _ _ => exact congrArg (·, table) hrefused
  | taken _ _ _ => rfl
  | bound hkey _ _ => exact absurd hrefused hkey

/-- **Adding under a key** is adding to the ledger. -/
theorem addWithKey (h : Sound table) (symbol : String) (key : Key) :
    Sound (table.addWithKey symbol key).value.2 ∧
      (table.addWithKey symbol key).value.1 = (table.ledger.addWithKey symbol key).1 ∧
      (table.addWithKey symbol key).value.2.ledger = (table.ledger.addWithKey symbol key).2 := by
  have hadding := h.adding symbol key
  generalize (table.addWithKey symbol key).value = outcome at hadding ⊢
  cases hadding with
  | reserved => exact ⟨h, rfl, rfl⟩
  | present hkey hexisting =>
    rw [Ledger.addWithKey_present hexisting hkey]
    exact ⟨h, rfl, rfl⟩
  | taken _ hsymbol htaken =>
    rw [Ledger.addWithKey_taken hsymbol htaken]
    exact ⟨h, rfl, rfl⟩
  | bound hkey hsymbol hfree =>
    rw [Ledger.addWithKey_absent hsymbol hfree hkey]
    rw [h.symbols_eq] at hsymbol
    rw [h.keys_eq] at hfree
    obtain ⟨hsound, hledger⟩ := h.bindNew hsymbol hfree hkey
    exact ⟨hsound, rfl, hledger⟩

/-- **Adding** is adding to the ledger. -/
theorem add (h : Sound table) (symbol : String) :
    Sound (table.add symbol).value.2 ∧
      (table.add symbol).value.1 = (table.ledger.add symbol).1 ∧
      (table.add symbol).value.2.ledger = (table.ledger.add symbol).2 :=
  h.addWithKey symbol table.availableKey

theorem addAll (h : Sound table) (symbols : List String) :
    Sound (table.addAll symbols).value.2 ∧
      (table.addAll symbols).value.2.ledger = table.ledger.addAll symbols := by
  induction symbols generalizing table with
  | nil => exact ⟨h, rfl⟩
  | cons symbol rest ih =>
    obtain ⟨hadded, -, hledger⟩ := h.add symbol
    obtain ⟨hsound, hrest⟩ := ih hadded
    refine ⟨hsound, ?_⟩
    rw [Ledger.addAll, List.foldl_cons, ← hledger]
    exact hrest

/-- **Merging** adds the symbols of the other ledger by its keys. -/
theorem merge {other : Hash} {source : Table other} (h : Sound table) (hsource : Sound source) :
    Sound (table.merge source).value ∧
      (table.merge source).value.ledger =
        table.ledger.addAll (source.ledger.ascending.map Prod.snd) := by
  rw [← hsource.pairs_eq]
  exact h.addAll _

/-- **Removing** is removing from the ledger. -/
theorem remove (h : Sound table) (key : Key) :
    Sound (table.remove key).value.2 ∧
      (table.remove key).value.1 = (table.ledger.remove key).1 ∧
      (table.remove key).value.2.ledger = (table.ledger.remove key).2 := by
  unfold Table.remove Ledger.remove
  by_cases hmem : key ∈ table.ledger.keys
  · simp only [if_pos hmem]
    rw [h.keys_eq] at hmem
    obtain ⟨position, hat⟩ := List.mem_iff_getElem?.mp hmem
    -- the index has a symbol at the position that the key map gives up
    obtain ⟨symbol, hsymbol⟩ := h.exists_symbol hat
    obtain ⟨restKeys, hremoved, hsound, hkeys, havailable⟩ := KeyMap.sound_remove h.keys hat
    obtain ⟨restIndex, herased, hindex, hsymbols, -⟩ := h.index.remove_eq hsymbol
    simp only [hremoved, herased, Option.map_some, Option.getD_some, Logged.value_pure, true_and]
    refine ⟨⟨hindex, hsound, ?_, ?_, ?_⟩, ?_⟩
    · simp only [hkeys, hsymbols, List.length_eraseIdx, h.length_eq]
    · intro hreserved
      simp only [hkeys] at hreserved
      exact h.reserved (List.mem_of_mem_eraseIdx hreserved)
    · intro sums hsums
      cases hsums
    · have hbinding : table.ledger.bindings[position]? = some (symbol, key) :=
        List.getElem?_zip_eq_some.mpr ⟨hsymbol, hat⟩
      rw [Places.filter_ne_eq_eraseIdx h.distinct.keys hbinding]
      simp only [ledger, hkeys, hsymbols, availableKey, havailable, Places.eraseIdx_zip]
  · simp only [if_neg hmem]
    rw [h.keys_eq] at hmem
    simp only [h.keys.remove_eq_none hmem, Logged.value_bind, Logged.value_pure, and_self,
      and_true]
    exact h

theorem rename (h : Sound table) (name : String) :
    Sound (table.rename name) ∧ (table.rename name).ledger = table.ledger.rename name :=
  ⟨⟨h.index, h.keys, h.length_eq, h.reserved, h.cache⟩, rfl⟩

/-- Keeping the digests changes nothing that can be looked up. -/
theorem remember (h : Sound table) :
    Sound table.remember ∧ table.remember.ledger = table.ledger := by
  refine ⟨⟨h.index, h.keys, h.length_eq, h.reserved, ?_⟩, rfl⟩
  intro sums hsums
  rw [← Option.some.inj hsums, h.checksums_eq]
  rfl

end Sound
end Symtab.Table
