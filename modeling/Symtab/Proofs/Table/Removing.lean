import Symtab.Proofs.KeyMap.Dense
import Symtab.Proofs.Table.Reach

/-!
# Removing several keys

A removal moves every later symbol to another position, and one in the dense range sends all
that is behind it to the ordered map; so what the next removal has to do depends on those before
it.  What comes of them all does not.  The bindings that are left, in storage order, and the place
where the dense range ends are told by the set of removed keys (`Removed`), and a table is told by
these but for the key that is available: the parts of a key map follow from its list of keys and
its dense range (`KeyMap.Sound.eq_withAvailable`), and the buckets were filled anew.

The available key is left out because a key is handed out again only while it is the last one.

Main statement: `Reachable.removals_commute`.
-/

set_option autoImplicit false

namespace Symtab

namespace Table

variable {hash : Hash} {table middle rest left right : Table hash}
  {keys first second : List Key} {key : Key}

/-- Removes keys in order. -/
def removeAll (table : Table hash) (keys : List Key) : Logged (List Bool × Table hash) :=
  changeAll remove table keys

def withAvailable (table : Table hash) (available : Key) : Table hash :=
  { table with keys := { table.keys with available } }

/-- What is left of a table without some keys. -/
structure Removed (table : Table hash) (keys : List Key) (rest : Table hash) : Prop where
  sound : rest.Sound
  name : rest.name = table.name
  bindings : rest.ledger.bindings =
    table.ledger.bindings.filter fun binding => binding.2 ∉ keys
  denseLimit : rest.denseLimit = table.keys.limitWithout keys
  /-- Where there was nothing to remove, nothing was done. -/
  unchanged : (∀ key ∈ keys, key ∉ table.storageKeys) → rest = table
  /-- Otherwise the buckets were filled anew and no digests are kept. -/
  rebuilt : ∀ key ∈ keys, key ∈ table.storageKeys →
    rest.index = .build table.index.bucketCount rest.index.symbols ∧ rest.cache = none

namespace Removed

theorem nil (h : table.Sound) : Removed table [] table where
  sound := h
  name := rfl
  bindings := by simp
  denseLimit := rfl
  unchanged := fun _ => rfl
  rebuilt := by simp

theorem single (h : table.Sound) (key : Key) : Removed table [key] (table.remove key).value.2 := by
  obtain ⟨hsound, -, hledger⟩ := h.remove key
  have hbindings := table.ledger.bindings_remove key
  rw [← hledger] at hbindings
  by_cases hmem : key ∈ table.keys.toList
  · obtain ⟨position, hat⟩ := List.mem_iff_getElem?.mp hmem
    obtain ⟨symbol, hsymbol⟩ := h.exists_symbol hat
    obtain ⟨keys, hremove, -⟩ := KeyMap.sound_remove h.keys hat
    obtain ⟨index, herase, -⟩ := h.index.remove_eq hsymbol
    have hrest : (table.remove key).value.2 = ⟨table.name, index, keys, none⟩ := by
      unfold Table.remove
      simp only [hremove, herase]
      rfl
    rw [hrest] at hsound hbindings ⊢
    refine ⟨hsound, rfl, hbindings, ?_, fun hnone => absurd hmem (hnone key List.mem_cons_self),
      fun _ _ _ => ⟨Index.eq_build_of_remove herase, rfl⟩⟩
    exact eq_of_forall_le_iff fun count => h.keys.le_denseLimit_remove_iff hat hremove
  · have hrest : (table.remove key).value.2 = table := by
      unfold Table.remove
      simp only [h.keys.remove_eq_none hmem]
      rfl
    rw [hrest] at hsound hbindings ⊢
    refine ⟨hsound, rfl, hbindings, (h.keys.limitWithout_absent hmem).symm, fun _ => rfl, ?_⟩
    intro other hother hbound
    rw [List.mem_singleton.mp hother] at hbound
    exact absurd hbound hmem

/-- What is left of what is left. -/
theorem trans (h : Removed table first middle) (h' : Removed middle second rest) :
    Removed table (first ++ second) rest where
  sound := h'.sound
  name := h'.name.trans h.name
  bindings := by
    rw [h'.bindings, h.bindings, List.filter_filter]
    refine List.filter_congr fun binding _ => ?_
    simp [Bool.and_comm]
  denseLimit := by
    rw [h'.denseLimit]
    have hmiddle : middle.keys.denseLimit = _ := h.denseLimit
    refine eq_of_forall_le_iff fun count => ?_
    rw [KeyMap.le_limitWithout_iff, hmiddle, KeyMap.le_limitWithout_iff,
      KeyMap.le_limitWithout_iff, List.forall_mem_append, and_assoc]
  unchanged := by
    intro hnone
    obtain rfl := h.unchanged fun key hkey => hnone key (List.mem_append_left _ hkey)
    exact h'.unchanged fun key hkey => hnone key (List.mem_append_right _ hkey)
  rebuilt := by
    intro key hkey hbound
    by_cases hsecond : ∀ key ∈ second, key ∉ middle.storageKeys
    · -- the second removals found nothing, so the key is one of the first
      obtain rfl := h'.unchanged hsecond
      by_cases hfirst : ∀ key ∈ first, key ∉ table.storageKeys
      · obtain rfl := h.unchanged hfirst
        rcases List.mem_append.mp hkey with hkey | hkey
        · exact absurd hbound (hfirst key hkey)
        · exact absurd hbound (hsecond key hkey)
      · push Not at hfirst
        obtain ⟨other, hother, hbound⟩ := hfirst
        exact h.rebuilt other hother hbound
    · push Not at hsecond
      obtain ⟨other, hother, hbound'⟩ := hsecond
      obtain ⟨hindex, hcache⟩ := h'.rebuilt other hother hbound'
      refine ⟨?_, hcache⟩
      have hcount : middle.index.bucketCount = table.index.bucketCount := by
        by_cases hfirst : ∀ key ∈ first, key ∉ table.storageKeys
        · rw [h.unchanged hfirst]
        · push Not at hfirst
          obtain ⟨other, hother, hbound⟩ := hfirst
          rw [(h.rebuilt other hother hbound).1, Index.bucketCount, Index.build,
            Index.size_bucketsOf]
      rw [← hcount]
      exact hindex

end Removed

/-- **What removals leave**, whatever their order. -/
theorem Sound.removed (h : table.Sound) (keys : List Key) :
    Removed table keys (table.removeAll keys).value.2 := by
  induction keys generalizing table with
  | nil => exact .nil h
  | cons key rest ih =>
    have hfirst := Removed.single h key
    exact hfirst.trans (ih hfirst.sound)

/-- **Removing the same keys leaves the same**, but for the available key. -/
theorem Removed.eq_withAvailable {others : List Key} (h : Removed table keys left)
    (h' : Removed table others right) (hsame : ∀ key, key ∈ keys ↔ key ∈ others) :
    right = left.withAvailable right.availableKey := by
  by_cases hnone : ∀ key ∈ keys, key ∉ table.storageKeys
  · obtain rfl := h.unchanged hnone
    obtain rfl := h'.unchanged fun key hkey => hnone key ((hsame key).mpr hkey)
    rfl
  · push Not at hnone
    obtain ⟨key, hkey, hbound⟩ := hnone
    obtain ⟨hindex, hcache⟩ := h.rebuilt key hkey hbound
    obtain ⟨hindex', hcache'⟩ := h'.rebuilt key ((hsame key).mp hkey) hbound
    have hbindings : left.ledger.bindings = right.ledger.bindings := by
      rw [h.bindings, h'.bindings]
      exact List.filter_congr fun binding _ => decide_eq_decide.mpr (not_congr (hsame binding.2))
    have hlimit : left.keys.denseLimit = right.keys.denseLimit := by
      have hleft : left.keys.denseLimit = _ := h.denseLimit
      have hright : right.keys.denseLimit = _ := h'.denseLimit
      rw [hleft, hright]
      refine eq_of_forall_le_iff fun count => ?_
      simp only [KeyMap.le_limitWithout_iff, hsame]
    have hkeys : right.keys = { left.keys with available := right.availableKey } := by
      refine h.sound.keys.eq_withAvailable h'.sound.keys hlimit ?_
      rw [← h.sound.keys_eq, ← h'.sound.keys_eq, Ledger.keys, hbindings, Ledger.keys]
    have hsymbols : left.index.symbols = right.index.symbols := by
      rw [← Array.toList_inj]
      show left.index.toList = right.index.toList
      rw [← h.sound.symbols_eq, ← h'.sound.symbols_eq, Ledger.symbols, hbindings, Ledger.symbols]
    have hindexes : left.index = right.index := by rw [hindex, hindex', hsymbols]
    have hname : left.name = right.name := h.name.trans h'.name.symm
    obtain ⟨name, index, keys', cache⟩ := right
    rw [withAvailable, hname, hindexes, hcache, ← hkeys]
    simp only at hcache' ⊢
    rw [hcache']

/-- Two tables answer alike, as far as the available key is not concerned. -/
structure Agree (left right : Table hash) : Prop where
  name : left.name = right.name
  symbols : left.index.toList = right.index.toList
  nthKey? : ∀ position, left.nthKey? position = right.nthKey? position
  position? : ∀ key, left.keys.position? key = right.keys.position? key
  denseLimit : left.denseLimit = right.denseLimit
  find? : ∀ key, left.find? key = right.find? key
  keyOf? : ∀ symbol, left.keyOf? symbol = right.keyOf? symbol
  pairs : left.pairs = right.pairs
  bucketCount : left.index.bucketCount = right.index.bucketCount
  checksums : left.checksums = right.checksums

/-- The available key is in no answer but its own. -/
theorem agree_withAvailable (table : Table hash) (available : Key) :
    table.Agree (table.withAvailable available) :=
  ⟨rfl, rfl, fun _ => rfl, fun _ => rfl, rfl, fun _ => rfl, fun _ => rfl, rfl, rfl, rfl⟩

end Table

/-- **Removals commute.**  In whatever order keys are removed, whether they are there or not and
    however often they are named, the tables that come of it are the same but for the available
    key, and so they answer alike.  The symbols and the keys that are left are those of the other
    bindings, in storage order, and the dense range ends at the first dense key that was
    removed. -/
theorem Reachable.removals_commute {hash : Hash} {table : Table hash} (h : Reachable table)
    {keys others : List Key} (hperm : keys.Perm others) :
    let left := (table.removeAll keys).value.2
    let right := (table.removeAll others).value.2
    let kept := table.ledger.bindings.filter fun binding => binding.2 ∉ keys
    right = left.withAvailable right.availableKey ∧ left.Agree right ∧
      left.index.toList = kept.map Prod.fst ∧ left.storageKeys = kept.map Prod.snd ∧
        left.denseLimit = table.keys.limitWithout keys := by
  intro left right kept
  have hleft : Table.Removed table keys left := h.sound.removed keys
  have hright : Table.Removed table others right := h.sound.removed others
  have hsame := hleft.eq_withAvailable hright fun key => hperm.mem_iff
  refine ⟨hsame, ?_, ?_, ?_, hleft.denseLimit⟩
  · rw [hsame]
    exact left.agree_withAvailable _
  · rw [← hleft.sound.symbols_eq, Ledger.symbols, hleft.bindings]
  · rw [Table.storageKeys, ← hleft.sound.keys_eq, Ledger.keys, hleft.bindings]

/-- A removal below the dense limit first, and one above it first: the key that is available
    afterwards is another one, and nothing else is. -/
theorem removals_commute_of_dense :
    let table : Table (Hash.constant 0) :=
      .ofBindings "words" [("a", 0), ("b", 1), ("c", 2), ("low", -5)]
    let left := (table.removeAll [2, 1, 1, -1]).value.2
    let right := (table.removeAll [1, -1, 2, 1]).value.2
    Reachable table ∧ right = left.withAvailable right.availableKey ∧ left.Agree right ∧
      left.index.toList = ["a", "low"] ∧ left.storageKeys = [0, -5] ∧ left.denseLimit = 1 ∧
        left.availableKey = 1 ∧ right.availableKey = 2 := by
  intro table left right
  have h : Reachable table := reachable_ofBindings ..
  have hperm : ([2, 1, 1, -1] : List Key).Perm [1, -1, 2, 1] := by decide
  obtain ⟨hsame, hagree, hsymbols, hkeys, hlimit⟩ := h.removals_commute hperm
  exact ⟨h, hsame, hagree, hsymbols, hkeys, hlimit, by rfl, by rfl⟩

end Symtab
