import Symtab.Proofs.Table.Adding

/-!
# What merging does

Merging goes through the bindings of another table by their keys and adds each symbol.  The table
changes at every step, so whether a symbol is new and which key it gets is settled on the way; but
no symbol comes twice, so the new ones are those that were absent before the first step
(`Table.missing`), and as long as there is room the keys count up from the available one
(`Key.upFrom`).  They are free, since nothing but the greatest key is bound from the available key
on.

Main statement: `Reachable.merge_appends`.
-/

set_option autoImplicit false

namespace Symtab

/-! ## Keys in a row -/

namespace Key

/-- So many keys, each the next one of that before it. -/
def upFrom : Key → Nat → List Key
  | _, 0 => []
  | first, count + 1 => first :: upFrom first.succ count

theorem length_upFrom (first : Key) (count : Nat) : (upFrom first count).length = count := by
  induction count generalizing first with
  | zero => rfl
  | succ count ih => rw [upFrom, List.length_cons, ih]

theorem toInt_succ_of_lt {key : Key} (h : key.toInt + 1 ≤ greatest.toInt) :
    key.succ.toInt = key.toInt + 1 := by
  rw [toInt_succ, Int.min_eq_left h]

/-- **Keys in a row count up**, if there is room up to the greatest key. -/
theorem toInt_upFrom {first : Key} {count : Nat} (h : first.toInt + count ≤ greatest.toInt) :
    (upFrom first count).map Int64.toInt =
      (List.range count).map fun step : Nat => first.toInt + step := by
  induction count generalizing first with
  | zero => rfl
  | succ count ih =>
    have hnext : first.succ.toInt = first.toInt + 1 := toInt_succ_of_lt (by omega)
    have hshift : (fun step : Nat => first.succ.toInt + step) =
        (fun step : Nat => first.toInt + step) ∘ Nat.succ := by
      funext step
      simp only [Function.comp_apply, hnext]
      omega
    rw [upFrom, List.map_cons, ih (by omega), List.range_succ_eq_map, List.map_cons,
      List.map_map, hshift]
    simp

end Key

/-! ## Adding many symbols -/

namespace Ledger

variable {ledger : Ledger} {symbols : List String} {symbol : String}

/-- The symbols that are not there. -/
def absent (ledger : Ledger) (symbols : List String) : List String :=
  symbols.filter fun symbol => symbol ∉ ledger.symbols

theorem absent_cons_of_mem (h : symbol ∈ ledger.symbols) (rest : List String) :
    ledger.absent (symbol :: rest) = ledger.absent rest :=
  List.filter_cons_of_neg (by simpa using h)

theorem absent_cons_of_not_mem (h : symbol ∉ ledger.symbols) (rest : List String) :
    ledger.absent (symbol :: rest) = symbol :: ledger.absent rest :=
  List.filter_cons_of_pos (by simpa using h)

/-- A symbol that was put behind the others is no reason to leave out other symbols. -/
theorem absent_append (hnot : symbol ∉ symbols) (key : Key) :
    (ledger.append symbol key).absent symbols = ledger.absent symbols := by
  refine List.filter_congr fun other hother => ?_
  have hne : other ≠ symbol := fun heq => hnot (heq ▸ hother)
  refine decide_eq_decide.mpr (not_congr ?_)
  simp [Ledger.symbols, append, hne]

/-- **Adding symbols, none of them twice**, puts those that are absent behind the others, in
    order and under the keys from the available one on. -/
theorem addAll_eq_extend (hbelow : ledger.AheadBelowGreatest) (hnonneg : 0 ≤ ledger.available)
    (hnodup : symbols.Nodup)
    (hroom : ledger.available.toInt + (ledger.absent symbols).length ≤ Key.greatest.toInt) :
    ledger.addAll symbols = ledger.extend
      ((ledger.absent symbols).zip
        (Key.upFrom ledger.available (ledger.absent symbols).length)) ∧
    (ledger.addAll symbols).available.toInt =
      ledger.available.toInt + (ledger.absent symbols).length := by
  induction symbols generalizing ledger with
  | nil => exact ⟨rfl, by simp [addAll, absent]⟩
  | cons symbol rest ih =>
    obtain ⟨hnot, hnodup⟩ := List.nodup_cons.mp hnodup
    have hunreserved : ledger.available ≠ Key.noSymbol := by
      intro heq
      rw [heq] at hnonneg
      exact absurd hnonneg (by decide)
    have hstep : ledger.addAll (symbol :: rest) = (ledger.add symbol).2.addAll rest := rfl
    by_cases hmem : symbol ∈ ledger.symbols
    · obtain ⟨existing, hexisting⟩ := Option.ne_none_iff_exists'.mp
        (mt keyOf?_eq_none_iff.mp (not_not.mpr hmem))
      rw [absent_cons_of_mem hmem] at hroom ⊢
      rw [hstep, add, addWithKey_present hexisting hunreserved]
      exact ih hbelow hnonneg hnodup hroom
    · rw [absent_cons_of_not_mem hmem, List.length_cons] at hroom ⊢
      -- there is room, so the available key is not the greatest and free
      have hnext : ledger.available.succ.toInt = ledger.available.toInt + 1 :=
        Key.toInt_succ_of_lt (by omega)
      have hfree : ledger.available ∉ ledger.keys := by
        rw [available_mem_keys_iff hbelow]
        rintro ⟨hgreatest, -⟩
        rw [hgreatest] at hroom
        omega
      have havailable : (ledger.append symbol ledger.available).available =
          ledger.available.succ := if_pos Int64.le_rfl
      have hnonneg' : 0 ≤ (ledger.append symbol ledger.available).available :=
        Int64.le_trans hnonneg (Key.le_afterAdding ledger.available ledger.available)
      have habsent : (ledger.append symbol ledger.available).absent rest = ledger.absent rest :=
        absent_append hnot ledger.available
      obtain ⟨hrest, hlast⟩ := ih (hbelow.append symbol ledger.available) hnonneg' hnodup (by
        rw [habsent, havailable, hnext]
        omega)
      rw [habsent, havailable] at hrest
      rw [habsent, havailable, hnext] at hlast
      rw [hstep, add, addWithKey_absent hmem hfree hunreserved]
      refine ⟨hrest, ?_⟩
      rw [hlast]
      omega

end Ledger

namespace Table

variable {hash other : Hash} {table : Table hash} {symbols : List String}

/-- What putting bindings behind the others of a ledger is to a table. -/
theorem Sound.lists_of_ledger {next : Table hash} {keys : List Key} (h : table.Sound)
    (hnext : next.Sound) (hlength : symbols.length = keys.length)
    (hledger : next.ledger = table.ledger.extend (symbols.zip keys)) :
    next.name = table.name ∧ next.index.toList = table.index.toList ++ symbols ∧
      next.storageKeys = table.storageKeys ++ keys := by
  refine ⟨(congrArg Ledger.name hledger).trans (Ledger.name_extend ..), ?_, ?_⟩
  · rw [← h.symbols_eq, ← hnext.symbols_eq, hledger, Ledger.symbols, Ledger.bindings_extend,
      List.map_append, List.map_fst_zip (Nat.le_of_eq hlength)]
    rfl
  · rw [storageKeys, storageKeys, ← h.keys_eq, ← hnext.keys_eq, hledger, Ledger.keys,
      Ledger.bindings_extend, List.map_append, List.map_snd_zip (Nat.le_of_eq hlength.symm)]
    rfl

/-- Adding symbols that are present changes nothing. -/
theorem Sound.addAll_present (h : table.Sound)
    (hpresent : ∀ symbol ∈ symbols, symbol ∈ table.index.toList) :
    (table.addAll symbols).value.2 = table := by
  induction symbols with
  | nil => rfl
  | cons symbol rest ih =>
    obtain ⟨hfirst, hrest⟩ := List.forall_mem_cons.mp hpresent
    rw [← h.symbols_eq, ← h.containsSymbol_iff] at hfirst
    obtain ⟨existing, hexisting⟩ := Option.isSome_iff_exists.mp hfirst
    show ((table.add symbol).value.2.addAll rest).value.2 = table
    rw [Table.add, h.addWithKey_present hexisting]
    exact ih hrest

/-- The bindings of another table whose symbols a table does not have, by key. -/
def missing (table : Table hash) (source : Table other) : List (Key × String) :=
  source.pairs.filter fun pair => !table.containsSymbol pair.2

/-- No symbol is met twice on the way through the bindings. -/
theorem Sound.nodup_symbols_of_pairs (h : table.Sound) : (table.pairs.map Prod.snd).Nodup := by
  have hperm : (table.pairs.map Prod.snd).Perm table.ledger.symbols := by
    rw [h.pairs_eq]
    refine (table.ledger.ascending_perm.map Prod.snd).trans ?_
    rw [List.map_map]
    rfl
  exact hperm.nodup_iff.mpr h.distinct.symbols

theorem Sound.missing_eq (h : table.Sound) (source : Table other) :
    (table.missing source).map Prod.snd =
      table.ledger.absent (source.pairs.map Prod.snd) := by
  rw [Ledger.absent, List.filter_map, missing]
  congr 1
  refine List.filter_congr fun pair _ => ?_
  rw [Bool.eq_iff_iff, Function.comp_apply, decide_eq_true_eq, ← h.containsSymbol_iff]
  simp

theorem Sound.mem_missing_iff {source : Table other} (hsource : source.Sound) {key : Key}
    {symbol : String} :
    (key, symbol) ∈ table.missing source ↔
      source.find? key = some symbol ∧ table.containsSymbol symbol = false := by
  rw [missing, List.mem_filter, hsource.mem_pairs_iff, hsource.find?_eq,
    hsource.distinct.find?_eq_some_iff]
  simp

end Table

variable {hash other : Hash}

/-- **Merging adds the symbols that are missing**, by their keys in the other table, behind the
    symbols of the table and under the keys from the available one on, as long as there is room up
    to the greatest key.  Nothing else changes, and merging once more changes nothing at all.  The
    other table may as well be a frozen one. -/
theorem Reachable.merge_appends {table : Table hash} {source : Table other}
    (h : Reachable table) (hsource : Reachable source) (hnonneg : 0 ≤ table.availableKey)
    (hroom : table.availableKey.toInt + (table.missing source).length ≤ Key.greatest.toInt) :
    let new := table.missing source
    let merged := (table.merge source).value
    (∀ key symbol, (key, symbol) ∈ new ↔
      source.find? key = some symbol ∧ table.containsSymbol symbol = false) ∧
    (new.Pairwise fun first second => first.1 < second.1) ∧
    merged.name = table.name ∧
    merged.index.toList = table.index.toList ++ new.map Prod.snd ∧
    (∃ keys, merged.storageKeys = table.storageKeys ++ keys ∧
      keys.map Int64.toInt =
        (List.range new.length).map fun step : Nat => table.availableKey.toInt + step) ∧
    merged.availableKey.toInt = table.availableKey.toInt + new.length ∧
    (merged.merge source).value = merged ∧
    table.merge source.freeze.table = table.merge source := by
  intro new merged
  have hsound := h.sound
  have hmissing : table.ledger.absent (source.pairs.map Prod.snd) = new.map Prod.snd :=
    (hsound.missing_eq source).symm
  have hbelow := h.invariant Ledger.aheadBelowGreatest_invariant
  obtain ⟨hadded, havailable⟩ :=
    Ledger.addAll_eq_extend hbelow hnonneg hsource.sound.nodup_symbols_of_pairs
      (by rw [hmissing, List.length_map]; exact hroom)
  obtain ⟨hmerged, hledger⟩ : merged.Sound ∧ merged.ledger = _ := hsound.addAll _
  rw [← hledger, hmissing, List.length_map] at hadded havailable
  obtain ⟨hname, hsymbols, hkeys⟩ :=
    hsound.lists_of_ledger hmerged (by rw [Key.length_upFrom, List.length_map]) hadded
  -- every symbol of the other table is present now: it was before, or it is one of the new ones
  have hpresent : ∀ symbol ∈ source.pairs.map Prod.snd, symbol ∈ merged.index.toList := by
    intro symbol hsymbol
    rw [hsymbols, ← hmissing, List.mem_append, ← hsound.symbols_eq]
    by_cases hmem : symbol ∈ table.ledger.symbols
    · exact Or.inl hmem
    · exact Or.inr (List.mem_filter.mpr ⟨hsymbol, decide_eq_true hmem⟩)
  exact ⟨fun key symbol => hsource.sound.mem_missing_iff,
    hsource.sound.pairs_ascending.filter _, hname, hsymbols,
    ⟨_, hkeys, Key.toInt_upFrom hroom⟩, havailable, hmerged.addAll_present hpresent, rfl⟩

/-- Of three symbols one is present, and the other two come in the order of their keys. -/
theorem merge_appends_of_three :
    let table : Table (Hash.constant 0) := .ofBindings "words" [("b", 7), ("a", -3)]
    let source : Table Hash.mixed := .ofBindings "more" [("z", 5), ("b", 1), ("y", -9)]
    let merged := (table.merge source).value
    Reachable table ∧ Reachable source ∧ table.availableKey = 8 ∧
      merged.index.toList = ["b", "a", "y", "z"] ∧ merged.storageKeys = [7, -3, 8, 9] ∧
        merged.availableKey = 10 ∧ (merged.merge source).value = merged := by
  intro table source merged
  have h : Reachable table := reachable_ofBindings ..
  have hsource : Reachable source := reachable_ofBindings ..
  have hsymbols : table.ledger.symbols = ["b", "a"] := by rfl
  have hbindings : source.ledger.bindings = [("z", 5), ("b", 1), ("y", -9)] := by rfl
  have hmissing : table.missing source = [(-9, "y"), (5, "z")] := by
    refine Ledger.eq_of_ascending (hsource.sound.pairs_ascending.filter _) (by decide) ?_
    rintro ⟨key, symbol⟩
    rw [hsource.sound.mem_missing_iff, hsource.sound.find?_eq,
      hsource.sound.distinct.find?_eq_some_iff, hbindings, ← Bool.not_eq_true,
      h.sound.containsSymbol_iff, hsymbols]
    simp only [List.mem_cons, Prod.mk.injEq, List.not_mem_nil, or_false]
    constructor
    · rintro ⟨⟨rfl, rfl⟩ | ⟨rfl, rfl⟩ | ⟨rfl, rfl⟩, hnot⟩
      · exact Or.inr ⟨rfl, rfl⟩
      · exact absurd (Or.inl rfl) hnot
      · exact Or.inl ⟨rfl, rfl⟩
    · rintro (⟨rfl, rfl⟩ | ⟨rfl, rfl⟩)
      · exact ⟨Or.inr (Or.inr ⟨rfl, rfl⟩), by decide⟩
      · exact ⟨Or.inl ⟨rfl, rfl⟩, by decide⟩
  have hroom : table.availableKey.toInt + (table.missing source).length ≤
      Key.greatest.toInt := by
    rw [hmissing]
    decide
  obtain ⟨-, -, -, hmerged, ⟨keys, hkeys, hnumbers⟩, havailable, hagain, -⟩ :=
    h.merge_appends hsource (by decide) hroom
  rw [hmissing] at hmerged hnumbers havailable
  have hnew : keys = [8, 9] :=
    List.map_injective_iff.mpr (fun _ _ heq => Int64.toInt_inj.mp heq) hnumbers
  rw [hnew] at hkeys
  exact ⟨h, hsource, rfl, hmerged, hkeys, Int64.toInt_inj.mp havailable, hagain⟩

end Symtab
