import Symtab.Proofs.Table.Reach

/-!
# What the digests cover

The octets of the labeled digest are put together from the parts of the key map: first the
dense range, position by position, and then what the ordered map has above it.  Tables with the
same bindings can have different dense ranges, so it takes the invariant to see that the octets
depend on the bindings alone.

Main statements: `Sound.labeledOctets_eq`, the octets are those of the bindings from key zero
on, by key; and `Reachable.checksums_canonical`, by which the labeled digest is a function of
these bindings, and the content digest one of the symbols in storage order.
-/

set_option autoImplicit false

namespace Symtab

namespace Table

variable {hash left right : Hash} {table : Table hash} {symbol : String} {key : Key}

/-- The bindings that the labeled digest covers, by key. -/
def labeledPairs (table : Table hash) : List (Key × String) :=
  table.pairs.filter fun pair => 0 ≤ pair.1

/-- The octets of bindings in the labeled digest, one after another. -/
def joined (pairs : List (Key × String)) : List UInt8 :=
  pairs.flatMap fun pair => labeledEntry pair.1 pair.2

/-! ## Octets of the parts -/

theorem flatMap_filterMap {α β γ : Type} (list : List α) (f : α → Option β) (g : β → List γ) :
    (list.filterMap f).flatMap g = list.flatMap fun item => ((f item).map g).getD [] := by
  induction list with
  | nil => rfl
  | cons item rest ih =>
    rw [List.flatMap_cons, ← ih]
    cases hitem : f item with
    | none => rw [List.filterMap_cons_none hitem]; rfl
    | some image => rw [List.filterMap_cons_some hitem, List.flatMap_cons]; rfl

theorem joined_entries (table : Table hash) (entries : List (Key × Nat)) :
    joined (entries.filterMap table.entry?) = entries.flatMap fun entry =>
      ((table.index.get? entry.2).map (labeledEntry entry.1)).getD [] := by
  rw [joined, flatMap_filterMap]
  congr 1
  funext entry
  unfold entry?
  rw [Option.map_map]
  rfl

/-- The symbols of the first positions with their keys. -/
theorem zipIdx_take (symbols : List String) (count : Nat) :
    (symbols.take count).zipIdx.map (fun entry => (Key.ofPosition entry.2, entry.1)) =
      (List.range count).filterMap fun position =>
        symbols[position]?.map fun symbol => (Key.ofPosition position, symbol) := by
  induction count with
  | zero => rfl
  | succ count ih =>
    rw [List.range_succ, List.filterMap_append, ← ih, List.take_add_one, List.zipIdx_append,
      List.map_append]
    congr 1
    cases hat : symbols[count]? with
    | none => simp [hat]
    | some symbol =>
      obtain ⟨hlt, -⟩ := List.getElem?_eq_some_iff.mp hat
      have hlength : min count symbols.length = count := by omega
      simp [hat, hlength]

theorem denseOctets_eq (table : Table hash) :
    table.denseOctets = joined (table.keys.dense.filterMap table.entry?) := by
  have hdense : table.keys.dense.filterMap table.entry? =
      (table.index.toList.take table.denseLimit).zipIdx.map
        fun entry => (Key.ofPosition entry.2, entry.1) := by
    rw [zipIdx_take, KeyMap.dense, List.filterMap_map]
    congr 1
    funext position
    show table.entry? (Key.ofPosition position, position) = _
    unfold entry?
    rw [Index.get?_eq]
  rw [hdense, joined, List.flatMap_map]
  rfl

/-- What the ordered map has above the dense range is what it has from key zero on. -/
theorem Sound.sparseOctets_eq (h : Sound table) :
    table.sparseOctets = joined (table.keys.upper.filterMap table.entry?) := by
  rw [joined_entries, KeyMap.upper, ← List.filterMap_eq_filter, flatMap_filterMap, sparseOctets]
  refine List.flatMap_congr ?_
  intro pair hmem
  obtain ⟨key, position⟩ := pair
  by_cases hnonneg : 0 ≤ key
  · have hbound := h.keys.denseLimit_le_of_mem hmem hnonneg
    have hnot : ¬key.toInt < table.denseLimit := Int.not_lt.mpr hbound
    simp [hnonneg, hnot]
  -- a negative key is below the limit, whatever the limit is, and so left out too
  · have hneg : key.toInt < table.denseLimit := by
      rw [Int64.le_iff_toInt_le, Int64.toInt_zero] at hnonneg
      omega
    have hguard : Option.guard (fun entry : Key × Nat => 0 ≤ entry.1) (key, position) = none :=
      Option.guard_eq_none_iff.mpr (decide_eq_false hnonneg)
    rw [hguard]
    simp [hneg]

theorem exists_mem_of_mem_filterMap {entries : List (Key × Nat)} {pair : Key × String}
    (hmem : pair ∈ entries.filterMap table.entry?) :
    ∃ position, (pair.1, position) ∈ entries := by
  obtain ⟨⟨key, position⟩, hentry, hpair⟩ := List.mem_filterMap.mp hmem
  obtain ⟨_, -, rfl⟩ := Sound.entry?_eq_some_iff.mp hpair
  exact ⟨position, hentry⟩

theorem Sound.labeledPairs_eq (h : Sound table) :
    table.labeledPairs =
      table.keys.dense.filterMap table.entry? ++ table.keys.upper.filterMap table.entry? := by
  have hlimit := h.keys.limit_le
  have hnegative : (table.keys.negative.filterMap table.entry?).filter
      (fun pair => 0 ≤ pair.1) = [] := by
    refine List.filter_eq_nil_iff.mpr ?_
    intro pair hpair
    obtain ⟨position, hmem⟩ := exists_mem_of_mem_filterMap hpair
    simpa using (List.mem_filter.mp hmem).2
  have hdense : (table.keys.dense.filterMap table.entry?).filter (fun pair => 0 ≤ pair.1) =
      table.keys.dense.filterMap table.entry? := by
    refine List.filter_eq_self.mpr ?_
    intro pair hpair
    obtain ⟨position, hmem⟩ := exists_mem_of_mem_filterMap hpair
    obtain ⟨hlt, hat⟩ := KeyMap.mem_dense_iff.mp hmem
    rw [KeyMap.getElem?_toList_of_lt hlt] at hat
    rw [← Option.some.inj hat]
    exact decide_eq_true (Key.ofPosition_nonneg (Nat.lt_of_lt_of_le hlt hlimit))
  have hupper : (table.keys.upper.filterMap table.entry?).filter (fun pair => 0 ≤ pair.1) =
      table.keys.upper.filterMap table.entry? := by
    refine List.filter_eq_self.mpr ?_
    intro pair hpair
    obtain ⟨position, hmem⟩ := exists_mem_of_mem_filterMap hpair
    simpa using (List.mem_filter.mp hmem).2
  rw [labeledPairs, pairs, KeyMap.entries, List.filterMap_append, List.filterMap_append,
    List.filter_append, List.filter_append, hnegative, hdense, hupper, List.nil_append]

/-- **The labeled digest covers the bindings from key zero on, by key.** -/
theorem Sound.labeledOctets_eq (h : Sound table) :
    table.labeledOctets = joined table.labeledPairs := by
  rw [labeledOctets, denseOctets_eq, h.sparseOctets_eq, h.labeledPairs_eq, joined, joined, joined,
    List.flatMap_append]

theorem Sound.mem_labeledPairs_iff (h : Sound table) :
    (key, symbol) ∈ table.labeledPairs ↔ 0 ≤ key ∧ table.find? key = some symbol := by
  rw [labeledPairs, List.mem_filter, h.mem_pairs_iff, h.find?_eq, h.distinct.find?_eq_some_iff,
    decide_eq_true_eq, and_comm]

theorem Sound.labeledPairs_ascending (h : Sound table) :
    table.labeledPairs.Pairwise fun first second => first.1 < second.1 :=
  h.pairs_ascending.filter _

theorem Sound.labeledPairs_eq_iff {table : Table left} {other : Table right} (h : Sound table)
    (hother : Sound other) :
    table.labeledPairs = other.labeledPairs ↔
      ∀ key, 0 ≤ key → table.find? key = other.find? key := by
  constructor
  · intro hpairs key hnonneg
    apply Option.ext
    intro symbol
    have hiff : (key, symbol) ∈ table.labeledPairs ↔ _ := h.mem_labeledPairs_iff
    rw [hpairs, hother.mem_labeledPairs_iff] at hiff
    simpa [hnonneg] using hiff.symm
  · intro hsame
    refine Ledger.eq_of_ascending h.labeledPairs_ascending hother.labeledPairs_ascending ?_
    intro hex
    obtain ⟨key, symbol⟩ := hex
    rw [h.mem_labeledPairs_iff, hother.mem_labeledPairs_iff]
    constructor
    · intro hboth
      obtain ⟨hnonneg, hfind⟩ := hboth
      exact ⟨hnonneg, hsame key hnonneg ▸ hfind⟩
    · intro hboth
      obtain ⟨hnonneg, hfind⟩ := hboth
      exact ⟨hnonneg, hsame key hnonneg ▸ hfind⟩

/-- The symbol at a position is the one of the key there. -/
theorem Sound.symbol_at (h : Sound table) (position : Nat) :
    table.index.toList[position]? = (table.nthKey? position).bind table.find? := by
  apply Option.ext
  intro symbol
  rw [Option.bind_eq_some_iff, nthKey?, KeyMap.key?_eq]
  constructor
  · intro hat
    obtain ⟨key, hkey⟩ := h.exists_key hat
    refine ⟨key, hkey, ?_⟩
    rw [h.find?_eq, h.distinct.find?_eq_some_iff]
    exact Sound.mem_bindings_iff.mpr ⟨position, hat, hkey⟩
  · intro hex
    obtain ⟨key, hkey, hfind⟩ := hex
    rw [h.find?_eq, h.distinct.find?_eq_some_iff] at hfind
    obtain ⟨other, hat, hother⟩ := Sound.mem_bindings_iff.mp hfind
    rw [h.keys.unique hkey hother]
    exact hat

end Table

variable {left right : Hash}

/-- **The digests are functions of the bindings.**  The labeled digest covers the bindings from
    key zero on in ascending order of their keys, each as symbol, tab and key, and the content
    digest covers the symbols in storage order, each with a zero octet behind it.  So tables that
    bind these keys alike have one labeled digest, and tables that store the same symbols have
    one content digest. -/
theorem Reachable.checksums_canonical {table : Table left} {other : Table right}
    (h : Reachable table) (hother : Reachable other) :
    (table.labeledOctets = table.labeledPairs.flatMap
        (fun pair => Text.Utf8.encode (pair.2 ++ "\t" ++ pair.1.render)) ∧
      table.labeledPairs.Pairwise (fun first second => first.1 < second.1) ∧
      ∀ key symbol, (key, symbol) ∈ table.labeledPairs ↔
        0 ≤ key ∧ table.find? key = some symbol) ∧
    (table.contentOctets =
        table.index.toList.flatMap (fun symbol => Text.Utf8.encode symbol ++ [0]) ∧
      ∀ position, table.index.toList[position]? = (table.nthKey? position).bind table.find?) ∧
    table.checksums = ⟨Digest.Sha256.hash table.contentOctets,
      Digest.Sha256.hash table.labeledOctets⟩ ∧
    ((∀ key, 0 ≤ key → table.find? key = other.find? key) →
      table.checksums.labeled = other.checksums.labeled) ∧
    (table.index.toList = other.index.toList →
      table.checksums.content = other.checksums.content) := by
  have hsound := h.sound
  have hsound' := hother.sound
  refine ⟨⟨hsound.labeledOctets_eq, hsound.labeledPairs_ascending,
    fun _ _ => hsound.mem_labeledPairs_iff⟩, ⟨rfl, hsound.symbol_at⟩, hsound.checksums_eq, ?_, ?_⟩
  · intro hsame
    rw [hsound.checksums_eq, hsound'.checksums_eq, Table.computeChecksums, Table.computeChecksums,
      hsound.labeledOctets_eq, hsound'.labeledOctets_eq, (hsound.labeledPairs_eq_iff hsound').mpr hsame]
  · intro hsame
    rw [hsound.checksums_eq, hsound'.checksums_eq, Table.computeChecksums, Table.computeChecksums,
      Table.contentOctets, Table.contentOctets, hsame]

/-- The same bindings, once with a dense range and once without, have one labeled digest. -/
theorem checksums_canonical_of_order :
    let table : Table (Hash.constant 0) := .ofBindings "up" [("a", 0), ("b", 1)]
    let other : Table Hash.mixed := .ofBindings "down" [("b", 1), ("a", 0)]
    Reachable table ∧ Reachable other ∧ table.denseLimit = 2 ∧ other.denseLimit = 0 ∧
      table.checksums.labeled = other.checksums.labeled := by
  intro table other
  have h : Reachable table := reachable_ofBindings ..
  have hother : Reachable other := reachable_ofBindings ..
  refine ⟨h, hother, by rfl, by rfl, (h.checksums_canonical hother).2.2.2.1 ?_⟩
  have hbindings : table.ledger.bindings = [("a", 0), ("b", 1)] := by rfl
  have hbindings' : other.ledger.bindings = [("b", 1), ("a", 0)] := by rfl
  intro key _
  apply Option.ext
  intro symbol
  rw [h.sound.find?_eq, hother.sound.find?_eq, h.sound.distinct.find?_eq_some_iff,
    hother.sound.distinct.find?_eq_some_iff, hbindings, hbindings']
  simp [or_comm]

end Symtab
