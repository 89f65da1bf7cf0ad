import Symtab.Proofs.Index.Probing

/-!
# An index is a list of symbols

What the operations of an index do to the list of its symbols, whatever the hash function.
`Index.Sound` is what they keep: the buckets are a doubled number, lead to the symbols as a
search needs it, and are never more than three quarters full, so that a search always ends.

Main statements: `Sound.find?_eq_some_iff`, a symbol is found at its place in the list and
nowhere else; `Sound.insert_present` and `Sound.insert_absent`, an insertion leaves the list
or puts the symbol behind it; `Sound.remove_eq`, a removal erases one place of the list.
-/

set_option autoImplicit false

namespace Symtab.Index

variable {hash : Hash} {index : Index hash} {symbol : String} {position bucket : Nat}

/-- An index that the operations can have built. -/
structure Sound (index : Index hash) : Prop where
  /-- The buckets are as many as doubling gives. -/
  doubled : Doubled index.bucketCount
  /-- The mask goes with them. -/
  mask_eq : index.mask = index.bucketCount - 1
  /-- No symbol is stored twice. -/
  nodup : index.toList.Nodup
  /-- A search finds each symbol. -/
  filled : Filled hash index.buckets index.toList
  /-- At most three quarters of the buckets are occupied. -/
  load : index.size * 4 ≤ index.bucketCount * 3

@[simp] theorem length_toList (index : Index hash) : index.toList.length = index.size := rfl

theorem get?_eq (index : Index hash) (position : Nat) :
    index.get? position = index.toList[position]? := by
  rw [get?, toList, Array.getElem?_toList]

theorem sound_empty : Sound (empty : Index hash) where
  doubled := ⟨0, rfl⟩
  mask_eq := rfl
  nodup := List.nodup_nil
  filled := filled_replicate hash initialBuckets
  load := Nat.zero_le _

/-- Buckets filled anew are as good as those that grew with the symbols. -/
theorem sound_build {count : Nat} {symbols : List String} (hcount : Doubled count)
    (hnodup : symbols.Nodup) (load : symbols.length * 4 ≤ count * 3) :
    Sound (build count symbols.toArray : Index hash) where
  doubled := by rw [bucketCount, build, size_bucketsOf]; exact hcount
  mask_eq := by rw [bucketCount, build, size_bucketsOf]
  nodup := hnodup
  filled := filled_bucketsOf hcount (by have := hcount.pos; omega)
  load := by rw [bucketCount, build, size_bucketsOf]; exact load

namespace Sound

/-! ## Searching -/

theorem room (h : Sound index) : index.toList.length < index.buckets.size := by
  have hload := h.load
  have hpos := h.doubled.pos
  rw [length_toList]
  rw [bucketCount] at hload hpos
  omega

/-- A search gets past buckets that lead to other symbols. -/
theorem probe_passing (h : Sound index) (symbol : String) {steps : Nat} (hsteps : steps < index.bucketCount)
    (hpassed : ∀ earlier < steps, ∃ other stored,
      index.buckets[ahead index.bucketCount (hash symbol).toNat earlier]? = some (some other) ∧
        index.symbols[other]? = some stored ∧ stored ≠ symbol) :
    ∃ fuel, index.probe symbol =
      index.probeFrom symbol (fuel + 1)
        (ahead index.bucketCount (hash symbol).toNat steps) := by
  obtain ⟨fuel, hfuel⟩ := Nat.exists_eq_add_of_lt hsteps
  refine ⟨fuel, ?_⟩
  rw [← probeFrom_add h.doubled h.mask_eq hpassed, probe, h.mask_eq, home_eq h.doubled,
    ← Nat.add_assoc, ← hfuel]

/-- Where a symbol stands, a search meets it. -/
theorem probe_of_getElem? (h : Sound index) (hat : index.toList[position]? = some symbol) :
    index.probe symbol = .present position := by
  obtain ⟨steps, hsteps, hend, hbefore⟩ := h.filled.reached _ _ hat
  have hstored : index.symbols[position]? = some symbol := by
    rw [← hat, ← get?_eq, get?]
  obtain ⟨fuel, hprobe⟩ := h.probe_passing symbol hsteps (by
    intro earlier hearlier
    obtain ⟨other, hne, hled⟩ := hbefore earlier hearlier
    have hlt : other < index.symbols.size := h.filled.bounded _ _ hled
    refine ⟨other, index.symbols[other], hled, Array.getElem?_eq_getElem hlt, ?_⟩
    intro heq
    -- the symbols differ because the positions do
    refine hne ((List.getElem?_inj hlt h.nodup).mp ?_)
    have hother : index.toList[other]? = some symbol := by
      rw [← get?_eq, get?, Array.getElem?_eq_getElem hlt, heq]
    exact hother.trans hat.symm)
  rw [hprobe, probeFrom, bucketCount, hend]
  simp only [hstored, if_true]

/-- Where there is no such symbol, a search ends at the first empty bucket. -/
theorem probe_of_not_mem (h : Sound index) (hnot : symbol ∉ index.toList) :
    ∃ bucket, index.probe symbol = .vacant bucket ∧
      Vacates index.buckets (hash symbol).toNat bucket := by
  obtain ⟨bucket, hbucket⟩ := h.filled.exists_vacates h.room (hash symbol).toNat
  refine ⟨bucket, ?_, hbucket⟩
  obtain ⟨steps, hsteps, rfl, hvacant, hbefore⟩ := hbucket
  obtain ⟨fuel, hprobe⟩ := h.probe_passing symbol hsteps (by
    intro earlier hearlier
    obtain ⟨other, hled⟩ := hbefore earlier hearlier
    have hlt : other < index.symbols.size := h.filled.bounded _ _ hled
    refine ⟨other, index.symbols[other], hled, Array.getElem?_eq_getElem hlt, ?_⟩
    intro heq
    exact hnot (heq ▸ Array.getElem_mem_toList hlt))
  rw [hprobe, probeFrom, bucketCount, hvacant]

/-- **A symbol is found at its place in the list, and nowhere else.** -/
theorem find?_eq_some_iff (h : Sound index) :
    index.find? symbol = some position ↔ index.toList[position]? = some symbol := by
  constructor
  · intro hfind
    by_cases hmem : symbol ∈ index.toList
    · obtain ⟨other, hother⟩ := List.mem_iff_getElem?.mp hmem
      rw [find?, h.probe_of_getElem? hother] at hfind
      rw [← Option.some.inj hfind]
      exact hother
    · obtain ⟨bucket, hprobe, -⟩ := h.probe_of_not_mem hmem
      rw [find?, hprobe] at hfind
      exact absurd hfind (by simp)
  · intro hat
    rw [find?, h.probe_of_getElem? hat]

theorem find?_eq_none_iff (h : Sound index) :
    index.find? symbol = none ↔ symbol ∉ index.toList := by
  rw [List.mem_iff_getElem?, Option.eq_none_iff_forall_ne_some]
  constructor
  · intro hnone hex
    obtain ⟨position, hat⟩ := hex
    exact hnone position (h.find?_eq_some_iff.mpr hat)
  · intro hnot position hfind
    exact hnot ⟨position, h.find?_eq_some_iff.mp hfind⟩

/-! ## Changing -/

theorem grow_eq (h : Sound index) :
    Sound index.grow.value ∧ index.grow.value.toList = index.toList ∧
      index.size * 4 < index.grow.value.bucketCount * 3 := by
  have hload := h.load
  have hpos := h.doubled.pos
  by_cases hcrowded : index.isCrowded
  · have hbuild : index.grow.value = build (index.bucketCount * 2) index.toList.toArray := by
      rw [grow, if_pos hcrowded]
      rfl
    have hload' : index.toList.length * 4 ≤ index.bucketCount * 2 * 3 := by
      rw [length_toList]
      omega
    rw [hbuild]
    refine ⟨sound_build h.doubled.double h.nodup hload', rfl, ?_⟩
    rw [bucketCount, build, size_bucketsOf]
    omega
  · have hsame : index.grow.value = index := by
      rw [grow, if_neg hcrowded]
      rfl
    rw [hsame]
    refine ⟨h, rfl, ?_⟩
    rw [isCrowded, decide_eq_true_eq] at hcrowded
    omega

/-- **An insertion of a symbol that is present** leaves the list, and answers its place. -/
theorem insert_present (h : Sound index) (hat : index.toList[position]? = some symbol) :
    (index.insert symbol).value.position = position ∧
      (index.insert symbol).value.isNew = false ∧
      Sound (index.insert symbol).value.index ∧
      (index.insert symbol).value.index.toList = index.toList := by
  obtain ⟨hgrown, hlist, -⟩ := h.grow_eq
  have hprobe : index.grow.value.probe symbol = .present position :=
    hgrown.probe_of_getElem? (hlist ▸ hat)
  simp only [insert, Logged.value_bind, hprobe, Logged.value_pure, true_and]
  exact ⟨hgrown, hlist⟩

/-- **An insertion of a new symbol** puts it behind the others. -/
theorem insert_absent (h : Sound index) (hnot : symbol ∉ index.toList) :
    (index.insert symbol).value.position = index.size ∧
      (index.insert symbol).value.isNew = true ∧
      Sound (index.insert symbol).value.index ∧
      (index.insert symbol).value.index.toList = index.toList ++ [symbol] := by
  obtain ⟨hgrown, hlist, hspare⟩ := h.grow_eq
  generalize hindex : index.grow.value = grown at hgrown hlist hspare
  obtain ⟨bucket, hprobe, hvacates⟩ := hgrown.probe_of_not_mem (hlist ▸ hnot)
  have hsize : grown.size = index.size := congrArg List.length hlist
  have hplace : (index.insert symbol).value = grown.place symbol bucket := by
    simp only [insert, Logged.value_bind, hindex, hprobe, Logged.value_pure]
  have hfilled := hgrown.filled.put hvacates
  have hdvd := hgrown.doubled.four_dvd
  rw [hplace]
  obtain ⟨symbols, buckets, mask⟩ := grown
  have hpushed : (symbols.push symbol).toList = index.toList ++ [symbol] := by
    rw [Array.toList_push, ← hlist, toList]
  -- growing comes first, so the place is searched for in buckets that have room
  refine ⟨hsize, rfl, ⟨?_, ?_, ?_, ?_, ?_⟩, hpushed⟩
  · simpa [place, bucketCount] using hgrown.doubled
  · simpa [place, bucketCount] using hgrown.mask_eq
  · rw [place, toList, hpushed]
    exact List.nodup_append.mpr ⟨h.nodup, List.nodup_singleton _, by
      intro other hother third hthird heq
      rw [List.mem_singleton.mp hthird] at heq
      exact hnot (heq ▸ hother)⟩
  · simpa [place, toList] using hfilled
  · simp only [place, size, bucketCount, Array.size_push, Array.size_setIfInBounds]
      at hsize hspare hdvd ⊢
    omega

/-- **A removal** erases one place of the list, and answers what stood there. -/
theorem remove_eq (h : Sound index) (hat : index.toList[position]? = some symbol) :
    ∃ rest, index.remove position = some (symbol, rest) ∧ Sound rest ∧
      rest.toList = index.toList.eraseIdx position ∧ rest.bucketCount = index.bucketCount := by
  obtain ⟨hlt, hsymbol⟩ := List.getElem?_eq_some_iff.mp hat
  have hlt' : position < index.symbols.size := hlt
  have herase : index.symbols.eraseIdx position hlt' =
      (index.toList.eraseIdx position).toArray := by
    rw [← Array.toList_inj, Array.toList_eraseIdx]
    rfl
  have hload := h.load
  refine ⟨build index.bucketCount (index.toList.eraseIdx position).toArray, ?_, ?_, rfl, ?_⟩
  · have hstored : index.symbols[position] = symbol := hsymbol
    rw [remove, dif_pos hlt', herase, hstored]
  · refine sound_build h.doubled (h.nodup.sublist (List.eraseIdx_sublist ..)) ?_
    rw [List.length_eraseIdx_of_lt hlt, length_toList]
    omega
  · rw [bucketCount, build, size_bucketsOf]

theorem remove_eq_none (position : Nat) (hout : index.size ≤ position) :
    index.remove position = none :=
  dif_neg (Nat.not_lt.mpr hout)

end Sound

/-- A removal leaves buckets that were filled anew. -/
theorem eq_build_of_remove {rest : Index hash}
    (h : index.remove position = some (symbol, rest)) :
    rest = build index.bucketCount rest.symbols := by
  unfold remove at h
  split at h
  next =>
    obtain ⟨-, rfl⟩ := Prod.mk.inj (Option.some.inj h)
    rfl
  next => cases h

end Symtab.Index
