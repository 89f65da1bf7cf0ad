import Symtab.Proofs.KeyMap.Soundness

/-!
# The keys in ascending order

A key map lists its keys in ascending order without sorting them (`KeyMap.entries`): first the
negative keys of the ordered map, then the dense range, then the rest of the ordered map.  That
this is in order needs the invariant, which keeps the ordered map out of the dense range.

Main statements: `Sound.entries_ascending` and `Sound.mem_entries_iff`.
-/

set_option autoImplicit false

namespace Symtab.KeyMap

variable {keys : KeyMap} {key : Key} {position : Nat}

theorem mem_dense_iff :
    (key, position) ∈ keys.dense ↔
      position < keys.denseLimit ∧ keys.toList[position]? = some key := by
  rw [dense, List.mem_map]
  constructor
  · intro hex
    obtain ⟨place, hplace, heq⟩ := hex
    obtain ⟨rfl, rfl⟩ := Prod.mk.inj heq
    have hlt := List.mem_range.mp hplace
    exact ⟨hlt, getElem?_toList_of_lt hlt⟩
  · intro hboth
    obtain ⟨hlt, hat⟩ := hboth
    rw [getElem?_toList_of_lt hlt] at hat
    exact ⟨position, List.mem_range.mpr hlt, by rw [Option.some.inj hat]⟩

namespace Sound

theorem mem_sparse_iff (h : Sound keys) :
    (key, position) ∈ keys.sparse.toList ↔
      keys.denseLimit ≤ position ∧ keys.toList[position]? = some key := by
  rw [Std.ExtTreeMap.mem_toList_iff_getElem?_eq_some, h.sparse_iff]

/-- A key of the ordered map is negative or past the dense range. -/
theorem denseLimit_le_of_mem (h : Sound keys) (hmem : (key, position) ∈ keys.sparse.toList)
    (hnonneg : 0 ≤ key) : (keys.denseLimit : Int) ≤ key.toInt := by
  obtain ⟨hle, hat⟩ := h.mem_sparse_iff.mp hmem
  by_contra hlt
  have hdense : keys.IsDense key := by
    refine ⟨hnonneg, ?_⟩
    rw [Int64.toInt_eq_toNatClampNeg hnonneg] at hlt
    omega
  obtain ⟨place, hplace, rfl⟩ := h.isDense_iff.mp hdense
  have := h.unique hat (getElem?_toList_of_lt hplace)
  omega

/-- **Every key is listed with its position.** -/
theorem mem_entries_iff (h : Sound keys) :
    (key, position) ∈ keys.entries ↔ keys.toList[position]? = some key := by
  rw [entries, List.mem_append, List.mem_append, negative, upper, List.mem_filter,
    List.mem_filter, mem_dense_iff, h.mem_sparse_iff]
  simp only [decide_eq_true_eq]
  constructor
  · rintro ((⟨⟨-, hat⟩, -⟩ | ⟨-, hat⟩) | ⟨⟨-, hat⟩, -⟩) <;> exact hat
  · intro hat
    by_cases hlt : position < keys.denseLimit
    · exact Or.inl (Or.inr ⟨hlt, hat⟩)
    · have hle := Nat.le_of_not_lt hlt
      by_cases hneg : key < 0
      · exact Or.inl (Or.inl ⟨⟨hle, hat⟩, hneg⟩)
      · exact Or.inr ⟨⟨hle, hat⟩, Int64.not_lt.mp hneg⟩

theorem sparse_ascending (keys : KeyMap) :
    keys.sparse.toList.Pairwise fun first second => first.1 < second.1 :=
  Std.ExtTreeMap.ordered_keys_toList.imp fun h => Std.compare_eq_lt.mp h

theorem dense_ascending (h : Sound keys) :
    keys.dense.Pairwise fun first second => first.1 < second.1 := by
  have hlimit := h.limit_le
  rw [dense, List.pairwise_map]
  refine List.Pairwise.imp_of_mem ?_ List.pairwise_lt_range
  intro first second hfirst hsecond hlt
  have hfirst' := List.mem_range.mp hfirst
  have hsecond' := List.mem_range.mp hsecond
  rw [Int64.lt_iff_toInt_lt, Key.toInt_ofPosition (by omega), Key.toInt_ofPosition (by omega)]
  omega

/-- **The keys are listed in ascending order.** -/
theorem entries_ascending (h : Sound keys) :
    keys.entries.Pairwise fun first second => first.1 < second.1 := by
  have hlimit := h.limit_le
  have hsparse := sparse_ascending keys
  rw [entries, List.pairwise_append, List.pairwise_append]
  refine ⟨⟨hsparse.filter _, h.dense_ascending, ?_⟩, hsparse.filter _, ?_⟩
  · intro low hfirst high hsecond
    obtain ⟨first, _⟩ := low
    obtain ⟨second, place⟩ := high
    have hneg : first < 0 := by simpa using (List.mem_filter.mp hfirst).2
    obtain ⟨hlt, hat⟩ := mem_dense_iff.mp hsecond
    rw [getElem?_toList_of_lt hlt] at hat
    exact Int64.lt_of_lt_of_le hneg (Option.some.inj hat ▸ Key.ofPosition_nonneg (by omega))
  · intro low hfirst high hsecond
    obtain ⟨first, place⟩ := low
    obtain ⟨second, _⟩ := high
    obtain ⟨hmem, hnonneg⟩ := List.mem_filter.mp hsecond
    have hnonneg' : 0 ≤ second := by simpa using hnonneg
    rcases List.mem_append.mp hfirst with hfirst | hfirst
    · have hneg : first < 0 := by simpa using (List.mem_filter.mp hfirst).2
      exact Int64.lt_of_lt_of_le hneg hnonneg'
    · obtain ⟨hlt, hat⟩ := mem_dense_iff.mp hfirst
      have hbound := h.denseLimit_le_of_mem hmem hnonneg'
      rw [getElem?_toList_of_lt hlt] at hat
      rw [← Option.some.inj hat, Int64.lt_iff_toInt_lt, Key.toInt_ofPosition (by omega)]
      show (place : Int) < second.toInt
      omega

/-- Every place of the list of keys is listed once. -/
theorem length_entries (h : Sound keys) :
    keys.entries.length = keys.toList.length := by
  have hnodup : keys.entries.Nodup := by
    refine h.entries_ascending.imp fun {first second} hlt heq => ?_
    subst heq
    exact Int64.lt_irrefl hlt
  have hplaces : keys.toList.zipIdx.Nodup := by
    refine List.Nodup.of_map Prod.fst ?_
    rw [List.zipIdx_map_fst]
    exact h.nodup
  have hperm : keys.entries.Perm keys.toList.zipIdx := by
    refine (List.perm_ext_iff_of_nodup hnodup hplaces).mpr fun ⟨key, position⟩ => ?_
    rw [h.mem_entries_iff, List.mem_zipIdx_iff_getElem?]
  rw [hperm.length_eq, List.length_zipIdx]

end Sound
end Symtab.KeyMap
