import Mathlib.Data.List.Nodup
import Symtab.KeyMap
import Symtab.Proofs.Key
import Symtab.Proofs.Places

/-!
# A key map is a list of keys

A key map holds one list of keys, in storage order, in three parts: a number that stands for
the keys of the dense range, an array of the other keys, and a map from these to their
positions.  `KeyMap.Sound` says that the parts fit together.  It is stated on the list
(`KeyMap.toList`), so that what a change does to the list is all there is to know of it.

Main statements: `Sound.position?_eq_some_iff`, looking a key up is finding it in the list;
`sound_record`, recording puts a key behind the list; `sound_remove`, removing erases one
place of it, on either side of the dense limit.
-/

set_option autoImplicit false

namespace Symtab

namespace KeyMap

variable {keys : KeyMap} {key : Key} {position : Nat}

/-! ## The list of keys -/

@[simp] theorem length_toList (keys : KeyMap) :
    keys.toList.length = keys.denseLimit + keys.sparseKeys.size := by
  simp [toList]

theorem getElem?_toList_of_lt (h : position < keys.denseLimit) :
    keys.toList[position]? = some (Key.ofPosition position) := by
  rw [toList, List.getElem?_append_left (by simpa using h), List.getElem?_map,
    List.getElem?_range h, Option.map_some]

theorem getElem?_toList_of_le (h : keys.denseLimit ≤ position) :
    keys.toList[position]? = keys.sparseKeys[position - keys.denseLimit]? := by
  rw [toList, List.getElem?_append_right (by simpa using h)]
  simp

theorem key?_eq (keys : KeyMap) (position : Nat) : keys.key? position = keys.toList[position]? := by
  by_cases h : position < keys.denseLimit
  · rw [key?, if_pos h, getElem?_toList_of_lt h]
  · rw [key?, if_neg h, getElem?_toList_of_le (Nat.le_of_not_lt h)]

/-- A key map whose parts fit together. -/
structure Sound (keys : KeyMap) : Prop where
  /-- The dense range ends at the greatest key at the latest. -/
  limit_le : keys.denseLimit ≤ 2 ^ 63
  /-- No key is there twice. -/
  nodup : keys.toList.Nodup
  /-- The ordered map leads to the places from the dense limit on. -/
  sparse_iff : ∀ (key : Key) (position : Nat), keys.sparse[key]? = some position ↔
    keys.denseLimit ≤ position ∧ keys.toList[position]? = some key

theorem sound_empty : Sound empty where
  limit_le := Nat.zero_le _
  nodup := List.nodup_nil
  sparse_iff := by simp [empty, toList]

/-- The key to hand out next is no part of what fits together. -/
theorem Sound.withAvailable (h : Sound keys) (available : Key) :
    Sound { keys with available } ∧ ({ keys with available } : KeyMap).toList = keys.toList :=
  ⟨⟨h.limit_le, h.nodup, h.sparse_iff⟩, rfl⟩

namespace Sound

/-- The dense keys are those of the first places. -/
theorem isDense_iff (h : Sound keys) :
    keys.IsDense key ↔ ∃ position < keys.denseLimit, key = Key.ofPosition position := by
  have hlimit := h.limit_le
  constructor
  · intro hdense
    exact ⟨_, hdense.2, (Key.ofPosition_toNatClampNeg hdense.1).symm⟩
  · intro hex
    obtain ⟨position, hlt, rfl⟩ := hex
    have hlt' : position < 2 ^ 63 := by omega
    exact ⟨Key.ofPosition_nonneg hlt', by rwa [Key.toNatClampNeg_ofPosition hlt']⟩

theorem unique (h : Sound keys) {other : Nat} (hat : keys.toList[position]? = some key)
    (hother : keys.toList[other]? = some key) : position = other := by
  obtain ⟨hlt, -⟩ := List.getElem?_eq_some_iff.mp hat
  exact (List.getElem?_inj hlt h.nodup).mp (hat.trans hother.symm)

/-- **Looking a key up is finding it in the list.** -/
theorem position?_eq_some_iff (h : Sound keys) :
    keys.position? key = some position ↔ keys.toList[position]? = some key := by
  have hlimit := h.limit_le
  by_cases hdense : keys.IsDense key
  · obtain ⟨own, hlt, rfl⟩ := h.isDense_iff.mp hdense
    rw [position?, if_pos hdense, Key.toNatClampNeg_ofPosition (by omega)]
    constructor
    · intro heq
      rw [← Option.some.inj heq]
      exact getElem?_toList_of_lt hlt
    · intro hat
      rw [h.unique (getElem?_toList_of_lt hlt) hat]
  · rw [position?, if_neg hdense, h.sparse_iff]
    constructor
    · exact And.right
    · intro hat
      refine ⟨Nat.le_of_not_lt ?_, hat⟩
      intro hlt
      rw [getElem?_toList_of_lt hlt] at hat
      exact hdense (h.isDense_iff.mpr ⟨position, hlt, (Option.some.inj hat).symm⟩)

theorem position?_eq_none_iff (h : Sound keys) :
    keys.position? key = none ↔ key ∉ keys.toList := by
  rw [List.mem_iff_getElem?, Option.eq_none_iff_forall_ne_some]
  constructor
  · intro hnone hex
    obtain ⟨position, hat⟩ := hex
    exact hnone position (h.position?_eq_some_iff.mpr hat)
  · intro hnot position hposition
    exact hnot ⟨position, h.position?_eq_some_iff.mp hposition⟩

end Sound

/-- **A key map is its list of keys and its dense range**, but for the available key. -/
theorem Sound.eq_withAvailable {left right : KeyMap} (h : Sound left) (hright : Sound right)
    (hlimit : left.denseLimit = right.denseLimit) (hlist : left.toList = right.toList) :
    right = { left with available := right.available } := by
  have hsparse : left.sparse = right.sparse := by
    refine Std.ExtTreeMap.ext_getElem? fun {key} => Option.ext fun position => ?_
    rw [h.sparse_iff, hright.sparse_iff, hlimit, hlist]
  have hkeys : left.sparseKeys = right.sparseKeys := by
    rw [toList, toList, hlimit] at hlist
    exact Array.toList_inj.mp (List.append_cancel_left hlist)
  obtain ⟨limit, sparse, sparseKeys, available⟩ := right
  obtain ⟨limit', sparse', sparseKeys', available'⟩ := left
  cases hlimit
  cases hsparse
  cases hkeys
  rfl

/-! ## Recording -/

/-- The next dense key at the next dense place only moves the limit. -/
theorem record_dense (hnonneg : 0 ≤ key) (hlimit : key.toNatClampNeg = keys.denseLimit) :
    keys.record key keys.denseLimit =
      ⟨keys.denseLimit + 1, keys.sparse, keys.sparseKeys, keys.available.afterAdding key⟩ :=
  if_pos ⟨hnonneg, hlimit, rfl⟩

theorem record_sparse (hcond : ¬(0 ≤ key ∧ key.toNatClampNeg = keys.denseLimit ∧
    position = keys.denseLimit)) :
    keys.record key position =
      ⟨keys.denseLimit, keys.sparse.insert key position, keys.sparseKeys.push key,
        keys.available.afterAdding key⟩ :=
  if_neg hcond

theorem available_record (keys : KeyMap) (key : Key) (position : Nat) :
    (keys.record key position).available = keys.available.afterAdding key := by
  by_cases hcond : 0 ≤ key ∧ key.toNatClampNeg = keys.denseLimit ∧ position = keys.denseLimit
  · obtain ⟨hnonneg, hlimit, rfl⟩ := hcond
    rw [record_dense hnonneg hlimit]
  · rw [record_sparse hcond]

theorem sound_record_dense (h : Sound keys) (hnot : key ∉ keys.toList) (hnonneg : 0 ≤ key)
    (hlimit : key.toNatClampNeg = keys.denseLimit) (hlast : keys.sparseKeys = #[]) :
    Sound (keys.record key keys.denseLimit) ∧
      (keys.record key keys.denseLimit).toList = keys.toList ++ [key] := by
  have hlength : keys.toList.length = keys.denseLimit := by
    rw [length_toList, hlast]
    rfl
  have hlist : (keys.record key keys.denseLimit).toList = keys.toList ++ [key] := by
    rw [record_dense hnonneg hlimit, toList, toList, hlast, List.range_succ, List.map_append,
      List.map_singleton, ← hlimit, Key.ofPosition_toNatClampNeg hnonneg]
    simp
  have hnodup : (keys.toList ++ [key]).Nodup := by
    rw [← List.concat_eq_append]
    exact h.nodup.concat hnot
  refine ⟨⟨?_, hlist ▸ hnodup, ?_⟩, hlist⟩
  · have hlt := key.toNatClampNeg_lt
    rw [record_dense hnonneg hlimit]
    simp only
    omega
  · intro other place
    rw [hlist, Places.getElem?_concat_eq_some_iff, hlength, record_dense hnonneg hlimit]
    simp only
    rw [h.sparse_iff]
    -- the dense range is the whole list, so nothing stands at a place past its limit
    constructor
    · intro hboth
      obtain ⟨hle, hat⟩ := hboth
      have := (List.getElem?_eq_some_iff.mp hat).1
      omega
    · intro hboth
      rcases hboth with ⟨hle, hat | ⟨heq, -⟩⟩
      · exact ⟨by omega, hat⟩
      · omega

theorem sound_record_sparse (h : Sound keys) (hnot : key ∉ keys.toList)
    (hcond : ¬(0 ≤ key ∧ key.toNatClampNeg = keys.denseLimit ∧
      keys.toList.length = keys.denseLimit)) :
    Sound (keys.record key keys.toList.length) ∧
      (keys.record key keys.toList.length).toList = keys.toList ++ [key] := by
  have hlist : (keys.record key keys.toList.length).toList = keys.toList ++ [key] := by
    rw [record_sparse hcond]
    simp [toList]
  have hnodup : (keys.toList ++ [key]).Nodup := by
    rw [← List.concat_eq_append]
    exact h.nodup.concat hnot
  have hlimit : keys.denseLimit ≤ keys.toList.length := by simp
  refine ⟨⟨?_, hlist ▸ hnodup, ?_⟩, hlist⟩
  · rw [record_sparse hcond]
    exact h.limit_le
  · intro other place
    rw [hlist, Places.getElem?_concat_eq_some_iff, record_sparse hcond]
    simp only [Std.ExtTreeMap.getElem?_insert, Std.LawfulEqOrd.compare_eq_iff_eq]
    by_cases hkey : key = other
    · subst hkey
      have hfree : ¬keys.toList[place]? = some key :=
        fun hat => hnot (List.mem_of_getElem? hat)
      rw [if_pos rfl, Option.some.injEq]
      constructor
      · intro heq
        subst heq
        exact ⟨hlimit, Or.inr ⟨rfl, rfl⟩⟩
      · intro hboth
        rcases hboth with ⟨-, hat | ⟨heq, -⟩⟩
        · exact absurd hat hfree
        · exact heq.symm
    · rw [if_neg hkey, h.sparse_iff]
      constructor
      · intro hboth
        obtain ⟨hle, hat⟩ := hboth
        exact ⟨hle, Or.inl hat⟩
      · intro hboth
        rcases hboth with ⟨hle, hat | ⟨-, heq⟩⟩
        · exact ⟨hle, hat⟩
        · exact absurd heq hkey

/-- **Recording a new key puts it behind the list.** -/
theorem sound_record (h : Sound keys) (hnot : key ∉ keys.toList) :
    Sound (keys.record key keys.toList.length) ∧
      (keys.record key keys.toList.length).toList = keys.toList ++ [key] := by
  by_cases hcond : 0 ≤ key ∧ key.toNatClampNeg = keys.denseLimit ∧
      keys.toList.length = keys.denseLimit
  · obtain ⟨hnonneg, hlimit, hend⟩ := hcond
    have hlast : keys.sparseKeys = #[] := by
      rw [length_toList] at hend
      exact Array.eq_empty_of_size_eq_zero (by omega)
    rw [hend]
    exact sound_record_dense h hnot hnonneg hlimit hlast
  · exact sound_record_sparse h hnot hcond

/-! ## Removing -/

theorem toList_cutDense (h : position < keys.denseLimit) :
    (keys.cutDense position).toList = keys.toList.eraseIdx position := by
  have hrange : List.range keys.denseLimit =
      List.range position ++ position :: keys.denseAfter position := by
    have hsplit : keys.denseLimit = position + (keys.denseLimit - (position + 1) + 1) := by omega
    rw [denseAfter, ← List.range'_succ, List.range_eq_range', List.range_eq_range']
    conv =>
      lhs
      rw [hsplit, ← List.range'_append_1]
    rw [Nat.zero_add]
  rw [toList, toList, hrange, List.map_append, List.map_cons, List.append_assoc,
    List.eraseIdx_append_of_length_le (by simp)]
  simp [cutDense]

theorem toList_cutSparse (key : Key) (h : keys.denseLimit ≤ position) :
    (keys.cutSparse key position).toList = keys.toList.eraseIdx position := by
  rw [toList, toList, List.eraseIdx_append_of_length_le (by simpa using h)]
  simp [cutSparse, Array.toList_eraseIdxIfInBounds]

theorem mem_denseAfter {other : Nat} (h : position < keys.denseLimit) :
    other ∈ keys.denseAfter position ↔ position < other ∧ other < keys.denseLimit := by
  rw [denseAfter, List.mem_range'_1]
  omega

/-- A key that was dense behind the removed one moves to the ordered map, one place lower. -/
theorem getElem?_cutDense_of_moved (h : Sound keys) {other : Nat} (hlt : position < other)
    (hother : other < keys.denseLimit) :
    (keys.cutDense position).sparse[Key.ofPosition other]? = some (other - 1) := by
  have hlimit := h.limit_le
  rw [cutDense]
  refine Std.ExtTreeMap.getElem?_insertMany_list_of_mem Std.ReflOrd.compare_self ?_ ?_
  · rw [List.pairwise_map]
    refine List.Pairwise.imp_of_mem ?_ List.pairwise_lt_range'
    intro first second hfirst hsecond hordered
    have hfirst' := ((mem_denseAfter (by omega)).mp hfirst).2
    have hsecond' := ((mem_denseAfter (by omega)).mp hsecond).2
    rw [Std.LawfulEqOrd.compare_eq_iff_eq, Key.ofPosition_inj (by omega) (by omega)]
    omega
  · exact List.mem_map.mpr ⟨other, (mem_denseAfter (by omega)).mpr ⟨hlt, hother⟩, rfl⟩

/-- Every other key stays in the ordered map, one place lower too. -/
theorem getElem?_cutDense_of_unmoved (hposition : position < keys.denseLimit)
    (hkey : ∀ other, position < other → other < keys.denseLimit → key ≠ Key.ofPosition other) :
    (keys.cutDense position).sparse[key]? = (keys.sparse[key]?).map (· - 1) := by
  rw [cutDense]
  simp only
  rw [Std.ExtTreeMap.getElem?_insertMany_list_of_contains_eq_false, Std.ExtTreeMap.getElem?_map]
  rw [List.map_map, Bool.eq_false_iff, Ne, List.contains_iff_mem, List.mem_map]
  intro hex
  obtain ⟨other, hother, rfl⟩ := hex
  obtain ⟨hlt, hlt'⟩ := (mem_denseAfter hposition).mp hother
  exact hkey other hlt hlt' rfl

theorem sound_cutDense (h : Sound keys) (hposition : position < keys.denseLimit) :
    Sound (keys.cutDense position) := by
  have hlimit := h.limit_le
  have hlist := toList_cutDense hposition
  have hlimit' : (keys.cutDense position).denseLimit = position := rfl
  refine ⟨?_, ?_, ?_⟩
  · rw [hlimit']
    omega
  · rw [hlist]
    exact h.nodup.sublist (List.eraseIdx_sublist ..)
  · intro key place
    rw [hlist, hlimit']
    -- the dense keys behind the removed one are new in the ordered map, all others were there
    by_cases hmoved : ∃ other, position < other ∧ other < keys.denseLimit ∧
        key = Key.ofPosition other
    · obtain ⟨other, hlt, hother, rfl⟩ := hmoved
      have hown := getElem?_toList_of_lt hother
      rw [getElem?_cutDense_of_moved h hlt hother, Option.some.injEq]
      constructor
      · intro heq
        subst heq
        refine ⟨by omega, Places.getElem?_eraseIdx_eq_some_iff.mpr (Or.inr ⟨by omega, ?_⟩)⟩
        rw [Nat.sub_add_cancel (by omega)]
        exact hown
      · intro hplace
        obtain ⟨hle, hat⟩ := hplace
        rw [List.getElem?_eraseIdx_of_ge hle] at hat
        have := h.unique hat hown
        omega
    · have hunmoved : ∀ other, position < other → other < keys.denseLimit →
          key ≠ Key.ofPosition other :=
        fun other hlt hother heq => hmoved ⟨other, hlt, hother, heq⟩
      rw [getElem?_cutDense_of_unmoved hposition hunmoved, Option.map_eq_some_iff]
      constructor
      · intro hkept
        obtain ⟨old, hold, rfl⟩ := hkept
        obtain ⟨hle, hat⟩ := (h.sparse_iff _ _).mp hold
        refine ⟨by omega, Places.getElem?_eraseIdx_eq_some_iff.mpr (Or.inr ⟨by omega, ?_⟩)⟩
        rw [Nat.sub_add_cancel (by omega)]
        exact hat
      · intro hplace
        obtain ⟨hle, hat⟩ := hplace
        rw [List.getElem?_eraseIdx_of_ge hle] at hat
        refine ⟨place + 1, (h.sparse_iff _ _).mpr ⟨?_, hat⟩, rfl⟩
        -- a key below the old limit would be one of those that moved
        by_contra hlt
        rw [getElem?_toList_of_lt (by omega)] at hat
        exact hunmoved (place + 1) (by omega) (by omega) (Option.some.inj hat).symm

/-- Where the keys of the ordered map stand once one of them is erased. -/
theorem getElem?_cutSparse {other : Key} (hkey : key ≠ other) (position : Nat) :
    (keys.cutSparse key position).sparse[other]? =
      (keys.sparse[other]?).map fun place => if position < place then place - 1 else place := by
  simp [cutSparse, Std.ExtTreeMap.getElem?_map, Std.ExtTreeMap.getElem?_erase, hkey]

theorem sound_cutSparse (h : Sound keys) (hposition : keys.denseLimit ≤ position)
    (hat : keys.toList[position]? = some key) : Sound (keys.cutSparse key position) := by
  have hlist := toList_cutSparse key hposition
  have hlimit : (keys.cutSparse key position).denseLimit = keys.denseLimit := rfl
  refine ⟨h.limit_le, ?_, ?_⟩
  · rw [hlist]
    exact h.nodup.sublist (List.eraseIdx_sublist ..)
  · intro other place
    rw [hlist, hlimit]
    by_cases hkey : key = other
    · subst hkey
      have herased : (keys.cutSparse key position).sparse[key]? = none := by
        simp [cutSparse]
      rw [herased]
      refine iff_of_false (by simp) ?_
      intro hplace
      exact Places.not_mem_eraseIdx h.nodup hat (List.mem_of_getElem? hplace.2)
    · rw [getElem?_cutSparse hkey, Option.map_eq_some_iff, Places.getElem?_eraseIdx_eq_some_iff]
      constructor
      · intro hkept
        obtain ⟨old, hold, rfl⟩ := hkept
        obtain ⟨hle, hold'⟩ := (h.sparse_iff _ _).mp hold
        by_cases hlt : position < old
        · rw [if_pos hlt, Nat.sub_add_cancel (by omega)]
          exact ⟨by omega, Or.inr ⟨by omega, hold'⟩⟩
        · have hne : old ≠ position := by
            intro heq
            subst heq
            exact hkey (Option.some.inj (hat.symm.trans hold'))
          rw [if_neg hlt]
          exact ⟨hle, Or.inl ⟨by omega, hold'⟩⟩
      · intro hplace
        obtain ⟨hle, hrest⟩ := hplace
        rcases hrest with hbefore | hbehind
        · exact ⟨place, (h.sparse_iff _ _).mpr ⟨hle, hbefore.2⟩, if_neg (by omega)⟩
        · refine ⟨place + 1, (h.sparse_iff _ _).mpr ⟨by omega, hbehind.2⟩, ?_⟩
          rw [if_pos (by omega), Nat.add_sub_cancel]

theorem sound_release (h : Sound keys) (key : Key) :
    Sound (keys.release key) ∧ (keys.release key).toList = keys.toList := by
  unfold release
  split
  · exact h.withAvailable key
  · exact ⟨h, rfl⟩

theorem available_release (keys : KeyMap) (key : Key) :
    (keys.release key).available = keys.available.afterRemoving key := by
  unfold release Key.afterRemoving
  split <;> rfl

/-- **Removing a key that is there erases its place in the list.** -/
theorem sound_remove (h : Sound keys) (hat : keys.toList[position]? = some key) :
    ∃ rest, keys.remove key = some (position, rest) ∧ Sound rest ∧
      rest.toList = keys.toList.eraseIdx position ∧
      rest.available = keys.available.afterRemoving key := by
  have hposition := h.position?_eq_some_iff.mpr hat
  rw [remove, hposition, Option.map_some]
  refine ⟨_, rfl, ?_⟩
  by_cases hdense : keys.IsDense key
  · have hlt : position < keys.denseLimit := by
      rw [position?, if_pos hdense] at hposition
      exact Option.some.inj hposition ▸ hdense.2
    rw [if_pos hdense]
    obtain ⟨hsound, hlist⟩ := sound_release (sound_cutDense h hlt) key
    exact ⟨hsound, hlist.trans (toList_cutDense hlt), available_release _ _⟩
  · have hle : keys.denseLimit ≤ position := by
      rw [position?, if_neg hdense] at hposition
      exact ((h.sparse_iff _ _).mp hposition).1
    rw [if_neg hdense]
    obtain ⟨hsound, hlist⟩ := sound_release (sound_cutSparse h hle hat) key
    exact ⟨hsound, hlist.trans (toList_cutSparse key hle), available_release _ _⟩

/-- Removing a key that is not there is refused. -/
theorem Sound.remove_eq_none (h : Sound keys) (hnot : key ∉ keys.toList) :
    keys.remove key = none := by
  rw [remove, h.position?_eq_none_iff.mpr hnot, Option.map_none]

end KeyMap
end Symtab
