import Symtab.Proofs.KeyMap.Order

/-!
# Key maps in use

A key map does not know how many keys it holds: whoever uses it counts them, records each new key
for the position behind all others, and counts one less when a removal was not refused (`Tally`).
What holds of key maps in use therefore rests on two things the key map does not check, that a
recorded key is new and that the count is right.  The first is a condition on the edits
(`Tally.Permits`), and the second follows from it.

What the edits come to is said on a plain list (`Edit.onList`): recording puts a key behind it,
removing erases one.  `Represents` is all that ties a key map to such a list: its lookups, how long
its parts are, and that they agree.

Main statement: `edits_represented`.
-/

set_option autoImplicit false

namespace Symtab.KeyMap

variable {keys rest : KeyMap} {key : Key} {position : Nat}

/-! ## What a key map represents -/

/-- **A key map represents keys**, which are held in this order. -/
structure Represents (keys : KeyMap) (held : List Key) : Prop where
  /-- The keys that are held have a position, and no others. -/
  held_iff : ∀ key, key ∈ held ↔ (keys.position? key).isSome
  /-- The positions that have a key are as many as the keys. -/
  position_iff : ∀ position, position < held.length ↔ (keys.key? position).isSome
  /-- Position and key lead to each other. -/
  inverse : ∀ key position, keys.position? key = some position ↔ keys.key? position = some key
  /-- The keys stand in this order. -/
  ordered : ∀ position, keys.key? position = held[position]?
  limit_le : keys.denseLimit ≤ held.length
  /-- The ordered map has one entry for each position behind the dense range. -/
  size_sparse : keys.sparse.size = held.length - keys.denseLimit
  /-- The array of keys has one entry for each of these positions. -/
  size_sparseKeys : keys.sparseKeys.size = held.length - keys.denseLimit
  /-- The ordered map and the array agree. -/
  agree : ∀ key position, keys.sparse[key]? = some position ↔
    keys.denseLimit ≤ position ∧ keys.sparseKeys[position - keys.denseLimit]? = some key
  /-- No dense key is in the ordered map. -/
  not_mem_sparse : ∀ key : Key, 0 ≤ key.toInt → key.toInt < keys.denseLimit → key ∉ keys.sparse

/-- The ordered map holds what is neither dense nor more than once there. -/
theorem Sound.size_sparse (h : Sound keys) :
    keys.sparse.size = keys.toList.length - keys.denseLimit := by
  have hentries := h.length_entries
  have hsplit := keys.sparse.toList.length_eq_length_filter_add fun entry => entry.1 < 0
  have hupper : keys.sparse.toList.filter (fun entry => !decide (entry.1 < 0)) = keys.upper := by
    refine List.filter_congr fun entry _ => ?_
    rw [← decide_not]
    simp only [Int64.not_lt]
  rw [hupper, Std.ExtTreeMap.length_toList] at hsplit
  rw [entries, List.length_append, List.length_append, dense, List.length_map,
    List.length_range] at hentries
  rw [negative] at hentries
  omega

theorem Sound.represents (h : Sound keys) : keys.Represents keys.toList where
  held_iff := by
    intro key
    rw [← not_iff_not, ← h.position?_eq_none_iff, Option.not_isSome_iff_eq_none]
  position_iff := by
    intro position
    simp [key?_eq]
  inverse := by
    intro key position
    rw [key?_eq, h.position?_eq_some_iff]
  ordered := key?_eq keys
  limit_le := by simp
  size_sparse := h.size_sparse
  size_sparseKeys := by simp
  agree := by
    intro key position
    rw [h.sparse_iff]
    refine and_congr_right fun hle => ?_
    rw [getElem?_toList_of_le hle]
  not_mem_sparse := by
    intro key hnonneg hlt hmem
    rw [Std.ExtTreeMap.mem_iff_isSome_getElem?, Option.isSome_iff_exists] at hmem
    obtain ⟨position, hat⟩ := hmem
    have hle := h.denseLimit_le_of_mem (Std.ExtTreeMap.mem_toList_iff_getElem?_eq_some.mpr hat)
      (Int64.le_iff_toInt_le.mpr hnonneg)
    omega

/-! ## Edits -/

inductive Edit where
  /-- Records a key for the position behind all others. -/
  | record (key : Key)
  | remove (key : Key)
deriving DecidableEq, Repr

/-- What becomes of the keys held, in storage order. -/
def Edit.onList (held : List Key) : Edit → List Key
  | .record key => held ++ [key]
  | .remove key => held.erase key

/-- A key that is recorded must not be there; any key may be removed. -/
def Edit.Permitted (keys : KeyMap) : Edit → Prop
  | .record key => keys.position? key = none
  | .remove _ => True

instance (keys : KeyMap) : (edit : Edit) → Decidable (edit.Permitted keys)
  | .record key => inferInstanceAs (Decidable (keys.position? key = none))
  | .remove _ => inferInstanceAs (Decidable True)

/-- A key map, with the number of keys that were recorded and not removed since. -/
structure Tally where
  keys : KeyMap
  count : Nat

namespace Tally

def empty : Tally := ⟨.empty, 0⟩

def edit (tally : Tally) : Edit → Tally
  | .record key => ⟨tally.keys.record key tally.count, tally.count + 1⟩
  | .remove key =>
    match tally.keys.remove key with
    | none => tally
    | some (_, rest) => ⟨rest, tally.count - 1⟩

def run (tally : Tally) (edits : List Edit) : Tally := edits.foldl edit tally

/-- Each edit is permitted after those before it. -/
def Permits : Tally → List Edit → Prop
  | _, [] => True
  | tally, edit :: rest => edit.Permitted tally.keys ∧ (tally.edit edit).Permits rest

instance decidablePermits : (tally : Tally) → (edits : List Edit) → Decidable (tally.Permits edits)
  | _, [] => inferInstanceAs (Decidable True)
  | tally, edit :: rest =>
    have := decidablePermits (tally.edit edit) rest
    inferInstanceAs (Decidable (_ ∧ _))

/-- The parts of the key map fit together, and the count is that of its keys. -/
structure Sound (tally : Tally) : Prop where
  keys : tally.keys.Sound
  count_eq : tally.count = tally.keys.toList.length

variable {tally : Tally}

theorem sound_empty : Sound empty where
  keys := KeyMap.sound_empty
  count_eq := rfl

theorem Sound.record (h : Sound tally) (hnew : tally.keys.position? key = none) :
    Sound (tally.edit (.record key)) ∧
      (tally.edit (.record key)).keys.toList = tally.keys.toList ++ [key] := by
  obtain ⟨hsound, hlist⟩ := sound_record h.keys (h.keys.position?_eq_none_iff.mp hnew)
  rw [← h.count_eq] at hsound hlist
  refine ⟨⟨hsound, ?_⟩, hlist⟩
  rw [edit, hlist, List.length_append, List.length_singleton, h.count_eq]

theorem Sound.remove (h : Sound tally) (key : Key) :
    Sound (tally.edit (.remove key)) ∧
      (tally.edit (.remove key)).keys.toList = tally.keys.toList.erase key := by
  rw [edit, List.erase_eq_eraseIdx]
  cases hposition : tally.keys.position? key with
  | none =>
    have hnot := h.keys.position?_eq_none_iff.mp hposition
    rw [h.keys.remove_eq_none hnot, List.idxOf?_eq_none_iff.mpr hnot]
    exact ⟨h, rfl⟩
  | some position =>
    have hat := h.keys.position?_eq_some_iff.mp hposition
    obtain ⟨rest, hremove, hsound, hlist, -⟩ := sound_remove h.keys hat
    rw [hremove, (Places.idxOf?_eq_some_iff h.keys.nodup).mpr hat]
    refine ⟨⟨hsound, ?_⟩, hlist⟩
    obtain ⟨hlt, -⟩ := List.getElem?_eq_some_iff.mp hat
    rw [hlist, List.length_eraseIdx_of_lt hlt, h.count_eq]

/-- **An edit does to the keys what it does to their list.** -/
theorem Sound.edit (h : Sound tally) {edit : Edit} (hpermitted : edit.Permitted tally.keys) :
    Sound (tally.edit edit) ∧ (tally.edit edit).keys.toList = edit.onList tally.keys.toList := by
  cases edit with
  | record key => exact h.record hpermitted
  | remove key => exact h.remove key

/-- **And so do edits one after the other.** -/
theorem Sound.run (h : Sound tally) {edits : List Edit} (hpermits : tally.Permits edits) :
    Sound (tally.run edits) ∧
      (tally.run edits).keys.toList = edits.foldl Edit.onList tally.keys.toList := by
  induction edits generalizing tally with
  | nil => exact ⟨h, rfl⟩
  | cons edit edits ih =>
    obtain ⟨hsound, hlist⟩ := h.edit hpermits.1
    obtain ⟨hsound', hlist'⟩ := ih hsound hpermits.2
    refine ⟨hsound', ?_⟩
    rw [List.foldl_cons, ← hlist]
    exact hlist'

end Tally

/-! ## What a removal does to the other keys -/

/-- Where one place is erased from the list, its key has no position any more, the keys behind it
    move down by one, and all others stay, on either side of the dense limit. -/
theorem Sound.position?_of_erased (h : Sound keys) (hrest : Sound rest)
    (hlist : rest.toList = keys.toList.eraseIdx position)
    (hat : keys.toList[position]? = some key) :
    rest.position? key = none ∧ ∀ other, other ≠ key → rest.position? other =
      (keys.position? other).map fun place => if position < place then place - 1 else place := by
  refine ⟨hrest.position?_eq_none_iff.mpr (hlist ▸ Places.not_mem_eraseIdx h.nodup hat), ?_⟩
  intro other hne
  refine Option.ext fun place => ?_
  rw [hrest.position?_eq_some_iff, hlist, Places.getElem?_eraseIdx_eq_some_iff,
    Option.map_eq_some_iff]
  constructor
  · rintro (⟨hlt, hbefore⟩ | ⟨hle, hbehind⟩)
    · exact ⟨place, h.position?_eq_some_iff.mpr hbefore, if_neg (by omega)⟩
    · exact ⟨place + 1, h.position?_eq_some_iff.mpr hbehind, if_pos (by omega)⟩
  · rintro ⟨old, hold, rfl⟩
    have hold' := h.position?_eq_some_iff.mp hold
    have hmoved : old ≠ position := by
      rintro rfl
      exact hne (Option.some.inj (hold'.symm.trans hat))
    by_cases hlt : position < old
    · rw [if_pos hlt, Nat.sub_add_cancel (by omega)]
      exact Or.inr ⟨by omega, hold'⟩
    · rw [if_neg hlt]
      exact Or.inl ⟨by omega, hold'⟩

/-- **What a key map is after any edits.**  If no key was recorded that was there, the count is the
    number of keys that were recorded and not removed since, and the key map represents these keys
    in the order in which they came.  A removal moves the keys behind the removed one down by one
    position and leaves all others where they are; if the key is not there, nothing changes. -/
theorem edits_represented (edits : List Edit) (h : Tally.empty.Permits edits) :
    let tally := Tally.empty.run edits
    let held := edits.foldl Edit.onList []
    tally.count = held.length ∧ tally.keys.Represents held ∧
      (∀ key position, tally.keys.position? key = some position →
        ∃ rest, tally.keys.remove key = some (position, rest) ∧ rest.position? key = none ∧
          ∀ other, other ≠ key → rest.position? other =
            (tally.keys.position? other).map fun place =>
              if position < place then place - 1 else place) ∧
      ∀ key, tally.keys.position? key = none →
        tally.keys.remove key = none ∧ tally.edit (.remove key) = tally := by
  intro tally held
  obtain ⟨hsound, hlist⟩ : tally.Sound ∧ tally.keys.toList = held := Tally.sound_empty.run h
  refine ⟨hsound.count_eq.trans (congrArg List.length hlist), hlist ▸ hsound.keys.represents,
    ?_, ?_⟩
  · intro key position hposition
    have hat := hsound.keys.position?_eq_some_iff.mp hposition
    obtain ⟨rest, hremove, hrest, herased, -⟩ := sound_remove hsound.keys hat
    exact ⟨rest, hremove, hsound.keys.position?_of_erased hrest herased hat⟩
  · intro key hposition
    have hnot := hsound.keys.position?_eq_none_iff.mp hposition
    have hremove : tally.keys.remove key = none := hsound.keys.remove_eq_none hnot
    exact ⟨hremove, by rw [Tally.edit, hremove]⟩

/-- A removal in the dense range moves keys of both kinds, and its key, when it is recorded again,
    comes to stand behind them and not in the range. -/
theorem edits_represented_of_dense :
    let edits : List Edit := [.record 0, .record 1, .record 2, .record 10, .record (-4), .remove 7,
      .remove 1, .record 1]
    Tally.empty.Permits edits ∧ (Tally.empty.run edits).keys.Represents [0, 2, 10, -4, 1] ∧
      (Tally.empty.run edits).keys.denseLimit = 1 ∧
      ∃ rest, (Tally.empty.run edits).keys.remove 10 = some (2, rest) ∧
        rest.position? (-4) = some 2 ∧ rest.position? 2 = some 1 := by
  intro edits
  have hpermits : Tally.empty.Permits edits := by decide
  obtain ⟨-, hrepresents, hremove, -⟩ := edits_represented edits hpermits
  obtain ⟨rest, hrest, -, hothers⟩ := hremove 10 2 (by decide)
  exact ⟨hpermits, hrepresents, by decide, rest, hrest, hothers (-4) (by decide),
    hothers 2 (by decide)⟩

end Symtab.KeyMap
