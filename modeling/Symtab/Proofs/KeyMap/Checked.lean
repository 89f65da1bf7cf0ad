import Symtab.Proofs.KeyMap.Order

/-!
# Key maps that stop where something is out of range

Removing a key counts positions down, in the ordered map and at the dense limit, and erases a
place of an array; subtraction of numbers ends at zero, and erasing a place that there is none of
does nothing.  The checked operations ask beforehand whether every number to be counted down is
above zero and every place is there, and have no answer otherwise.

Main statements: `Sound.checkedRecord_eq` and `Sound.checkedRemove_eq`, by which a key map whose
parts fit together always answers, and as it does unchecked.
-/

set_option autoImplicit false

namespace Symtab.KeyMap

variable {keys : KeyMap} {key : Key} {position : Nat}

/-- The key at a position, counted from the dense limit on where it is not dense. -/
def checkedKey (keys : KeyMap) (position : Nat) : Option (Option Key) :=
  if position < keys.denseLimit then some (some (Key.ofPosition position))
  else do
    guard (keys.denseLimit ≤ position)
    pure keys.sparseKeys[position - keys.denseLimit]?

/-- Records a key for a position, which has to be the one behind all others. -/
def checkedRecord (keys : KeyMap) (key : Key) (position : Nat) : Option KeyMap := do
  guard (position = keys.denseLimit + keys.sparseKeys.size)
  pure (keys.record key position)

/-- Ends the dense range at one of its keys, where every position in the ordered map, the length
    of the range that moves there, and every position in it can be counted down. -/
def checkedCutDense (keys : KeyMap) (position : Nat) : Option KeyMap := do
  guard (∀ entry ∈ keys.sparse.toList, 1 ≤ entry.2)
  guard (position + 1 ≤ keys.denseLimit)
  guard (∀ moved ∈ keys.denseAfter position, 1 ≤ moved)
  pure (keys.cutDense position)

/-- Removes a key that is not dense, where the later positions can be counted down and the array
    of such keys has a place for it. -/
def checkedCutSparse (keys : KeyMap) (key : Key) (position : Nat) : Option KeyMap := do
  guard (∀ entry ∈ (keys.sparse.erase key).toList, position < entry.2 → 1 ≤ entry.2)
  guard (keys.denseLimit ≤ position)
  guard (position - keys.denseLimit < keys.sparseKeys.size)
  pure (keys.cutSparse key position)

def checkedRemove (keys : KeyMap) (key : Key) : Option (Option (Nat × KeyMap)) :=
  match keys.position? key with
  | none => some none
  | some position => do
    let rest ← if keys.IsDense key then keys.checkedCutDense position
      else keys.checkedCutSparse key position
    pure (some (position, rest.release key))

theorem checkedKey_eq (keys : KeyMap) (position : Nat) :
    keys.checkedKey position = some (keys.key? position) := by
  by_cases hlt : position < keys.denseLimit
  · rw [checkedKey, key?, if_pos hlt, if_pos hlt]
  · rw [checkedKey, key?, if_neg hlt, if_neg hlt, guard, if_pos (Nat.le_of_not_lt hlt)]
    rfl

namespace Sound

theorem checkedRecord_eq (key : Key) (hlast : position = keys.toList.length) :
    keys.checkedRecord key position = some (keys.record key position) := by
  rw [length_toList] at hlast
  rw [checkedRecord, guard, if_pos hlast]
  rfl

/-- What is in the ordered map stands behind the dense range, so not at the first place when
    there is a dense key to remove. -/
theorem checkedCutDense_eq (h : Sound keys) (hlt : position < keys.denseLimit) :
    keys.checkedCutDense position = some (keys.cutDense position) := by
  have hsparse : ∀ entry ∈ keys.sparse.toList, 1 ≤ entry.2 := by
    intro entry hmem
    have hle := (h.mem_sparse_iff.mp hmem).1
    omega
  have hmoved : ∀ moved ∈ keys.denseAfter position, 1 ≤ moved := by
    intro moved hmem
    have hbehind := ((mem_denseAfter hlt).mp hmem).1
    omega
  rw [checkedCutDense, guard, guard, guard, if_pos hsparse,
    if_pos (Nat.succ_le_of_lt hlt), if_pos hmoved]
  rfl

theorem checkedCutSparse_eq (hle : keys.denseLimit ≤ position)
    (hat : keys.toList[position]? = some key) :
    keys.checkedCutSparse key position = some (keys.cutSparse key position) := by
  have hbehind : ∀ entry ∈ (keys.sparse.erase key).toList, position < entry.2 → 1 ≤ entry.2 :=
    fun _ _ hlt => Nat.one_le_of_lt hlt
  obtain ⟨hlt, -⟩ := List.getElem?_eq_some_iff.mp hat
  rw [length_toList] at hlt
  have hplace : position - keys.denseLimit < keys.sparseKeys.size := by omega
  rw [checkedCutSparse, guard, guard, guard, if_pos hbehind, if_pos hle, if_pos hplace]
  rfl

/-- **Nothing is counted down below zero, and no place is missing.** -/
theorem checkedRemove_eq (h : Sound keys) (key : Key) :
    keys.checkedRemove key = some (keys.remove key) := by
  unfold checkedRemove remove
  cases hposition : keys.position? key with
  | none => rfl
  | some position =>
    have hat := h.position?_eq_some_iff.mp hposition
    simp only [Option.map_some]
    by_cases hdense : keys.IsDense key
    · rw [position?, if_pos hdense] at hposition
      have hlt : position < keys.denseLimit := Option.some.inj hposition ▸ hdense.2
      rw [if_pos hdense, if_pos hdense, h.checkedCutDense_eq hlt]
      rfl
    · rw [position?, if_neg hdense, h.sparse_iff] at hposition
      rw [if_neg hdense, if_neg hdense, checkedCutSparse_eq hposition.1 hat]
      rfl

end Sound
end Symtab.KeyMap
