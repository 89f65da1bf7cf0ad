import Symtab.Proofs.KeyMap.Dense
import Symtab.Proofs.Table.Reach

/-!
# Dense ranges of tables

The dense range of a table depends on how its keys came to be where they are, and not on the keys
alone.  A table that was only added to has the longest range that its keys allow
(`Initial.compact`, and `Sound.compact_apply_iff` for the changes that follow).  Removing ends
that when it takes away the key right behind the range and a key moves up that is the number of
its new place: it stays in the ordered map, and the range stays where it was.
-/

set_option autoImplicit false

namespace Symtab.Table

variable {hash : Hash} {table : Table hash} {symbol : String} {key : Key}

/-- The key that is stored next to the dense range is not the number of its place, so that the
    range could not be longer. -/
def Compact (table : Table hash) : Prop :=
  (table.nthKey? table.denseLimit).map Int64.toInt ≠ some (table.denseLimit : Int)

theorem compact_iff : table.Compact ↔ table.keys.Compact := by
  rw [Compact, nthKey?, KeyMap.key?_eq]
  rfl

/-- **When the dense range is as long as the stored keys allow.** -/
theorem Sound.denseLimit_eq_leading_iff (h : Sound table) :
    KeyMap.leading table.storageKeys = table.denseLimit ↔ table.Compact := by
  rw [compact_iff]
  exact h.keys.denseLimit_eq_leading_iff

/-! ## Adding -/

theorem Sound.keys_bindNew (h : Sound table) (hsymbol : symbol ∉ table.index.toList) (key : Key) :
    (table.bindNew symbol key).value.keys = table.keys.record key table.keys.toList.length := by
  obtain ⟨name, index, keys, cache⟩ := table
  obtain ⟨hposition, -⟩ := h.index.insert_absent hsymbol
  show keys.record key (index.insert symbol).value.position = _
  rw [hposition]
  exact congrArg (keys.record key) h.length_eq.symm

/-- Adding either leaves the keys as they are or records one more. -/
theorem Sound.keys_addWithKey (h : Sound table) (symbol : String) (key : Key) :
    (table.addWithKey symbol key).value.2.keys = table.keys ∨
      (table.addWithKey symbol key).value.2.keys =
        table.keys.record key table.keys.toList.length := by
  have hadding := h.adding symbol key
  generalize (table.addWithKey symbol key).value = outcome at hadding ⊢
  cases hadding with
  | reserved => exact Or.inl rfl
  | present _ _ => exact Or.inl rfl
  | taken _ _ _ => exact Or.inl rfl
  | bound _ hsymbol _ =>
    rw [h.symbols_eq] at hsymbol
    exact Or.inr (h.keys_bindNew hsymbol key)

theorem Sound.compact_addWithKey (h : Sound table) (hcompact : table.Compact) (symbol : String)
    (key : Key) : (table.addWithKey symbol key).value.2.Compact := by
  rw [compact_iff] at hcompact ⊢
  rcases h.keys_addWithKey symbol key with heq | heq
  · rw [heq]
    exact hcompact
  · rw [heq]
    exact hcompact.record key

theorem Sound.compact_addAll (h : Sound table) (hcompact : table.Compact) (symbols : List String) :
    (table.addAll symbols).value.2.Compact := by
  induction symbols generalizing table with
  | nil => exact hcompact
  | cons symbol rest ih =>
    exact ih (h.add symbol).1 (h.compact_addWithKey hcompact symbol table.availableKey)

/-- **A table that nothing was changed in yet is compact.** -/
theorem Initial.compact (h : table.Initial) : table.Compact := by
  refine (h.keeps (P := fun table => table.Sound ∧ table.Compact) ?_ ?_).2
  · intro header rest
    exact ⟨Binary.Replay.sound_start header rest, compact_iff.mpr KeyMap.compact_empty⟩
  · rintro table symbol key ⟨hsound, hcompact⟩
    exact ⟨(hsound.addWithKey symbol key).1, hsound.compact_addWithKey hcompact symbol key⟩

/-! ## Removing -/

/-- Removing this key leaves a key next to the dense range that is the number of its place. -/
def Uncovers (table : Table hash) (key : Key) : Prop :=
  table.nthKey? table.denseLimit = some key ∧
    (table.nthKey? (table.denseLimit + 1)).map Int64.toInt = some (table.denseLimit : Int)

theorem Sound.compact_remove_iff (h : Sound table) (hcompact : table.Compact) (key : Key) :
    (table.remove key).value.2.Compact ↔ ¬table.Uncovers key := by
  unfold Table.remove
  unfold Uncovers nthKey?
  rw [KeyMap.key?_eq, KeyMap.key?_eq]
  cases hposition : table.keys.position? key with
  | none =>
    have hremove : table.keys.remove key = none := by rw [KeyMap.remove, hposition]; rfl
    rw [hremove]
    refine iff_of_true hcompact ?_
    rintro ⟨hat, -⟩
    rw [← h.keys.position?_eq_some_iff, hposition] at hat
    cases hat
  | some position =>
    have hat := h.keys.position?_eq_some_iff.mp hposition
    obtain ⟨rest, hremove, -⟩ := KeyMap.sound_remove h.keys hat
    rw [hremove, compact_iff]
    rw [compact_iff] at hcompact
    refine (hcompact.remove_iff h.keys hat hremove).trans (not_congr ?_)
    constructor
    · rintro ⟨rfl, hbehind⟩
      exact ⟨hat, hbehind⟩
    · rintro ⟨hat', hbehind⟩
      obtain rfl : position = table.denseLimit := h.keys.unique hat hat'
      exact ⟨rfl, hbehind⟩

/-- **The one change that leaves the dense range shorter than it could be.** -/
theorem Sound.compact_apply_iff (h : Sound table) (hcompact : table.Compact) (change : Change) :
    (change.apply table).value.2.Compact ↔ ¬∃ key, change = .remove key ∧ table.Uncovers key := by
  refine Change.iff_not_remove ?_ ?_
  · rintro key rfl
    exact h.compact_remove_iff hcompact key
  · intro hne
    cases change with
    | remove key => exact absurd rfl (hne key)
    | add symbol => exact h.compact_addWithKey hcompact symbol table.availableKey
    | addWithKey symbol key => exact h.compact_addWithKey hcompact symbol key
    | merge source => exact h.compact_addAll hcompact _
    | rename name => exact hcompact
    | shrink => exact hcompact
    | copy => exact hcompact
    | refreeze => exact hcompact
    | digest => exact hcompact

end Symtab.Table
