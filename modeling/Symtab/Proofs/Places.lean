/-!
# Places in a list

A storage position is a place in a list.  This file holds the facts about places that the
structures of a table share: what stands where when something is put behind the list, and that
erasing the place of an item is leaving out what equals it.
-/

set_option autoImplicit false

namespace Symtab.Places

variable {α β : Type} {list : List α} {item other : α} {place : Nat}

theorem getElem?_concat_eq_some_iff :
    (list ++ [item])[place]? = some other ↔
      list[place]? = some other ∨ place = list.length ∧ item = other := by
  rw [List.getElem?_append]
  split
  next hlt =>
    constructor
    · exact Or.inl
    · intro hor
      rcases hor with hat | ⟨heq, -⟩
      · exact hat
      · omega
  next hge =>
    rw [List.getElem?_singleton, List.getElem?_eq_none (Nat.le_of_not_lt hge)]
    constructor
    · intro hat
      split at hat
      next hzero => exact Or.inr ⟨by omega, Option.some.inj hat⟩
      next => cases hat
    · intro hor
      rcases hor with hat | ⟨rfl, rfl⟩
      · cases hat
      · rw [Nat.sub_self, if_pos rfl]

/-- What stands where once a place is erased: later items have moved down by one. -/
theorem getElem?_eraseIdx_eq_some_iff {erased : Nat} :
    (list.eraseIdx erased)[place]? = some item ↔
      place < erased ∧ list[place]? = some item ∨
        erased ≤ place ∧ list[place + 1]? = some item := by
  rw [List.getElem?_eraseIdx]
  split
  next hlt => simp [hlt, Nat.not_le.mpr hlt]
  next hge => simp [hge, Nat.le_of_not_lt hge]

/-- An item that never repeats is found at its one place. -/
theorem idxOf?_eq_some_iff [BEq α] [LawfulBEq α] (h : list.Nodup) :
    list.idxOf? item = some place ↔ list[place]? = some item := by
  rw [List.idxOf?, List.findIdx?_eq_some_iff_getElem]
  constructor
  · rintro ⟨hlt, hitem, -⟩
    rw [List.getElem?_eq_getElem hlt, eq_of_beq hitem]
  · intro hat
    obtain ⟨hlt, rfl⟩ := List.getElem?_eq_some_iff.mp hat
    refine ⟨hlt, beq_self_eq_true _, ?_⟩
    intro earlier hearlier hsame
    have hat' := (List.getElem?_eq_getElem (Nat.lt_trans hearlier hlt)).trans
      (congrArg some (eq_of_beq hsame))
    exact Nat.ne_of_lt hearlier
      ((List.getElem?_inj (Nat.lt_trans hearlier hlt) h).mp (hat'.trans hat.symm))

/-- An item that never repeats is gone with its place. -/
theorem not_mem_eraseIdx (h : list.Nodup) (hat : list[place]? = some item) :
    item ∉ list.eraseIdx place := by
  intro hmem
  obtain ⟨other, hother⟩ := List.mem_iff_getElem?.mp hmem
  have hplace : ∀ {found : Nat}, list[found]? = some item → found = place := fun hfound =>
    (List.getElem?_inj (List.getElem?_eq_some_iff.mp hfound).1 h).mp (hfound.trans hat.symm)
  rcases getElem?_eraseIdx_eq_some_iff.mp hother with hbefore | hbehind
  · have := hplace hbefore.2
    omega
  · have := hplace hbehind.2
    omega

theorem eraseIdx_zip (list : List α) (others : List β) (place : Nat) :
    (list.eraseIdx place).zip (others.eraseIdx place) = (list.zip others).eraseIdx place := by
  induction list generalizing others place with
  | nil => simp
  | cons item rest ih =>
    cases others with
    | nil => simp
    | cons other others =>
      cases place with
      | zero => rfl
      | succ place => simpa using ih others place

/-- Where a field never repeats, one value of it stands at one place only. -/
theorem filter_ne_eq_eraseIdx [DecidableEq β] {field : α → β} (h : (list.map field).Nodup)
    (hat : list[place]? = some item) :
    list.filter (field · ≠ field item) = list.eraseIdx place := by
  induction list generalizing place with
  | nil => cases hat
  | cons first rest ih =>
    rw [List.map_cons, List.nodup_cons] at h
    cases place with
    | zero =>
      obtain rfl : first = item := Option.some.inj hat
      have hrest : ∀ other ∈ rest, ¬field other = field first := by
        intro other hmem heq
        exact h.1 (heq ▸ List.mem_map_of_mem hmem)
      simpa using hrest
    | succ place =>
      have hat' : rest[place]? = some item := hat
      have hne : field first ≠ field item := by
        intro heq
        exact h.1 (heq ▸ List.mem_map_of_mem (List.mem_of_getElem? hat'))
      rw [List.filter_cons_of_pos (by simpa using hne), ih h.2 hat', List.eraseIdx_cons_succ]

end Symtab.Places
