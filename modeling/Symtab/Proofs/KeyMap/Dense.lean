import Symtab.Proofs.KeyMap.Soundness

/-!
# How far the dense range reaches

The dense range stands for keys that are the numbers of their own places, from the front of the
list on.  It need not stand for all of them: it grows only when a key is recorded right behind
it, and so a key can come to stand at the place of its number, next to the dense range, and stay
in the ordered map (`Compact` says that this is not so).

Main statements: `Sound.denseLimit_eq_leading_iff`, the dense range is as long as the list of keys
allows exactly when the key map is compact; `Compact.record`, recording keeps it so; and
`Compact.remove_iff`, of the removals only one at the very limit of the dense range can end it.
-/

set_option autoImplicit false

namespace Symtab

theorem Key.toInt_eq_natCast_iff {key : Key} {number : Nat} :
    key.toInt = number ↔ 0 ≤ key ∧ key.toNatClampNeg = number := by
  constructor
  · intro h
    have hnonneg : 0 ≤ key := by
      rw [Int64.le_iff_toInt_le, Int64.toInt_zero, h]
      exact Int.natCast_nonneg number
    rw [Int64.toInt_eq_toNatClampNeg hnonneg] at h
    exact ⟨hnonneg, Int.ofNat_inj.mp h⟩
  · rintro ⟨hnonneg, rfl⟩
    exact Int64.toInt_eq_toNatClampNeg hnonneg

namespace KeyMap

variable {keys rest : KeyMap} {key : Key} {position : Nat}

/-! ## Keys at the places of their numbers -/

/-- How many keys at the front of a list, whose first place has this number, are the numbers of
    their places. -/
def leadingFrom : Nat → List Key → Nat
  | _, [] => 0
  | place, key :: rest => if key.toInt = place then leadingFrom (place + 1) rest + 1 else 0

/-- The length of the longest front part of a list in which the keys count up from zero. -/
def leading (list : List Key) : Nat := leadingFrom 0 list

theorem le_leadingFrom_iff {start count : Nat} {list : List Key} :
    count ≤ leadingFrom start list ↔
      ∀ place < count, list[place]?.map Int64.toInt = some ((start + place : Nat) : Int) := by
  induction list generalizing start count with
  | nil =>
    cases count with
    | zero => simp
    | succ count =>
      refine iff_of_false (by simp [leadingFrom]) fun h => ?_
      exact absurd (h 0 (Nat.succ_pos count)) (by simp)
  | cons key list ih =>
    cases count with
    | zero => simp
    | succ count =>
      unfold leadingFrom
      by_cases hkey : key.toInt = start
      · rw [if_pos hkey, Nat.add_le_add_iff_right, ih]
        constructor
        · intro h place hplace
          cases place with
          | zero => simp [hkey]
          | succ place =>
            have := h place (Nat.lt_of_succ_lt_succ hplace)
            rwa [Nat.add_right_comm] at this
        · intro h place hplace
          have := h (place + 1) (Nat.succ_lt_succ hplace)
          rwa [← Nat.add_assoc, Nat.add_right_comm] at this
      · rw [if_neg hkey]
        refine iff_of_false (Nat.not_succ_le_zero count) fun h => ?_
        exact hkey (by simpa using h 0 (Nat.succ_pos count))

theorem le_leading_iff {count : Nat} {list : List Key} :
    count ≤ leading list ↔ ∀ place < count, list[place]?.map Int64.toInt = some (place : Int) := by
  unfold leading
  rw [le_leadingFrom_iff]
  simp

/-- The key next to the dense range is not the number of its place. -/
def Compact (keys : KeyMap) : Prop :=
  keys.toList[keys.denseLimit]?.map Int64.toInt ≠ some (keys.denseLimit : Int)

theorem Sound.toInt_of_lt (h : Sound keys) (hlt : position < keys.denseLimit) :
    keys.toList[position]?.map Int64.toInt = some (position : Int) := by
  have hlimit := h.limit_le
  rw [getElem?_toList_of_lt hlt, Option.map_some, Key.toInt_ofPosition (by omega)]

theorem Sound.denseLimit_le_leading (h : Sound keys) : keys.denseLimit ≤ leading keys.toList :=
  le_leading_iff.mpr fun _ => h.toInt_of_lt

/-- **When the dense range is as long as it can be.** -/
theorem Sound.denseLimit_eq_leading_iff (h : Sound keys) :
    leading keys.toList = keys.denseLimit ↔ keys.Compact := by
  have hle := h.denseLimit_le_leading
  have hlonger : ¬keys.Compact ↔ keys.denseLimit + 1 ≤ leading keys.toList := by
    rw [Compact, not_not, le_leading_iff]
    constructor
    · intro hown place hplace
      rcases Nat.lt_succ_iff_lt_or_eq.mp hplace with hlt | rfl
      · exact h.toInt_of_lt hlt
      · exact hown
    · exact fun hall => hall _ (Nat.lt_succ_self _)
  rw [← not_iff_not, hlonger]
  omega

theorem compact_empty : Compact empty := by
  simp [Compact, empty, toList]

/-! ## Changes -/

/-- **Recording keeps the dense range as long as it can be.** -/
theorem Compact.record (h : keys.Compact) (key : Key) :
    (keys.record key keys.toList.length).Compact := by
  have hlength := length_toList keys
  by_cases hcond : 0 ≤ key ∧ key.toNatClampNeg = keys.denseLimit ∧
      keys.toList.length = keys.denseLimit
  · obtain ⟨hnonneg, hlimit, hend⟩ := hcond
    have hlast : keys.sparseKeys = #[] := Array.eq_empty_of_size_eq_zero (by omega)
    rw [hend, record_dense hnonneg hlimit]
    -- the key took the only place next to the old range, so nothing is next to the new one
    simp [Compact, toList, hlast]
  · rw [record_sparse hcond]
    have hlist : toList ⟨keys.denseLimit, keys.sparse.insert key keys.toList.length,
        keys.sparseKeys.push key, keys.available.afterAdding key⟩ = keys.toList ++ [key] := by
      simp [toList]
    unfold Compact
    simp only [hlist]
    by_cases hend : keys.toList.length = keys.denseLimit
    · rw [← hend, List.getElem?_concat_length, Option.map_some, hend, Ne, Option.some.injEq,
        Key.toInt_eq_natCast_iff]
      exact fun hown => hcond ⟨hown.1, hown.2, hend⟩
    · rw [List.getElem?_append_left (by omega)]
      exact h

/-- The dense range ends at the removed key, or where it ended before. -/
theorem Sound.denseLimit_remove (h : Sound keys) (hat : keys.toList[position]? = some key)
    (hremove : keys.remove key = some (position, rest)) :
    rest.denseLimit = min position keys.denseLimit := by
  have hrelease : ∀ keys : KeyMap, (keys.release key).denseLimit = keys.denseLimit := by
    intro keys
    unfold release
    split <;> rfl
  have hposition := h.position?_eq_some_iff.mpr hat
  rw [remove, hposition, Option.map_some] at hremove
  obtain ⟨-, rfl⟩ := Prod.mk.inj (Option.some.inj hremove)
  rw [hrelease]
  by_cases hdense : keys.IsDense key
  · rw [position?, if_pos hdense] at hposition
    have hlt : position < keys.denseLimit := Option.some.inj hposition ▸ hdense.2
    rw [if_pos hdense, Nat.min_eq_left (Nat.le_of_lt hlt)]
    rfl
  · rw [position?, if_neg hdense, h.sparse_iff] at hposition
    rw [if_neg hdense, Nat.min_eq_right hposition.1]
    rfl

/-- **The removals that leave a key next to the dense range at its own place**: the removed key
    was the one next to the range, and the one behind it had waited for that place. -/
theorem Compact.remove_iff (hcompact : keys.Compact) (h : Sound keys)
    (hat : keys.toList[position]? = some key)
    (hremove : keys.remove key = some (position, rest)) :
    rest.Compact ↔ ¬(position = keys.denseLimit ∧
      keys.toList[position + 1]?.map Int64.toInt = some (position : Int)) := by
  have hlist : rest.toList = keys.toList.eraseIdx position := by
    obtain ⟨rest', hremove', -, hlist, -⟩ := sound_remove h hat
    rw [hremove, Option.some.injEq, Prod.mk.injEq] at hremove'
    rw [hremove'.2, hlist]
  unfold Compact
  rw [h.denseLimit_remove hat hremove, hlist]
  rcases Nat.lt_trichotomy position keys.denseLimit with hlt | heq | hgt
  · -- the removed key was the only one with the number of its place
    refine iff_of_true ?_ fun hboth => by omega
    rw [Nat.min_eq_left (Nat.le_of_lt hlt), List.getElem?_eraseIdx_of_ge (Nat.le_refl _)]
    intro hown
    obtain ⟨other, hother, hnumber⟩ := Option.map_eq_some_iff.mp hown
    have hfirst := h.toInt_of_lt hlt
    rw [hat, Option.map_some, Option.some.injEq, ← hnumber, Int64.toInt_inj] at hfirst
    subst hfirst
    have := h.unique hat hother
    omega
  · rw [heq, Nat.min_self, List.getElem?_eraseIdx_of_ge (Nat.le_refl _)]
    simp
  · refine iff_of_true ?_ fun hboth => by omega
    rw [Nat.min_eq_right (Nat.le_of_lt hgt), List.getElem?_eraseIdx_of_lt hgt]
    exact hcompact

/-! ## Removing several keys -/

/-- The least of the dense limit and of the dense keys among some keys. -/
def limitWithout (keys : KeyMap) (removed : List Key) : Nat :=
  (removed.filter fun key => keys.IsDense key).foldl (fun limit key => min limit key.toNatClampNeg)
    keys.denseLimit

/-- A key from the dense limit on is no less than the limit, so it need not be left out. -/
theorem le_limitWithout_iff {removed : List Key} {count : Nat} :
    count ≤ keys.limitWithout removed ↔
      count ≤ keys.denseLimit ∧ ∀ key ∈ removed, 0 ≤ key → count ≤ key.toNatClampNeg := by
  have hfold : ∀ (list : List Key) (limit : Nat),
      count ≤ list.foldl (fun limit key => min limit key.toNatClampNeg) limit ↔
        count ≤ limit ∧ ∀ key ∈ list, count ≤ key.toNatClampNeg := by
    intro list
    induction list with
    | nil => simp
    | cons key rest ih =>
      intro limit
      rw [List.foldl_cons, ih, Nat.le_min, List.forall_mem_cons, and_assoc]
  rw [limitWithout, hfold]
  refine and_congr_right fun hcount => ?_
  simp only [List.mem_filter, decide_eq_true_eq]
  constructor
  · intro h key hmem hnonneg
    by_cases hlt : key.toNatClampNeg < keys.denseLimit
    · exact h key ⟨hmem, hnonneg, hlt⟩
    · omega
  · intro h key hmem
    exact h key hmem.1 hmem.2.1

/-- Where the dense range ends when a key is removed, whether or not the key is dense. -/
theorem Sound.le_denseLimit_remove_iff {count : Nat} (h : Sound keys)
    (hat : keys.toList[position]? = some key) (hremove : keys.remove key = some (position, rest)) :
    count ≤ rest.denseLimit ↔ count ≤ keys.limitWithout [key] := by
  have hposition := h.position?_eq_some_iff.mpr hat
  rw [h.denseLimit_remove hat hremove, Nat.le_min, le_limitWithout_iff, List.forall_mem_singleton,
    and_comm]
  refine and_congr_right fun hcount => ?_
  by_cases hdense : keys.IsDense key
  · rw [position?, if_pos hdense, Option.some.injEq] at hposition
    rw [hposition]
    exact ⟨fun hle _ => hle, fun hle => hle hdense.1⟩
  · rw [position?, if_neg hdense, h.sparse_iff] at hposition
    refine iff_of_true (Nat.le_trans hcount hposition.1) fun hnonneg => ?_
    have hge : ¬key.toNatClampNeg < keys.denseLimit := fun hlt => hdense ⟨hnonneg, hlt⟩
    omega

/-- A key that is not there is not dense. -/
theorem Sound.limitWithout_absent (h : Sound keys) (hnot : key ∉ keys.toList) :
    keys.limitWithout [key] = keys.denseLimit := by
  have hdense : ¬keys.IsDense key := by
    intro hdense
    obtain ⟨position, hlt, rfl⟩ := h.isDense_iff.mp hdense
    exact hnot (List.mem_of_getElem? (getElem?_toList_of_lt hlt))
  simp [limitWithout, hdense]

end KeyMap
end Symtab
