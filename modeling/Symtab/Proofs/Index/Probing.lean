import Mathlib.Algebra.Group.Nat.Defs
import Mathlib.Data.Fintype.EquivFin
import Symtab.Index
import Symtab.Proofs.Places

/-!
# Searching the buckets

A search of an index visits buckets: it starts at the home of a symbol, goes on to the next
bucket, and passes from the last to the first.  This file says which bucket that is after so
many steps (`ahead`), what makes the buckets fit for searching (`Filled`), and what a search
of them ends with.

`Filled` is the whole invariant of linear probing: each symbol is *reached*, that is, between
its home and its bucket every bucket leads to another symbol; and the buckets lead to
positions in range, each from one bucket only.  The second half is there for one reason.  It
is what leaves a bucket empty when there are fewer symbols than buckets
(`Filled.exists_vacant`), and a search for an absent symbol ends nowhere else.

Nothing here depends on the hash function: all symbols may have the same home.
-/

set_option autoImplicit false

namespace Symtab.Index

variable {hash : Hash} {buckets : Array (Option Nat)} {symbols : List String}
  {symbol : String} {start position bucket count steps fuel : Nat}

/-! ## Going round the buckets -/

/-- The number of buckets of an index: what it starts with, doubled any number of times. -/
def Doubled (count : Nat) : Prop :=
  ∃ doublings, count = initialBuckets * 2 ^ doublings

theorem Doubled.pos (h : Doubled count) : 0 < count := by
  obtain ⟨doublings, rfl⟩ := h
  exact Nat.mul_pos (by decide) (Nat.two_pow_pos doublings)

theorem Doubled.double (h : Doubled count) : Doubled (count * 2) := by
  obtain ⟨doublings, rfl⟩ := h
  exact ⟨doublings + 1, by rw [Nat.pow_succ, Nat.mul_assoc]⟩

theorem Doubled.four_dvd (h : Doubled count) : 4 ∣ count := by
  obtain ⟨doublings, rfl⟩ := h
  exact Nat.dvd_mul_right_of_dvd (by decide) _

/-- The mask keeps the remainder, because the number of buckets is a power of two. -/
theorem Doubled.and_mask (h : Doubled count) (word : Nat) :
    word &&& (count - 1) = word % count := by
  obtain ⟨doublings, rfl⟩ := h
  have power : initialBuckets * 2 ^ doublings = 2 ^ (4 + doublings) := by
    rw [Nat.pow_add]
    rfl
  rw [power, Nat.and_two_pow_sub_one_eq_mod]

/-- The bucket so many steps after another. -/
def ahead (count start steps : Nat) : Nat := (start + steps) % count

theorem ahead_lt (h : 0 < count) : ahead count start steps < count :=
  Nat.mod_lt _ h

theorem ahead_succ : ahead count (start + 1) steps = ahead count start (steps + 1) := by
  rw [ahead, ahead, Nat.add_assoc, Nat.add_comm 1]

theorem home_eq (h : Doubled count) (symbol : String) :
    home hash (count - 1) symbol = ahead count (hash symbol).toNat 0 :=
  h.and_mask _

theorem after_ahead (h : Doubled count) :
    after (count - 1) (ahead count start 0) = ahead count (start + 1) 0 := by
  rw [after, h.and_mask, ahead, ahead, Nat.add_zero, Nat.mod_add_mod, Nat.add_zero]

/-- Every bucket lies ahead of every other, less than once round. -/
theorem exists_ahead_eq (start : Nat) (h : bucket < count) :
    ∃ steps < count, ahead count start steps = bucket := by
  have hstart : start % count < count := Nat.mod_lt _ (by omega)
  refine ⟨(bucket + (count - start % count)) % count, Nat.mod_lt _ (by omega), ?_⟩
  calc (start + (bucket + (count - start % count)) % count) % count
      = (start % count + (bucket + (count - start % count))) % count := by
        rw [Nat.add_mod_mod, Nat.mod_add_mod]
    _ = (bucket + count) % count := by
        congr 1
        omega
    _ = bucket := by rw [Nat.add_mod_right, Nat.mod_eq_of_lt h]

/-! ## Buckets fit for searching -/

/-- A search from a bucket on meets this position, and other positions before it. -/
def Reaches (buckets : Array (Option Nat)) (start position : Nat) : Prop :=
  ∃ steps < buckets.size, buckets[ahead buckets.size start steps]? = some (some position) ∧
    ∀ earlier < steps, ∃ other ≠ position,
      buckets[ahead buckets.size start earlier]? = some (some other)

/-- A search from a bucket on meets this empty bucket, and no empty one before it. -/
def Vacates (buckets : Array (Option Nat)) (start bucket : Nat) : Prop :=
  ∃ steps < buckets.size, ahead buckets.size start steps = bucket ∧
    buckets[bucket]? = some none ∧
    ∀ earlier < steps, ∃ other,
      buckets[ahead buckets.size start earlier]? = some (some other)

/-- The buckets lead to these symbols. -/
structure Filled (hash : Hash) (buckets : Array (Option Nat)) (symbols : List String) :
    Prop where
  /-- Each symbol is met from its home on. -/
  reached : ∀ (position : Nat) (symbol : String), symbols[position]? = some symbol →
    Reaches buckets (hash symbol).toNat position
  /-- No bucket leads past the symbols. -/
  bounded : ∀ (bucket position : Nat), buckets[bucket]? = some (some position) →
    position < symbols.length
  /-- No two buckets lead to one symbol. -/
  single : ∀ (bucket other position : Nat), buckets[bucket]? = some (some position) →
    buckets[other]? = some (some position) → bucket = other

theorem filled_replicate (hash : Hash) (count : Nat) :
    Filled hash (Array.replicate count none) [] where
  reached := fun _ _ h => by simp at h
  bounded := fun _ _ h => by simp [Array.getElem?_replicate] at h
  single := fun _ _ _ h => by simp [Array.getElem?_replicate] at h

/-- Fewer symbols than buckets leave a bucket empty: otherwise the buckets would be as many
    different positions below the number of symbols. -/
theorem Filled.exists_vacant (h : Filled hash buckets symbols)
    (room : symbols.length < buckets.size) :
    ∃ bucket < buckets.size, buckets[bucket]? = some none := by
  by_contra hnone
  have occupied : ∀ bucket : Fin buckets.size, ∃ position : Fin symbols.length,
      buckets[bucket.val]? = some (some position.val) := by
    intro bucket
    have hin : buckets[bucket.val]? = some buckets[bucket.val] :=
      Array.getElem?_eq_getElem bucket.isLt
    cases hb : buckets[bucket.val] with
    | none => exact absurd ⟨bucket, bucket.isLt, by rw [hin, hb]⟩ hnone
    | some position =>
      rw [hb] at hin
      exact ⟨⟨position, h.bounded _ _ hin⟩, hin⟩
  choose leads hleads using occupied
  have injective : Function.Injective leads := by
    intro bucket other heq
    have hother := hleads other
    rw [← heq] at hother
    exact Fin.ext (h.single _ _ _ (hleads bucket) hother)
  have := Fintype.card_le_of_injective leads injective
  simp only [Fintype.card_fin] at this
  omega

/-- From any bucket on, a search of buckets with room meets an empty one. -/
theorem Filled.exists_vacates (h : Filled hash buckets symbols)
    (room : symbols.length < buckets.size) (start : Nat) :
    ∃ bucket, Vacates buckets start bucket := by
  obtain ⟨bucket, hlt, hvacant⟩ := h.exists_vacant room
  obtain ⟨steps, hsteps, rfl⟩ := exists_ahead_eq start hlt
  -- of the empty buckets ahead, the nearest has none before it
  have hex : ∃ steps, buckets[ahead buckets.size start steps]? = some none := ⟨steps, hvacant⟩
  refine ⟨_, Nat.find hex, ?_, rfl, Nat.find_spec hex, ?_⟩
  · exact Nat.lt_of_le_of_lt (Nat.find_min' hex hvacant) hsteps
  · intro earlier hearlier
    have hnot := Nat.find_min hex hearlier
    have hin : ahead buckets.size start earlier < buckets.size := ahead_lt (by omega)
    rw [Array.getElem?_eq_getElem hin] at hnot ⊢
    cases hb : buckets[ahead buckets.size start earlier] with
    | none => exact absurd (by rw [hb]) hnot
    | some other => exact ⟨other, rfl⟩

/-! ## Putting a position into an empty bucket -/

/-- An occupied bucket is another one, so it keeps its position. -/
theorem getElem?_put_of_occupied {new other : Nat} (hvacant : buckets[bucket]? = some none)
    (hother : buckets[other]? = some (some position)) :
    (buckets.setIfInBounds bucket (some new))[other]? = some (some position) := by
  have hne : bucket ≠ other := by
    intro heq
    rw [heq, hother] at hvacant
    simp at hvacant
  rw [Array.getElem?_setIfInBounds_ne hne, hother]

theorem occupied_of_getElem?_put {new other : Nat}
    (hother : (buckets.setIfInBounds bucket (some new))[other]? = some (some position)) :
    buckets[other]? = some (some position) ∨ other = bucket ∧ position = new := by
  by_cases heq : bucket = other
  · subst heq
    have hin : bucket < buckets.size := by
      have hlt := (Array.getElem?_eq_some_iff.mp hother).1
      simpa using hlt
    rw [Array.getElem?_setIfInBounds_self_of_lt hin] at hother
    exact Or.inr ⟨rfl, by simpa using hother.symm⟩
  · rw [Array.getElem?_setIfInBounds_ne heq] at hother
    exact Or.inl hother

/-- What was reached before still is. -/
theorem Reaches.put {new : Nat} (h : Reaches buckets start position)
    (hvacant : buckets[bucket]? = some none) :
    Reaches (buckets.setIfInBounds bucket (some new)) start position := by
  obtain ⟨steps, hsteps, hend, hpath⟩ := h
  refine ⟨steps, by simpa using hsteps, by simpa using getElem?_put_of_occupied hvacant hend, ?_⟩
  intro earlier hearlier
  obtain ⟨other, hne, hled⟩ := hpath earlier hearlier
  exact ⟨other, hne, by simpa using getElem?_put_of_occupied hvacant hled⟩

/-- What is put into the first empty bucket is reached. -/
theorem Vacates.reaches_put {new : Nat} (h : Vacates buckets start bucket)
    (hnew : ∀ (other position : Nat), buckets[other]? = some (some position) → position ≠ new) :
    Reaches (buckets.setIfInBounds bucket (some new)) start new := by
  obtain ⟨steps, hsteps, hat, hvacant, hbefore⟩ := h
  have hin : bucket < buckets.size := by
    rw [← hat]
    exact ahead_lt (by omega)
  have hput : (buckets.setIfInBounds bucket (some new))[bucket]? = some (some new) := by
    rw [Array.getElem?_setIfInBounds_self_of_lt hin]
  refine ⟨steps, by simpa using hsteps, by simpa [hat] using hput, ?_⟩
  intro earlier hearlier
  obtain ⟨other, hled⟩ := hbefore earlier hearlier
  exact ⟨other, hnew _ _ hled, by simpa using getElem?_put_of_occupied hvacant hled⟩

/-- Putting the next position into the empty bucket that a search for a new symbol meets. -/
theorem Filled.put (h : Filled hash buckets symbols)
    (hbucket : Vacates buckets (hash symbol).toNat bucket) :
    Filled hash (buckets.setIfInBounds bucket (some symbols.length)) (symbols ++ [symbol]) := by
  have hvacant : buckets[bucket]? = some none := by
    obtain ⟨_, _, _, hvacant, _⟩ := hbucket
    exact hvacant
  refine ⟨?_, ?_, ?_⟩
  · intro position other hother
    rcases Places.getElem?_concat_eq_some_iff.mp hother with hold | hlast
    · exact (h.reached _ _ hold).put hvacant
    · obtain ⟨rfl, rfl⟩ := hlast
      exact hbucket.reaches_put fun _ _ hled => (h.bounded _ _ hled).ne
  · intro other position hother
    rw [List.length_append, List.length_singleton]
    rcases occupied_of_getElem?_put hother with hold | hlast
    · exact Nat.lt_succ_of_lt (h.bounded _ _ hold)
    · rw [hlast.2]
      exact Nat.lt_succ_self _
  · intro other third position hother hthird
    -- the new position is past the symbols, so an old bucket does not lead there
    rcases occupied_of_getElem?_put hother with hold | hlast
    · rcases occupied_of_getElem?_put hthird with hold' | hlast'
      · exact h.single _ _ _ hold hold'
      · exact absurd (h.bounded _ _ hold) (by rw [hlast'.2]; exact Nat.lt_irrefl _)
    · rcases occupied_of_getElem?_put hthird with hold' | hlast'
      · exact absurd (h.bounded _ _ hold') (by rw [hlast.2]; exact Nat.lt_irrefl _)
      · rw [hlast.1, hlast'.1]

/-! ## What a search ends with -/

/-- Buckets that lead to other symbols are passed, and cost a step each. -/
theorem probeFrom_add {index : Index hash} (hcount : Doubled index.bucketCount)
    (hmask : index.mask = index.bucketCount - 1) :
    ∀ {steps start : Nat},
      (∀ earlier < steps, ∃ other stored,
        index.buckets[ahead index.bucketCount start earlier]? = some (some other) ∧
          index.symbols[other]? = some stored ∧ stored ≠ symbol) →
      index.probeFrom symbol (steps + fuel) (ahead index.bucketCount start 0) =
        index.probeFrom symbol fuel (ahead index.bucketCount start steps) := by
  intro steps
  induction steps with
  | zero =>
    intro start _
    rw [Nat.zero_add]
  | succ steps ih =>
    intro start hpassed
    obtain ⟨other, stored, hled, hstored, hne⟩ := hpassed 0 (Nat.succ_pos steps)
    have hrest : ∀ earlier < steps, ∃ other stored,
        index.buckets[ahead index.bucketCount (start + 1) earlier]? = some (some other) ∧
          index.symbols[other]? = some stored ∧ stored ≠ symbol := by
      intro earlier hearlier
      rw [ahead_succ]
      exact hpassed (earlier + 1) (Nat.succ_lt_succ hearlier)
    rw [Nat.add_right_comm, probeFrom, hled]
    simp only [hstored, if_neg hne]
    rw [hmask, after_ahead hcount, ih hrest, ahead_succ]

/-- Occupied buckets are passed when a place is looked for, and cost a step each. -/
theorem vacancy?_add (hcount : Doubled buckets.size) :
    ∀ {steps start : Nat},
      (∀ earlier < steps, ∃ other,
        buckets[ahead buckets.size start earlier]? = some (some other)) →
      vacancy? buckets (buckets.size - 1) (steps + fuel) (ahead buckets.size start 0) =
        vacancy? buckets (buckets.size - 1) fuel (ahead buckets.size start steps) := by
  intro steps
  induction steps with
  | zero =>
    intro start _
    rw [Nat.zero_add]
  | succ steps ih =>
    intro start hpassed
    obtain ⟨other, hled⟩ := hpassed 0 (Nat.succ_pos steps)
    have hrest : ∀ earlier < steps, ∃ other,
        buckets[ahead buckets.size (start + 1) earlier]? = some (some other) := by
      intro earlier hearlier
      rw [ahead_succ]
      exact hpassed (earlier + 1) (Nat.succ_lt_succ hearlier)
    rw [Nat.add_right_comm, vacancy?, hled]
    simp only
    rw [after_ahead hcount, ih hrest, ahead_succ]

/-- The first empty bucket from a symbol's home on is the one that is found. -/
theorem Vacates.vacancy?_eq (h : Vacates buckets start bucket) (hcount : Doubled buckets.size) :
    vacancy? buckets (buckets.size - 1) buckets.size (ahead buckets.size start 0) =
      some bucket := by
  obtain ⟨steps, hsteps, rfl, hvacant, hbefore⟩ := h
  obtain ⟨fuel, hfuel⟩ := Nat.exists_eq_add_of_lt hsteps
  conv =>
    lhs
    arg 3
    rw [hfuel, Nat.add_assoc]
  rw [vacancy?_add hcount hbefore, vacancy?, hvacant]

theorem size_settle (hash : Hash) (mask : Nat) (entry : String × Nat) :
    (settle hash mask buckets entry).size = buckets.size := by
  unfold settle
  split
  · rfl
  · exact Array.size_setIfInBounds

/-- A further symbol finds its bucket while there is room. -/
theorem Filled.settle (h : Filled hash buckets symbols) (symbol : String)
    (hcount : Doubled buckets.size) (room : symbols.length < buckets.size) :
    Filled hash (settle hash (buckets.size - 1) buckets (symbol, symbols.length))
      (symbols ++ [symbol]) := by
  obtain ⟨bucket, hbucket⟩ := h.exists_vacates room (hash symbol).toNat
  rw [Index.settle, home_eq hcount, hbucket.vacancy?_eq hcount]
  exact h.put hbucket

theorem bucketsOf_append (hash : Hash) (count : Nat) (symbols : List String)
    (symbol : String) :
    bucketsOf hash count (symbols ++ [symbol]).toArray =
      settle hash (count - 1) (bucketsOf hash count symbols.toArray)
        (symbol, symbols.length) := by
  simp [bucketsOf, List.zipIdx_append]

theorem size_bucketsOf (hash : Hash) (count : Nat) (symbols : List String) :
    (bucketsOf hash count symbols.toArray).size = count := by
  induction symbols using List.reverseRecOn with
  | nil => simp [bucketsOf]
  | append_singleton symbols symbol ih => rw [bucketsOf_append, size_settle, ih]

/-- Buckets filled anew lead to the symbols, if there are more of them. -/
theorem filled_bucketsOf (hcount : Doubled count) (room : symbols.length < count) :
    Filled hash (bucketsOf hash count symbols.toArray) symbols := by
  induction symbols using List.reverseRecOn with
  | nil => simpa [bucketsOf] using filled_replicate hash count
  | append_singleton symbols symbol ih =>
    rw [List.length_append, List.length_singleton] at room
    have hsize := size_bucketsOf hash count symbols
    have hprevious := ih (by omega)
    have hnext := hprevious.settle symbol (by rw [hsize]; exact hcount)
      (by rw [hsize]; omega)
    rw [hsize] at hnext
    rw [bucketsOf_append]
    exact hnext

end Symtab.Index
