import Symtab.Proofs.Table.Reach

/-!
# A way through a table

A cursor holds the entries of the key map in three parts put together, and beside them a number
that it counts down, which was the number of symbols when it started.  That the number is right at
every step is a fact about both stores of a table: there are as many keys as symbols, and the three
parts of the key map have every key once.

Main statement: `Reachable.traversal_exact`, what any number of steps answers and how many bindings
the cursor says are left.
-/

set_option autoImplicit false

namespace Symtab

namespace Table

variable {hash : Hash} {table : Table hash}

/-- A cursor starts with the number of its entries. -/
theorem Sound.length_pending (h : Sound table) : table.cursor.pending.length = table.size := by
  show table.keys.entries.length = table.index.toList.length
  rw [h.keys.length_entries, h.length_eq]

/-- There are as many bindings as symbols. -/
theorem Sound.length_pairs (h : Sound table) : table.pairs.length = table.size := by
  rw [h.pairs_eq, table.ledger.ascending_perm.length_eq, List.length_map, h.size_eq]

theorem Sound.mem_pairs_iff_find? (h : Sound table) {key : Key} {symbol : String} :
    (key, symbol) ∈ table.pairs ↔ table.find? key = some symbol := by
  rw [h.mem_pairs_iff, h.find?_eq, h.distinct.find?_eq_some_iff]

/-- Any list of the bindings in ascending order of keys is the list of the bindings by key. -/
theorem Sound.pairs_eq_of_perm (h : Sound table) {sorted : List (Key × String)}
    (hperm : (table.ledger.bindings.map Prod.swap).Perm sorted)
    (hsorted : sorted.Pairwise fun first second => first.1 < second.1) : table.pairs = sorted := by
  rw [h.pairs_eq]
  exact Ledger.eq_of_ascending h.distinct.ascending_strict hsorted fun _ =>
    (table.ledger.ascending_perm.trans hperm).mem_iff

/-- **The count of a cursor** is the number of bindings that it has not reached. -/
theorem Sound.remaining_take (h : Sound table) (count : Nat) :
    (table.cursor.take count).2.remaining = table.size - min count table.size := by
  rw [Cursor.remaining_take, h.length_pending]
  rfl

/-- A cursor that answers nothing has reached the end. -/
theorem Sound.size_le_of_none_mem (h : Sound table) {count : Nat}
    (hnone : none ∈ (table.cursor.take count).1) : table.size ≤ count := by
  rw [h.led_cursor.take_eq_append, rest_cursor, h.length_pairs] at hnone
  rcases List.mem_append.mp hnone with hmem | hmem
  · obtain ⟨pair, -, hpair⟩ := List.mem_map.mp hmem
    cases hpair
  · have hlate := (List.mem_replicate.mp hmem).1
    omega

end Table

/-- **Going through a table is sorted, complete and counted.**  The bindings by key are in strictly
    ascending order, and they are those that looking a key up answers, so each is there once.  A
    cursor answers them one at a time from the front and nothing behind the last; after every number
    of steps it says how many are left, and after it has answered nothing once it never answers
    anything again. -/
theorem Reachable.traversal_exact {hash : Hash} {table : Table hash} (h : Reachable table) :
    table.pairs.Pairwise (fun first second => first.1 < second.1) ∧
    (∀ key symbol, (key, symbol) ∈ table.pairs ↔ table.find? key = some symbol) ∧
    table.pairs.length = table.size ∧
    ∀ count,
      let answers := (table.cursor.take count).1
      let behind := (table.cursor.take count).2
      let left := table.size - min count table.size
      answers = (table.pairs.take (min count table.size)).map some ++
          List.replicate (count - table.size) none ∧
        behind.rest = table.pairs.drop count ∧
        behind.sizeHint = (left, some left) ∧ behind.length? = some left ∧
        (none ∈ answers → ∀ more, (behind.take more).1 = List.replicate more none) := by
  have hsound := h.sound
  have hlength := hsound.length_pairs
  refine ⟨hsound.pairs_ascending, fun _ _ => hsound.mem_pairs_iff_find?, hlength, ?_⟩
  intro count answers behind left
  have hled := hsound.led_cursor
  obtain ⟨hbehind, hrest⟩ := hled.behind_take count
  have hleft : behind.remaining = left := hsound.remaining_take count
  rw [Table.rest_cursor] at hrest
  refine ⟨?_, hrest, ?_, ?_, ?_⟩
  · show (table.cursor.take count).1 = _
    rw [hled.take_eq_append, Table.rest_cursor, ← hlength, List.take_eq_take_min]
  · rw [Table.Cursor.sizeHint, hleft]
  · simp [Table.Cursor.length?, Table.Cursor.sizeHint, hleft]
  · intro hnone more
    have hend : behind.rest = [] := by
      have hsize := hsound.size_le_of_none_mem hnone
      rw [hrest, List.drop_eq_nil_iff, hlength]
      exact hsize
    refine hbehind.take_of_next_eq_none ?_ more
    rw [hbehind.next.1, hend, List.head?_nil]

/-- A negative key, a dense one, and one that stands at the dense limit without being dense. -/
theorem traversal_exact_of_limit :
    let table : Table (Hash.constant 0) :=
      .ofBindings "words" [("a", 0), ("two", 2), ("b", 1), ("low", -5)]
    Reachable table ∧ table.denseLimit = 1 ∧
      (table.cursor.take 5).1 =
        [some (-5, "low"), some (0, "a"), some (1, "b"), some (2, "two"), none] ∧
      (table.cursor.take 3).2.length? = some 1 ∧
      ((table.cursor.take 5).2.take 2).1 = [none, none] := by
  intro table
  have h : Reachable table := reachable_ofBindings ..
  have hsize : table.size = 4 := by rfl
  have hbindings : table.ledger.bindings = [("a", 0), ("two", 2), ("b", 1), ("low", -5)] := by rfl
  obtain ⟨-, -, -, hsteps⟩ := h.traversal_exact
  have hpairs : table.pairs = [(-5, "low"), (0, "a"), (1, "b"), (2, "two")] :=
    h.sound.pairs_eq_of_perm (by rw [hbindings]; decide) (by decide)
  obtain ⟨hanswers, -, -, -, hfused⟩ := hsteps 5
  obtain ⟨-, -, -, hleft, -⟩ := hsteps 3
  rw [hsize] at hanswers hleft
  rw [hpairs] at hanswers
  exact ⟨h, by rfl, hanswers, hleft, hfused (by rw [hanswers]; decide) 2⟩

end Symtab
