import Symtab.Proofs.Table.Soundness
import Symtab.Table.Cursor

/-!
# Going through a sound table

A cursor answers nothing for an entry whose position has no symbol, and goes on behind it.  In
a table whose parts keep step there is no such entry, so the answers of a cursor are the
bindings by key, one at a time, and nothing from then on.
-/

set_option autoImplicit false

namespace Symtab.Table

variable {hash : Hash} {table : Table hash} {cursor : Cursor}

namespace Cursor

/-- Every entry still to come leads to a symbol. -/
def Led (cursor : Cursor) : Prop :=
  ∀ entry ∈ cursor.pending, ∃ symbol, cursor.symbols[entry.2]? = some symbol

/-- One step of a cursor whose entries lead to symbols. -/
theorem Led.next (h : cursor.Led) :
    cursor.next.1 = cursor.rest.head? ∧ cursor.next.2.Led ∧
      cursor.next.2.rest = cursor.rest.tail := by
  obtain ⟨symbols, pending, remaining⟩ := cursor
  cases pending with
  | nil => exact ⟨rfl, h, rfl⟩
  | cons entry pending =>
    obtain ⟨key, position⟩ := entry
    obtain ⟨symbol, hsymbol⟩ := h (key, position) List.mem_cons_self
    simp only at hsymbol
    refine ⟨?_, fun later hlater => h later (List.mem_cons_of_mem _ hlater), ?_⟩
    · simp [Cursor.next, rest, hsymbol]
    · simp [Cursor.next, rest, hsymbol]

theorem Led.take (h : cursor.Led) (count : Nat) :
    (cursor.take count).1 = (List.range count).map fun step => cursor.rest[step]? := by
  induction count generalizing cursor with
  | zero => rfl
  | succ count ih =>
    obtain ⟨hanswer, hled, hrest⟩ := h.next
    rw [Cursor.take, List.range_succ_eq_map, List.map_cons, List.map_map]
    simp only [ih hled, hanswer, hrest, List.getElem?_tail, List.head?_eq_getElem?]
    rfl

/-- Where so many steps lead to. -/
theorem Led.behind_take (h : cursor.Led) (count : Nat) :
    (cursor.take count).2.Led ∧ (cursor.take count).2.rest = cursor.rest.drop count := by
  induction count generalizing cursor with
  | zero => exact ⟨h, rfl⟩
  | succ count ih =>
    obtain ⟨-, hled, hrest⟩ := h.next
    obtain ⟨hled', hrest'⟩ := ih hled
    rw [hrest, List.drop_tail] at hrest'
    exact ⟨hled', hrest'⟩

/-- The answers while there are bindings, and those from then on. -/
theorem Led.take_eq_append (h : cursor.Led) (count : Nat) :
    (cursor.take count).1 =
      (cursor.rest.take count).map some ++ List.replicate (count - cursor.rest.length) none := by
  rw [h.take]
  apply List.ext_getElem?
  intro step
  rw [List.getElem?_append, List.length_map, List.length_take]
  by_cases hstep : step < min count cursor.rest.length
  · have hcount : step < count := by omega
    have hrest : step < cursor.rest.length := by omega
    simp [hstep, hcount, hrest]
  · rw [if_neg hstep, List.getElem?_replicate]
    by_cases hcount : step < count
    · have hrest : cursor.rest.length ≤ step := by omega
      have hlate : step - min count cursor.rest.length < count - cursor.rest.length := by omega
      simp [hcount, hrest, hlate]
    · have hlate : ¬step - min count cursor.rest.length < count - cursor.rest.length := by omega
      simp [hcount, hlate]

/-- Steps count down as long as there are entries, whether or not these lead to symbols. -/
theorem remaining_take (cursor : Cursor) (count : Nat) :
    (cursor.take count).2.remaining = cursor.remaining - min count cursor.pending.length := by
  induction count generalizing cursor with
  | zero => simp [Cursor.take]
  | succ count ih =>
    obtain ⟨symbols, pending, remaining⟩ := cursor
    cases pending with
    | nil => exact (ih _).trans (by simp)
    | cons entry pending =>
      refine (ih ⟨symbols, pending, remaining - 1⟩).trans ?_
      simp only [List.length_cons]
      omega

/-- **The end stays the end.** -/
theorem Led.take_of_next_eq_none (h : cursor.Led) (hend : cursor.next.1 = none) (count : Nat) :
    (cursor.take count).1 = List.replicate count none := by
  obtain ⟨hanswer, -, -⟩ := h.next
  have hrest : cursor.rest = [] := List.head?_eq_none_iff.mp (hanswer.symm.trans hend)
  simp [h.take_eq_append, hrest]

end Cursor

theorem Sound.led_cursor (h : Sound table) : table.cursor.Led := by
  intro entry hmem
  obtain ⟨key, position⟩ := entry
  obtain ⟨symbol, hat⟩ := h.exists_symbol (h.keys.mem_entries_iff.mp hmem)
  exact ⟨symbol, (Index.get?_eq ..).trans hat⟩

theorem rest_cursor (table : Table hash) : table.cursor.rest = table.pairs :=
  rfl

/-- **The answers of a cursor** are the bindings by key. -/
theorem Sound.take_cursor (h : Sound table) (count : Nat) :
    (table.cursor.take count).1 =
      (List.range count).map fun step => table.ledger.ascending[step]? := by
  rw [h.led_cursor.take, rest_cursor, h.pairs_eq]

end Symtab.Table
