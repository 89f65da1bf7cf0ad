import Symtab.Proofs.Index.Soundness

/-!
# Indexes that stop where something is out of range

The operations of an index always answer, also where a bucket leads past the symbols, a bucket is
looked up that there is none of, or a search goes round in vain: a search is then astray and
inserts nothing, and a symbol that finds no bucket is left out.  The checked operations stop
there instead, with no answer.  They check every access to a bucket and a symbol and every step
of the arithmetic that could fall below zero, and do nothing else that the others do not.

Main statements: `Sound.checkedFind_eq`, `Sound.checkedInsert_eq`, `Sound.checkedRemove_eq`.
Checked or not, the answers are the same, whatever the hash function.
-/

set_option autoImplicit false

namespace Symtab.Index

variable {hash : Hash} {index : Index hash} {buckets : Array (Option Nat)} {symbols : List String}
  {symbol : String} {position bucket count : Nat}

/-! ## Filling buckets -/

/-- Puts a position into a bucket, if there is this bucket. -/
def checkedPut (buckets : Array (Option Nat)) (bucket position : Nat) :
    Option (Array (Option Nat)) :=
  if h : bucket < buckets.size then some (buckets.set bucket (some position) h) else none

/-- Looks for an empty bucket, which there has to be, and puts a position into it. -/
def checkedSettle (hash : Hash) (mask : Nat) (buckets : Array (Option Nat))
    (entry : String × Nat) : Option (Array (Option Nat)) := do
  let bucket ← vacancy? buckets mask buckets.size (home hash mask entry.1)
  checkedPut buckets bucket entry.2

/-- Fills so many buckets, which have to be a power of two, and gives each symbol one. -/
def checkedBuild (count : Nat) (symbols : Array String) : Option (Index hash) := do
  guard (0 < count ∧ count &&& (count - 1) = 0)
  let buckets ← symbols.toList.zipIdx.foldlM (checkedSettle hash (count - 1))
    (Array.replicate count none)
  pure ⟨symbols, buckets, count - 1⟩

theorem checkedPut_eq (h : bucket < buckets.size) :
    checkedPut buckets bucket position = some (buckets.setIfInBounds bucket (some position)) := by
  rw [checkedPut, dif_pos h, Array.setIfInBounds, dif_pos h]

theorem Vacates.lt (h : Vacates buckets position bucket) : bucket < buckets.size := by
  obtain ⟨_, _, _, hvacant, _⟩ := h
  exact (Array.getElem?_eq_some_iff.mp hvacant).1

/-- A further symbol finds its bucket while there is room. -/
theorem Filled.checkedSettle_eq (h : Filled hash buckets symbols) (symbol : String)
    (hcount : Doubled buckets.size) (room : symbols.length < buckets.size) :
    checkedSettle hash (buckets.size - 1) buckets (symbol, symbols.length) =
      some (Index.settle hash (buckets.size - 1) buckets (symbol, symbols.length)) := by
  obtain ⟨bucket, hbucket⟩ := h.exists_vacates room (hash symbol).toNat
  have hfound := hbucket.vacancy?_eq hcount
  have hhome : home hash (buckets.size - 1) symbol = _ := home_eq hcount symbol
  rw [← hhome] at hfound
  rw [checkedSettle, hfound, Option.bind_eq_bind, Option.bind_some, checkedPut_eq hbucket.lt,
    Index.settle, hfound]

/-- **Every symbol finds its bucket**, if there are more buckets than symbols. -/
theorem checkedBuild_eq (hcount : Doubled count) (room : symbols.length < count) :
    checkedBuild count symbols.toArray = some (build count symbols.toArray : Index hash) := by
  have hpower : count &&& (count - 1) = 0 := by rw [hcount.and_mask, Nat.mod_self]
  have hbuckets : symbols.zipIdx.foldlM (checkedSettle hash (count - 1))
      (Array.replicate count none) = some (bucketsOf hash count symbols.toArray) := by
    induction symbols using List.reverseRecOn with
    | nil => rfl
    | append_singleton symbols symbol ih =>
      rw [List.length_append, List.length_singleton] at room
      have hsize := size_bucketsOf hash count symbols
      have hfilled : Filled hash (bucketsOf hash count symbols.toArray) symbols :=
        filled_bucketsOf hcount (by omega)
      have hlast := hfilled.checkedSettle_eq symbol (hsize.symm ▸ hcount) (by omega)
      rw [hsize] at hlast
      rw [List.zipIdx_append, List.foldlM_append, ih (by omega), bucketsOf_append]
      simpa using hlast
  rw [checkedBuild, guard, if_pos ⟨hcount.pos, hpower⟩, hbuckets]
  rfl

/-! ## Operations -/

/-- Searches for a symbol, and has to end at it or at an empty bucket. -/
def checkedProbe (index : Index hash) (symbol : String) : Option Probe :=
  match index.probe symbol with
  | .astray => none
  | probe => some probe

def checkedFind (index : Index hash) (symbol : String) : Option (Option Nat) := do
  match ← index.checkedProbe symbol with
  | .present position => pure (some position)
  | _ => pure none

def checkedGrow (index : Index hash) : Option (Index hash) :=
  if index.isCrowded then checkedBuild (index.bucketCount * 2) index.symbols else some index

def checkedInsert (index : Index hash) (symbol : String) : Option (Inserted hash) := do
  let index ← index.checkedGrow
  match ← index.checkedProbe symbol with
  | .present position => pure ⟨index, position, false⟩
  | .vacant bucket =>
    let buckets ← checkedPut index.buckets bucket index.size
    pure ⟨⟨index.symbols.push symbol, buckets, index.mask⟩, index.size, true⟩
  | .astray => none

def checkedRemove (index : Index hash) (position : Nat) :
    Option (Option (String × Index hash)) :=
  if h : position < index.symbols.size then do
    let rest ← checkedBuild index.bucketCount (index.symbols.eraseIdx position h)
    pure (some (index.symbols[position], rest))
  else
    some none

namespace Sound

/-- **A search is never astray.** -/
theorem checkedProbe_eq (h : Sound index) (symbol : String) :
    index.checkedProbe symbol = some (index.probe symbol) := by
  unfold checkedProbe
  by_cases hmem : symbol ∈ index.toList
  · obtain ⟨position, hat⟩ := List.mem_iff_getElem?.mp hmem
    rw [h.probe_of_getElem? hat]
  · obtain ⟨bucket, hprobe, -⟩ := h.probe_of_not_mem hmem
    rw [hprobe]

theorem checkedFind_eq (h : Sound index) (symbol : String) :
    index.checkedFind symbol = some (index.find? symbol) := by
  unfold checkedFind find?
  rw [h.checkedProbe_eq, Option.bind_eq_bind, Option.bind_some]
  cases index.probe symbol with
  | present position => rfl
  | vacant bucket => rfl
  | astray => rfl

theorem checkedGrow_eq (h : Sound index) : index.checkedGrow = some index.grow.value := by
  have hload := h.load
  have hpos := h.doubled.pos
  unfold checkedGrow grow
  split
  next =>
    have hroom : index.toList.length < index.bucketCount * 2 := by
      rw [length_toList]
      omega
    exact checkedBuild_eq h.doubled.double hroom
  next => rfl

theorem checkedInsert_eq (h : Sound index) (symbol : String) :
    index.checkedInsert symbol = some (index.insert symbol).value := by
  obtain ⟨hgrown, -, -⟩ := h.grow_eq
  unfold checkedInsert insert
  rw [h.checkedGrow_eq, Option.bind_eq_bind, Option.bind_some, Logged.value_bind]
  rw [hgrown.checkedProbe_eq, Option.bind_eq_bind, Option.bind_some]
  by_cases hmem : symbol ∈ index.grow.value.toList
  · obtain ⟨position, hat⟩ := List.mem_iff_getElem?.mp hmem
    rw [hgrown.probe_of_getElem? hat]
    rfl
  · obtain ⟨bucket, hprobe, hvacates⟩ := hgrown.probe_of_not_mem hmem
    rw [hprobe]
    simp only [checkedPut_eq hvacates.lt]
    rfl

theorem checkedRemove_eq (h : Sound index) (position : Nat) :
    index.checkedRemove position = some (index.remove position) := by
  unfold checkedRemove remove
  split
  next hlt =>
    have hload := h.load
    have hpos := h.doubled.pos
    have hroom : (index.symbols.eraseIdx position hlt).toList.length < index.bucketCount := by
      rw [Array.length_toList, Array.size_eraseIdx]
      rw [size] at hload
      omega
    have hbuilt : _ = some (build _ _ : Index hash) := checkedBuild_eq h.doubled hroom
    rw [Array.toArray_toList] at hbuilt
    rw [hbuilt]
    rfl
  next => rfl

end Sound
end Symtab.Index
