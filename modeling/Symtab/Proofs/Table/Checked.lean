import Symtab.Binary.Format
import Symtab.Proofs.Index.Checked
import Symtab.Proofs.KeyMap.Checked
import Symtab.Proofs.Table.Iteration
import Symtab.TextFormat.Writer

/-!
# Tables that stop where their parts do not fit

An index and a key map are stored apart, and a table falls back on something wherever one of them
leads to nothing in the other: a symbol without a key has the reserved one, a removal that finds
no symbol leaves the index, a binding without a symbol is not met on the way through the table and
is not in the digest, and a symbol without a key ends the output.  The checked operations have no
answer there, and none where the checked operations of an index and a key map have none.

Main statements: `Sound.answersChecked` for what a table is asked; `Sound.checkedAddWithKey_eq`,
`Sound.checkedRemove_eq` and `Sound.checkedMerge_eq` for the changes.
-/

set_option autoImplicit false

namespace Symtab

/-- What has an answer for each item of a list has the answers for the list. -/
theorem mapM_eq_some_map {α β : Type} {list : List α} {f : α → Option β} {g : α → β}
    (h : ∀ item ∈ list, f item = some (g item)) : list.mapM f = some (list.map g) := by
  induction list with
  | nil => rfl
  | cons item rest ih =>
    obtain ⟨hfirst, hrest⟩ := List.forall_mem_cons.mp h
    rw [List.mapM_cons, hfirst, ih hrest]
    rfl

namespace Table

variable {hash other : Hash} {table : Table hash} {symbol : String} {key : Key} {position : Nat}

/-! ## Going through a table -/

namespace Cursor

variable {cursor : Cursor}

/-- The next binding, which has to have a symbol and to be counted. -/
def checkedNext (cursor : Cursor) : Option (Option (Key × String) × Cursor) :=
  match cursor.pending with
  | [] => some (none, cursor)
  | (key, position) :: pending => do
    guard (1 ≤ cursor.remaining)
    let symbol ← cursor.symbols[position]?
    pure (some (key, symbol), { cursor with pending, remaining := cursor.remaining - 1 })

def checkedTake : Nat → Cursor → Option (List (Option (Key × String)) × Cursor)
  | 0, cursor => some ([], cursor)
  | count + 1, cursor => do
    let (binding, cursor) ← cursor.checkedNext
    let (bindings, cursor) ← checkedTake count cursor
    pure (binding :: bindings, cursor)

/-- The bindings up to the end, which has to be reached in so many steps. -/
def checkedRest : Nat → Cursor → Option (List (Key × String))
  | 0, _ => none
  | steps + 1, cursor => do
    match ← cursor.checkedNext with
    | (none, _) => pure []
    | (some binding, cursor) =>
      let bindings ← checkedRest steps cursor
      pure (binding :: bindings)

theorem checkedNext_cons {symbols : Array String} (hsymbol : symbols[position]? = some symbol)
    (key : Key) (pending : List (Key × Nat)) :
    checkedNext ⟨symbols, (key, position) :: pending, pending.length + 1⟩ =
      some (some (key, symbol), ⟨symbols, pending, pending.length⟩) := by
  show (guard (1 ≤ pending.length + 1) >>= fun _ => symbols[position]? >>= fun symbol =>
    pure (some (key, symbol), Cursor.mk symbols pending pending.length)) = _
  rw [hsymbol, guard, if_pos (Nat.le_add_left 1 _)]
  rfl

/-- Every entry still to come leads to a symbol and is counted. -/
structure Fit (cursor : Cursor) : Prop where
  led : cursor.Led
  counted : cursor.remaining = cursor.pending.length

theorem Fit.next (h : cursor.Fit) :
    cursor.checkedNext = some cursor.next ∧ cursor.next.2.Fit := by
  obtain ⟨-, hled, -⟩ := h.led.next
  obtain ⟨symbols, pending, remaining⟩ := cursor
  obtain rfl : remaining = pending.length := h.counted
  cases pending with
  | nil => exact ⟨rfl, hled, rfl⟩
  | cons entry pending =>
    obtain ⟨key, position⟩ := entry
    obtain ⟨symbol, hsymbol⟩ := h.led (key, position) List.mem_cons_self
    refine ⟨(checkedNext_cons hsymbol key pending).trans ?_, hled, rfl⟩
    simp only at hsymbol
    simp [Cursor.next, hsymbol]

theorem Fit.checkedTake_eq (h : cursor.Fit) (count : Nat) :
    cursor.checkedTake count = some (cursor.take count) := by
  induction count generalizing cursor with
  | zero => rfl
  | succ count ih =>
    obtain ⟨hnext, hfit⟩ := h.next
    rw [checkedTake, Cursor.take, hnext]
    generalize cursor.next = step at hfit
    obtain ⟨binding, later⟩ := step
    simp only [Option.bind_eq_bind, Option.bind_some, ih hfit]
    rfl

/-- **A way through the bindings ends behind the last one.** -/
theorem Fit.checkedRest_eq (h : cursor.Fit) :
    checkedRest (cursor.pending.length + 1) cursor = some cursor.rest := by
  obtain ⟨symbols, pending, remaining⟩ := cursor
  obtain rfl : remaining = pending.length := h.counted
  induction pending with
  | nil => rfl
  | cons entry pending ih =>
    obtain ⟨key, position⟩ := entry
    obtain ⟨symbol, hsymbol⟩ := h.led (key, position) List.mem_cons_self
    have hrest : checkedRest (pending.length + 1) ⟨symbols, pending, pending.length⟩ = _ :=
      ih h.next.2
    have hall : Cursor.rest ⟨symbols, (key, position) :: pending, pending.length + 1⟩ =
        (key, symbol) :: Cursor.rest ⟨symbols, pending, pending.length⟩ :=
      List.filterMap_cons_some (by simp only at hsymbol; rw [hsymbol, Option.map_some])
    simp only [List.length_cons]
    rw [checkedRest, checkedNext_cons hsymbol, hall]
    simp only [Option.bind_eq_bind, Option.bind_some, hrest]
    rfl

end Cursor

theorem Sound.fit_cursor (h : table.Sound) : table.cursor.Fit where
  led := h.led_cursor
  counted := (h.keys.length_entries.trans h.length_eq).symm

/-- The bindings by key. -/
def checkedPairs (table : Table hash) : Option (List (Key × String)) :=
  Cursor.checkedRest (table.size + 1) table.cursor

theorem Sound.checkedPairs_eq (h : table.Sound) : table.checkedPairs = some table.pairs := by
  have hfit := h.fit_cursor
  have hsize : table.size = table.cursor.pending.length := hfit.counted
  rw [checkedPairs, hsize, hfit.checkedRest_eq, rest_cursor]

/-! ## Lookups, digests and output -/

/-- The symbol of a key, which has one if it is bound. -/
def checkedFind (table : Table hash) (key : Key) : Option (Option String) :=
  match table.keys.position? key with
  | none => some none
  | some position => do
    let symbol ← table.index.get? position
    pure (some symbol)

/-- The key of a symbol, which has one if it is present. -/
def checkedKeyOf (table : Table hash) (symbol : String) : Option (Option Key) := do
  match ← table.index.checkedFind symbol with
  | none => pure none
  | some position =>
    let key ← (← table.keys.checkedKey position)
    pure (some key)

/-- The octets of the bindings above the dense range, all of which have symbols. -/
def checkedSparseOctets (table : Table hash) : Option (List UInt8) := do
  let entries ← table.keys.sparse.toList.mapM fun (key, position) =>
    if key.toInt < table.denseLimit then some []
    else (table.index.get? position).map (labeledEntry key)
  pure entries.flatten

/-- The digests: those that were kept, or computed now. -/
def checkedChecksums (table : Table hash) : Option Checksums :=
  match table.cache with
  | some sums => some sums
  | none => do
    let sparse ← table.checkedSparseOctets
    pure ⟨Digest.Sha256.hash table.contentOctets, Digest.Sha256.hash (table.denseOctets ++ sparse)⟩

open Binary Output in
/-- How the table is written in octets, each symbol with its key. -/
def checkedBinarySteps (table : Table hash) : Option (List Step) := do
  let records ← table.index.toList.zipIdx.mapM fun (symbol, position) => do
    let key ← (← table.keys.checkedKey position)
    pure (stringSteps symbol ++ [.put (Word.octets64 key)])
  pure ([.put (Word.octets32 magic)] ++ stringSteps table.name ++
    [.put (Word.octets64 table.availableKey),
      .put (Word.octets64 (Int64.ofNat table.size))] ++ records.flatten)

open TextFormat Output in
def checkedTextSteps (table : Table hash) (options : Options) : Option (List Step) :=
  match options.outputSeparator? with
  | none => some [.fail .missingSeparator]
  | some separator => do
    let pairs ← table.checkedPairs
    pure (linesSteps table.name separator options.allowNegative pairs)

/-- Whatever a table is asked, it answers checked as it does unchecked. -/
structure AnswersChecked (table : Table hash) : Prop where
  find : ∀ key, table.checkedFind key = some (table.find? key)
  keyOf : ∀ symbol, table.checkedKeyOf symbol = some (table.keyOf? symbol)
  nthKey : ∀ position, table.keys.checkedKey position = some (table.nthKey? position)
  /-- Going through the bindings step by step. -/
  steps : ∀ count, table.cursor.checkedTake count = some (table.cursor.take count)
  pairs : table.checkedPairs = some table.pairs
  checksums : table.checkedChecksums = some table.checksums
  binary : table.checkedBinarySteps = some table.binarySteps
  text : ∀ options, table.checkedTextSteps options = some (table.textSteps options)

namespace Sound

/-- Where a symbol stands, the key map has a key to look up. -/
theorem exists_checkedKey (h : table.Sound)
    (hsymbol : table.index.toList[position]? = some symbol) :
    ∃ key, table.keys.key? position = some key ∧
      table.keys.checkedKey position = some (some key) := by
  obtain ⟨key, hat⟩ := h.exists_key hsymbol
  have hkey : table.keys.key? position = some key := (KeyMap.key?_eq ..).trans hat
  exact ⟨key, hkey, hkey ▸ table.keys.checkedKey_eq position⟩

theorem checkedFind_eq (h : table.Sound) (key : Key) :
    table.checkedFind key = some (table.find? key) := by
  unfold checkedFind find?
  cases hposition : table.keys.position? key with
  | none => rfl
  | some position =>
    obtain ⟨symbol, hat⟩ := h.exists_symbol (h.keys.position?_eq_some_iff.mp hposition)
    simp [Index.get?_eq, hat]

theorem checkedKeyOf_eq (h : table.Sound) (symbol : String) :
    table.checkedKeyOf symbol = some (table.keyOf? symbol) := by
  unfold checkedKeyOf keyOf?
  rw [h.index.checkedFind_eq, Option.bind_eq_bind, Option.bind_some]
  cases hfind : table.index.find? symbol with
  | none => rfl
  | some position =>
    obtain ⟨key, hkey, hchecked⟩ := h.exists_checkedKey (h.index.find?_eq_some_iff.mp hfind)
    simp [hchecked, hkey]

theorem checkedSparseOctets_eq (h : table.Sound) :
    table.checkedSparseOctets = some table.sparseOctets := by
  have hentries : table.keys.sparse.toList.mapM (fun (key, position) =>
      if key.toInt < table.denseLimit then some []
      else (table.index.get? position).map (labeledEntry key)) =
        some (table.keys.sparse.toList.map fun (key, position) =>
          if key.toInt < table.denseLimit then []
          else ((table.index.get? position).map (labeledEntry key)).getD []) := by
    refine mapM_eq_some_map fun ⟨key, position⟩ hmem => ?_
    simp only
    split
    next => rfl
    next =>
      obtain ⟨symbol, hat⟩ := h.exists_symbol (h.keys.mem_sparse_iff.mp hmem).2
      rw [Index.get?_eq, hat]
      rfl
  rw [checkedSparseOctets, hentries]
  rfl

theorem checkedChecksums_eq (h : table.Sound) :
    table.checkedChecksums = some table.checksums := by
  unfold checkedChecksums checksums
  cases table.cache with
  | some sums => rfl
  | none =>
    rw [h.checkedSparseOctets_eq]
    rfl

theorem checkedBinarySteps_eq (h : table.Sound) :
    table.checkedBinarySteps = some table.binarySteps := by
  have hrecords : table.index.toList.zipIdx.mapM (fun (symbol, position) => do
      let key ← (← table.keys.checkedKey position)
      pure (Binary.stringSteps symbol ++ [.put (Binary.Word.octets64 key)])) =
      some (table.index.toList.zipIdx.map (Binary.recordSteps table.keys)) := by
    refine mapM_eq_some_map fun ⟨symbol, position⟩ hmem => ?_
    obtain ⟨key, hkey, hchecked⟩ := h.exists_checkedKey (List.mem_zipIdx_iff_getElem?.mp hmem)
    simp [Binary.recordSteps, hchecked, hkey]
  rw [checkedBinarySteps, hrecords]
  rfl

theorem checkedTextSteps_eq (h : table.Sound) (options : TextFormat.Options) :
    table.checkedTextSteps options = some (table.textSteps options) := by
  unfold checkedTextSteps textSteps
  rw [h.checkedPairs_eq]
  cases options.outputSeparator? with
  | none => rfl
  | some separator => rfl

/-- **Whatever a sound table is asked, it answers.** -/
theorem answersChecked (h : table.Sound) : table.AnswersChecked where
  find := h.checkedFind_eq
  keyOf := h.checkedKeyOf_eq
  nthKey := table.keys.checkedKey_eq
  steps := h.fit_cursor.checkedTake_eq
  pairs := h.checkedPairs_eq
  checksums := h.checkedChecksums_eq
  binary := h.checkedBinarySteps_eq
  text := h.checkedTextSteps_eq

end Sound

/-! ## Changes -/

/-- Adds a symbol that has to be absent. -/
def checkedBindNew (table : Table hash) (symbol : String) (key : Key) : Option (Table hash) := do
  let inserted ← table.index.checkedInsert symbol
  guard (inserted.isNew = true)
  let keys ← table.keys.checkedRecord key inserted.position
  pure ⟨table.name, inserted.index, keys, none⟩

def checkedAddWithKey (table : Table hash) (symbol : String) (key : Key) :
    Option (Key × Table hash) :=
  if key = Key.noSymbol then some (Key.noSymbol, table)
  else do
    match ← table.checkedKeyOf symbol with
    | some existing => pure (existing, table)
    | none =>
      match ← table.checkedFind key with
      | some _ => pure (Key.noSymbol, table)
      | none =>
        let table ← table.checkedBindNew symbol key
        pure (key, table)

def checkedAdd (table : Table hash) (symbol : String) : Option (Key × Table hash) :=
  table.checkedAddWithKey symbol table.availableKey

/-- Removes a key, whose position has to have a symbol if the key is bound. -/
def checkedRemove (table : Table hash) (key : Key) : Option (Bool × Table hash) := do
  match ← table.keys.checkedRemove key with
  | none => pure (false, table)
  | some (position, keys) =>
    let (_, index) ← (← table.index.checkedRemove position)
    pure (true, { table with index, keys, cache := none })

/-- Makes one change for each item, in order, and collects the answers. -/
def checkedAll {α β : Type} (change : Table hash → α → Option (β × Table hash)) :
    Table hash → List α → Option (List β × Table hash)
  | table, [] => some ([], table)
  | table, item :: rest => do
    let (answer, table) ← change table item
    let (answers, table) ← checkedAll change table rest
    pure (answer :: answers, table)

def checkedMerge (table : Table hash) (source : Table other) : Option (Table hash) := do
  let pairs ← source.checkedPairs
  let (_, table) ← checkedAll checkedAdd table (pairs.map Prod.snd)
  pure table

def checkedRemember (table : Table hash) : Option (Table hash) := do
  let sums ← table.checkedChecksums
  pure { table with cache := some sums }

/-- **Changes that can be made on every sound table can be made in a row.** -/
theorem Sound.checkedAll_eq {α β : Type} {items : List α}
    {checked : Table hash → α → Option (β × Table hash)}
    {change : Table hash → α → Logged (β × Table hash)}
    (hstep : ∀ table : Table hash, table.Sound → ∀ item ∈ items,
      checked table item = some (change table item).value ∧ (change table item).value.2.Sound)
    (h : table.Sound) :
    checkedAll checked table items = some (Table.changeAll change table items).value := by
  induction items generalizing table with
  | nil => rfl
  | cons item rest ih =>
    obtain ⟨hfirst, hsound⟩ := hstep table h item List.mem_cons_self
    have hrest := ih (fun table h item hmem => hstep table h item (List.mem_cons_of_mem _ hmem))
      hsound
    rw [checkedAll, hfirst]
    simp only [Option.bind_eq_bind, Option.bind_some, hrest]
    rfl

namespace Sound

theorem checkedBindNew_eq (h : table.Sound) (hsymbol : symbol ∉ table.index.toList) :
    table.checkedBindNew symbol key = some (table.bindNew symbol key).value := by
  obtain ⟨hposition, hnew, -, -⟩ := h.index.insert_absent hsymbol
  have hlast : (table.index.insert symbol).value.position = table.keys.toList.length :=
    hposition.trans h.length_eq.symm
  rw [checkedBindNew, h.index.checkedInsert_eq, Option.bind_eq_bind, Option.bind_some, guard,
    if_pos hnew, KeyMap.Sound.checkedRecord_eq key hlast]
  rfl

/-- **Adding never falls back on anything.** -/
theorem checkedAddWithKey_eq (h : table.Sound) (symbol : String) (key : Key) :
    table.checkedAddWithKey symbol key = some (table.addWithKey symbol key).value := by
  unfold checkedAddWithKey Table.addWithKey
  split
  next => rfl
  next =>
    rw [h.checkedKeyOf_eq, Option.bind_eq_bind, Option.bind_some, keyOf?]
    cases hfind : table.index.find? symbol with
    | some position =>
      obtain ⟨existing, hexisting, -⟩ :=
        h.exists_checkedKey (h.index.find?_eq_some_iff.mp hfind)
      simp only [Option.bind_some, hexisting, Option.getD_some]
      split <;> rfl
    | none =>
      have habsent : symbol ∉ table.index.toList := h.index.find?_eq_none_iff.mp hfind
      simp only [Option.bind_none, h.checkedFind_eq]
      cases table.find? key with
      | some taken => rfl
      | none =>
        simp only [h.checkedBindNew_eq habsent]
        rfl

/-- **Removing a key that is bound always removes a symbol.** -/
theorem checkedRemove_eq (h : table.Sound) (key : Key) :
    table.checkedRemove key = some (table.remove key).value := by
  unfold checkedRemove Table.remove
  rw [h.keys.checkedRemove_eq, Option.bind_eq_bind, Option.bind_some]
  by_cases hmem : key ∈ table.keys.toList
  · obtain ⟨position, hat⟩ := List.mem_iff_getElem?.mp hmem
    obtain ⟨symbol, hsymbol⟩ := h.exists_symbol hat
    obtain ⟨keys, hkeys, -⟩ := KeyMap.sound_remove h.keys hat
    obtain ⟨index, hindex, -⟩ := h.index.remove_eq hsymbol
    rw [hkeys]
    simp only [h.index.checkedRemove_eq, hindex]
    rfl
  · rw [h.keys.remove_eq_none hmem]
    rfl

/-- **Merging goes through the other table to its end.** -/
theorem checkedMerge_eq {source : Table other} (h : table.Sound) (hsource : source.Sound) :
    table.checkedMerge source = some (table.merge source).value := by
  have hall : checkedAll checkedAdd table (source.pairs.map Prod.snd) =
      some (table.addAll (source.pairs.map Prod.snd)).value :=
    h.checkedAll_eq fun table h symbol _ =>
      ⟨h.checkedAddWithKey_eq symbol table.availableKey, (h.add symbol).1⟩
  rw [checkedMerge, hsource.checkedPairs_eq, Option.bind_eq_bind, Option.bind_some, hall]
  rfl

theorem checkedRemember_eq (h : table.Sound) :
    table.checkedRemember = some table.remember := by
  rw [checkedRemember, h.checkedChecksums_eq]
  rfl

end Sound

end Table
end Symtab
