import Symtab.Proofs.Table.Checked
import Symtab.Proofs.Table.Reach

/-!
# No run stops

Whether a checked operation stops is not for the caller to say: an index and a key map that are
stored apart could have come apart somewhere on the way.  Here every way is followed, from a table
without bindings or from reading octets or text, be they accepted or not, through changes in any
order, merges among them, up to what the table is asked in the end.

Main statement: `Table.runs_checked`.  With every access and every subtraction checked and
everything that a table falls back on left out, each way leads to the same answers and the same
table as it does unchecked.
-/

set_option autoImplicit false

namespace Symtab

variable {hash : Hash}

/-! ## Changes -/

/-- Makes a change, checked. -/
def Change.checkedApply (table : Table hash) : Change → Option (Answer × Table hash)
  | .add symbol => do
    let (key, table) ← table.checkedAdd symbol
    pure (.key key, table)
  | .addWithKey symbol key => do
    let (key, table) ← table.checkedAddWithKey symbol key
    pure (.key key, table)
  | .remove key => do
    let (found, table) ← table.checkedRemove key
    pure (.removed found, table)
  | .merge source => do
    let table ← table.checkedMerge source
    pure (.done, table)
  | .rename name => some (.done, table.rename name)
  | .shrink => some (.done, table.shrink)
  | .copy => some (.done, table)
  | .refreeze => some (.done, table.freeze.thaw)
  | .digest => do
    let table ← table.checkedRemember
    pure (.done, table)

theorem Table.Sound.checkedApply_eq {table : Table hash} (h : table.Sound) (change : Change)
    (hmerged : ∀ {other : Hash} {source : Table other}, change = .merge source → source.Sound) :
    change.checkedApply table = some (change.apply table).value := by
  cases change with
  | add symbol =>
    rw [Change.checkedApply, Table.checkedAdd, h.checkedAddWithKey_eq]
    rfl
  | addWithKey symbol key =>
    rw [Change.checkedApply, h.checkedAddWithKey_eq]
    rfl
  | remove key =>
    rw [Change.checkedApply, h.checkedRemove_eq]
    rfl
  | merge source =>
    rw [Change.checkedApply, h.checkedMerge_eq (hmerged rfl)]
    rfl
  | rename name => rfl
  | shrink => rfl
  | copy => rfl
  | refreeze => rfl
  | digest =>
    rw [Change.checkedApply, h.checkedRemember_eq]
    rfl

/-! ## Reading -/

namespace Binary.Replay

variable {replay : Replay hash}

def checkedStep (replay : Replay hash) : Option (Except Error (Replay hash)) :=
  match Reader.record replay.rest with
  | .error error => some (.error error)
  | .ok ((symbol, key), rest) => do
    let (added, table) ← replay.table.checkedAddWithKey symbol key
    if added = Key.noSymbol then
      pure (.error (.duplicateKey replay.table.name symbol key))
    else
      pure (.ok { table, rest, completed := replay.completed + 1 })

def checkedRun : Nat → Replay hash → Option (Replay hash × Option Error)
  | 0, replay => some (replay, none)
  | count + 1, replay => do
    match ← replay.checkedStep with
    | .error error => pure (replay, some error)
    | .ok replay => checkedRun count replay

theorem checkedStep_eq (h : replay.table.Sound) : replay.checkedStep = some replay.step.value := by
  unfold checkedStep step
  cases Reader.record replay.rest with
  | error error => rfl
  | ok read =>
    obtain ⟨⟨symbol, key⟩, rest⟩ := read
    simp only [h.checkedAddWithKey_eq, value_add]
    generalize (replay.table.addWithKey symbol key).value = outcome
    obtain ⟨added, table⟩ := outcome
    simp only [Option.bind_eq_bind, Option.bind_some]
    split <;> rfl

theorem checkedRun_eq (h : replay.table.Sound) (count : Nat) :
    checkedRun count replay = some (run count replay).value := by
  induction count generalizing replay with
  | zero => rfl
  | succ count ih =>
    rw [checkedRun, checkedStep_eq h, value_run_succ, Option.bind_eq_bind, Option.bind_some]
    cases hstep : replay.step.value with
    | error error => rfl
    | ok next =>
      exact ih (keeps_step (fun table symbol key h => (h.addWithKey symbol key).1) h hstep)

end Binary.Replay

/-- Adds the bindings of lines, checked, given the number of the first. -/
def TextFormat.checkedAddLines (options : Options) (source : String) :
    Nat → Table hash → List (List UInt8) → Option (Except Error (Table hash))
  | _, table, [] => some (.ok table)
  | number, table, line :: rest =>
    match entryOfLine options source number line with
    | .error error => some (.error error)
    | .ok none => checkedAddLines options source (number + 1) table rest
    | .ok (some (symbol, key)) => do
      let (added, table) ← table.checkedAddWithKey symbol key
      if added = Key.noSymbol then
        pure (.error (.duplicateKey source symbol key))
      else
        checkedAddLines options source (number + 1) table rest

theorem TextFormat.checkedAddLines_eq {options : Options} {source : String} {table : Table hash}
    (h : table.Sound) (number : Nat) (lines : List (List UInt8)) :
    checkedAddLines options source number table lines =
      some (addLines options source number table lines).value := by
  induction lines generalizing number table with
  | nil => rfl
  | cons line rest ih =>
    unfold checkedAddLines addLines
    cases entryOfLine options source number line with
    | error error => rfl
    | ok entry =>
      cases entry with
      | none => exact ih h (number + 1)
      | some binding =>
        obtain ⟨symbol, key⟩ := binding
        obtain ⟨hsound, -⟩ := h.addWithKey symbol key
        simp only [h.checkedAddWithKey_eq, Logged.value_bind]
        generalize (table.addWithKey symbol key).value = outcome at hsound
        obtain ⟨added, table⟩ := outcome
        simp only [Option.bind_eq_bind, Option.bind_some]
        split
        · rfl
        · exact ih hsound (number + 1)

namespace Table

open Binary TextFormat

def checkedReadBinary (octets : List UInt8) : Option (Except Error (Table hash × List UInt8)) :=
  match Reader.header octets with
  | .error error => some (.error error)
  | .ok (header, rest) => do
    match ← Replay.checkedRun header.count (.start header rest) with
    | (_, some error) => pure (.error error)
    | (replay, none) => pure (.ok (replay.table.shrink, replay.rest))

def checkedOfText (octets : List UInt8) (source : String) (options : Options) :
    Option (Except Error (Table hash)) := do
  pure ((← checkedAddLines options source 1 (.empty source) (Text.Lines.lines octets)).map shrink)

theorem checkedReadBinary_eq (hash : Hash) (octets : List UInt8) :
    checkedReadBinary octets =
      some (readBinary octets : Logged (Except Error (Table hash × List UInt8))).value := by
  cases hheader : Reader.header octets with
  | error error =>
    rw [checkedReadBinary, readBinary, hheader]
    rfl
  | ok read =>
    obtain ⟨header, rest⟩ := read
    rw [value_readBinary hheader, checkedReadBinary, hheader]
    simp only [Replay.checkedRun_eq (Replay.sound_start header rest), Option.bind_eq_bind,
      Option.bind_some]
    obtain ⟨replay, error⟩ :=
      (Replay.run header.count (.start header rest) : Logged (Replay hash × _)).value
    cases error with
    | none => rfl
    | some error => rfl

theorem checkedOfText_eq (hash : Hash) (octets : List UInt8) (source : String)
    (options : Options) :
    checkedOfText octets source options =
      some (ofText octets source options : Logged (Except Error (Table hash))).value := by
  rw [checkedOfText, checkedAddLines_eq (sound_empty source)]
  rfl

/-! ## Runs -/

/-- **No run stops.**  Octets and texts are read checked as they are unchecked, every run of changes
    of a table that can come about goes through checked with the same answers and the same table
    in the end, and this table answers whatever it is asked. -/
theorem runs_checked (hash : Hash) :
    (∀ octets, checkedReadBinary octets =
      some (readBinary octets : Logged (Except Error (Table hash × List UInt8))).value) ∧
    (∀ octets source options, checkedOfText octets source options =
      some (ofText octets source options : Logged (Except Error (Table hash))).value) ∧
    ∀ start : Table hash, Reachable start → ∀ changes : List Change,
      (∀ change ∈ changes, change.Possible) →
        checkedAll Change.checkedApply start changes =
            some (changeAll Change.apply start changes).value ∧
          (changeAll Change.apply start changes).value.2.AnswersChecked := by
  refine ⟨checkedReadBinary_eq hash, checkedOfText_eq hash, ?_⟩
  intro start h changes hpossible
  refine ⟨h.sound.checkedAll_eq ?_, (h.sound.changeAll hpossible).1.answersChecked⟩
  intro table hsound change hmem
  have hmerged : ∀ {other : Hash} {source : Table other}, change = .merge source →
      source.Sound := fun hmerge => (hpossible change hmem hmerge).sound
  exact ⟨hsound.checkedApply_eq change hmerged, (hsound.apply change hmerged).1⟩

/-- A removal in the dense range, with all symbols in one bucket, and a merge behind it. -/
theorem runs_checked_of_removal :
    let start : Table (Hash.constant 0) :=
      .ofBindings "words" [("a", 0), ("b", 1), ("c", 2), ("low", -5)]
    let source : Table Hash.mixed := .ofBindings "more" [("c", 7), ("d", 3)]
    let changes : List Change := [.remove 0, .merge source, .remove 2, .addWithKey "c" 9]
    Reachable start ∧ Reachable source ∧
      checkedAll Change.checkedApply start changes =
          some (changeAll Change.apply start changes).value ∧
        (changeAll Change.apply start changes).value.2.AnswersChecked := by
  intro start source changes
  have hstart : Reachable start := reachable_ofBindings ..
  have hsource : Reachable source := reachable_ofBindings ..
  have hpossible : ∀ change ∈ changes, change.Possible := by
    intro change hmem _ _ hmerge
    simp only [changes, List.mem_cons, List.not_mem_nil, or_false] at hmem
    rcases hmem with rfl | rfl | rfl | rfl
    · cases hmerge
    · cases hmerge
      exact hsource
    · cases hmerge
    · cases hmerge
  obtain ⟨hrun, hanswers⟩ :=
    (runs_checked (Hash.constant 0)).2.2 start hstart changes hpossible
  exact ⟨hstart, hsource, hrun, hanswers⟩

end Table
end Symtab
