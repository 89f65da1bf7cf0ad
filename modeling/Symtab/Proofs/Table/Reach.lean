import Symtab.Proofs.Binary.Soundness
import Symtab.Proofs.Table.Iteration
import Symtab.Proofs.TextFormat.Soundness

/-!
# Every table that can come about

A table starts without bindings or is read from octets or text, and is then changed any number
of times, in any order; `Reachable` holds of what comes about.  A merge takes its symbols from
another table that came about so, which may spread its symbols by another hash function.

`Change.onLedger` says what a change does to a list of bindings, without any of the structures
of a table.  Main statements: `Reachable.sound`; `Reachable.invariant`, by which
what every change of a list of bindings keeps holds of every table; and
`Reachable.refines_ledger`, by which a table and a list of bindings that go through the same
changes give the same answers all the way, to changes and to lookups.
-/

set_option autoImplicit false

namespace Symtab

variable {hash other : Hash}

inductive Change where
  | add (symbol : String)
  | addWithKey (symbol : String) (key : Key)
  | remove (key : Key)
  | merge {other : Hash} (source : Table other)
  | rename (name : String)
  | shrink
  | copy
  /-- Freezes the table and goes on with a copy to change. -/
  | refreeze
  /-- Asks for the digests, which are kept. -/
  | digest

inductive Answer where
  | key (key : Key)
  | removed (found : Bool)
  | done
deriving DecidableEq, Repr

namespace Change

def apply (table : Table hash) : Change → Logged (Answer × Table hash)
  | .add symbol => do
    let (key, table) ← table.add symbol
    pure (.key key, table)
  | .addWithKey symbol key => do
    let (key, table) ← table.addWithKey symbol key
    pure (.key key, table)
  | .remove key => do
    let (found, table) ← table.remove key
    pure (.removed found, table)
  | .merge source => do
    let table ← table.merge source
    pure (.done, table)
  | .rename name => pure (.done, table.rename name)
  | .shrink => pure (.done, table.shrink)
  | .copy => pure (.done, table)
  | .refreeze => pure (.done, table.freeze.thaw)
  | .digest => pure (.done, table.remember)

/-- Makes a change of a list of bindings. -/
def onLedger (ledger : Ledger) : Change → Answer × Ledger
  | .add symbol => (.key (ledger.add symbol).1, (ledger.add symbol).2)
  | .addWithKey symbol key =>
    (.key (ledger.addWithKey symbol key).1, (ledger.addWithKey symbol key).2)
  | .remove key => (.removed (ledger.remove key).1, (ledger.remove key).2)
  | .merge source => (.done, ledger.addAll (source.ledger.ascending.map Prod.snd))
  | .rename name => (.done, ledger.rename name)
  | .shrink | .copy | .refreeze | .digest => (.done, ledger)

/-- Makes changes of a list of bindings in order, and collects the answers. -/
def allOnLedger : Ledger → List Change → List Answer × Ledger
  | ledger, [] => ([], ledger)
  | ledger, change :: rest =>
    let (answer, ledger) := change.onLedger ledger
    let (answers, ledger) := allOnLedger ledger rest
    (answer :: answers, ledger)

end Change

/-- The tables that can come about. -/
inductive Reachable : {hash : Hash} → Table hash → Prop where
  | empty {hash : Hash} (name : String) : Reachable (Table.empty name : Table hash)
  | readBinary {hash : Hash} {table : Table hash} {octets rest : List UInt8}
      (h : (Table.readBinary octets).value = .ok (table, rest)) : Reachable table
  | readText {hash : Hash} {table : Table hash} {octets : List UInt8} {source : String}
      {options : TextFormat.Options} (h : (Table.ofText octets source options).value = .ok table) :
      Reachable table
  | change {hash : Hash} {table : Table hash} (change : Change) (h : Reachable table)
      (hmerged : ∀ {other : Hash} {source : Table other}, change = .merge source →
        Reachable source) :
      Reachable (change.apply table).value.2

/-- Whatever a change merges can come about itself. -/
def Change.Possible (change : Change) : Prop :=
  ∀ {other : Hash} {source : Table other}, change = .merge source → Reachable source

/-- How to show that only a certain removal ends something. -/
theorem Change.iff_not_remove {change : Change} {P : Prop} {Q : Key → Prop}
    (hremove : ∀ key, change = .remove key → (P ↔ ¬Q key))
    (hother : (∀ key, change ≠ .remove key) → P) :
    P ↔ ¬∃ key, change = .remove key ∧ Q key := by
  by_cases h : ∃ key, change = .remove key
  · obtain ⟨key, rfl⟩ := h
    rw [hremove key rfl]
    simp
  · have hne := not_exists.mp h
    exact iff_of_true (hother hne) fun ⟨key, heq, _⟩ => hne key heq

/-- **Each change of a sound table** is the change of its ledger. -/
theorem Table.Sound.apply {table : Table hash} (h : table.Sound) (change : Change)
    (hmerged : ∀ {other : Hash} {source : Table other}, change = .merge source → source.Sound) :
    (change.apply table).value.2.Sound ∧
      (change.apply table).value.1 = (change.onLedger table.ledger).1 ∧
      (change.apply table).value.2.ledger = (change.onLedger table.ledger).2 := by
  cases change with
  | add symbol =>
    obtain ⟨hsound, hanswer, hledger⟩ := h.add symbol
    exact ⟨hsound, congrArg Answer.key hanswer, hledger⟩
  | addWithKey symbol key =>
    obtain ⟨hsound, hanswer, hledger⟩ := h.addWithKey symbol key
    exact ⟨hsound, congrArg Answer.key hanswer, hledger⟩
  | remove key =>
    obtain ⟨hsound, hanswer, hledger⟩ := h.remove key
    exact ⟨hsound, congrArg Answer.removed hanswer, hledger⟩
  | merge source =>
    obtain ⟨hsound, hledger⟩ := h.merge (hmerged rfl)
    exact ⟨hsound, rfl, hledger⟩
  | rename name =>
    obtain ⟨hsound, hledger⟩ := h.rename name
    exact ⟨hsound, rfl, hledger⟩
  | shrink => exact ⟨h, rfl, rfl⟩
  | copy => exact ⟨h, rfl, rfl⟩
  | refreeze => exact ⟨h, rfl, rfl⟩
  | digest =>
    obtain ⟨hsound, hledger⟩ := h.remember
    exact ⟨hsound, rfl, hledger⟩

/-- **Every table that can come about is sound.** -/
theorem Reachable.sound {table : Table hash} (h : Reachable table) : table.Sound := by
  induction h with
  | empty name => exact Table.sound_empty name
  | readBinary h => exact Table.sound_readBinary h
  | readText h => exact Table.sound_ofText h
  | change change _ _ ih ihmerged => exact (ih.apply change ihmerged).1

/-! ## Invariants -/

/-- What holds of every list without bindings, and is kept by each change of a list. -/
structure Ledger.Invariant (P : Ledger → Prop) : Prop where
  /-- The available key may be any, as a table that is read can begin with any. -/
  start : ∀ name available, P ⟨name, [], available⟩
  addWithKey : ∀ ledger symbol key, P ledger → P (ledger.addWithKey symbol key).2
  remove : ∀ ledger key, P ledger → P (ledger.remove key).2
  rename : ∀ ledger name, P ledger → P (ledger.rename name)

namespace Ledger.Invariant

variable {P : Ledger → Prop}

theorem addAll (hP : Invariant P) {ledger : Ledger} (h : P ledger) (symbols : List String) :
    P (ledger.addAll symbols) := by
  induction symbols generalizing ledger with
  | nil => exact h
  | cons symbol rest ih => exact ih (hP.addWithKey ledger symbol ledger.available h)

theorem onLedger (hP : Invariant P) {ledger : Ledger} (h : P ledger) (change : Change) :
    P (change.onLedger ledger).2 := by
  cases change with
  | add symbol => exact hP.addWithKey ledger symbol ledger.available h
  | addWithKey symbol key => exact hP.addWithKey ledger symbol key h
  | remove key => exact hP.remove ledger key h
  | merge source => exact hP.addAll h _
  | rename name => exact hP.rename ledger name h
  | shrink => exact h
  | copy => exact h
  | refreeze => exact h
  | digest => exact h

end Ledger.Invariant

/-- The tables that nothing was changed in yet. -/
inductive Table.Initial {hash : Hash} : Table hash → Prop where
  | empty (name : String) : Initial (.empty name)
  | readBinary {table : Table hash} {octets rest : List UInt8}
      (h : (Table.readBinary octets).value = .ok (table, rest)) : Initial table
  | readText {table : Table hash} {octets : List UInt8} {source : String}
      {options : TextFormat.Options} (h : (Table.ofText octets source options).value = .ok table) :
      Initial table

/-- Reading only adds, so what adding under a key keeps is there from the start. -/
theorem Table.Initial.keeps {P : Table hash → Prop}
    (hstart : ∀ header rest, P (Binary.Replay.start header rest).table)
    (hadd : ∀ table symbol key, P table → P (table.addWithKey symbol key).value.2)
    {table : Table hash} (h : table.Initial) : P table := by
  have hempty : ∀ name, P (.empty name) := fun name => hstart ⟨name, 0, 0⟩ []
  cases h with
  | empty name => exact hempty name
  | readBinary h => exact Table.keeps_readBinary hstart hadd h
  | readText h =>
    exact Table.keeps_ofText (hempty _) (fun table _ _ symbol key _ => hadd table symbol key) h

/-- What adding to a list of bindings keeps holds of the ledger of a table that was just read. -/
theorem Table.Initial.ledger_keeps {P : Ledger → Prop}
    (hstart : ∀ name available, P ⟨name, [], available⟩)
    (hadd : ∀ ledger symbol key, P ledger → P (ledger.addWithKey symbol key).2)
    {table : Table hash} (h : table.Initial) : P table.ledger := by
  refine (Initial.keeps (P := fun table => table.Sound ∧ P table.ledger) ?_ ?_ h).2
  · intro header rest
    exact ⟨Binary.Replay.sound_start header rest, hstart header.name header.available⟩
  · intro table symbol key hboth
    obtain ⟨hsound, hledger⟩ := hboth
    obtain ⟨hsound', -, hadded⟩ := hsound.addWithKey symbol key
    rw [hadded]
    exact ⟨hsound', hadd _ symbol key hledger⟩

/-- **An invariant of lists of bindings is one of tables**: it holds of the ledger of every table
    that can come about. -/
theorem Reachable.invariant {P : Ledger → Prop} (hP : Ledger.Invariant P) {table : Table hash}
    (h : Reachable table) : P table.ledger := by
  induction h with
  | empty name => exact hP.start name 0
  | readBinary h => exact (Table.Initial.readBinary h).ledger_keeps hP.start hP.addWithKey
  | readText h => exact (Table.Initial.readText h).ledger_keeps hP.start hP.addWithKey
  | change change h hmerged ih _ =>
    obtain ⟨-, -, hledger⟩ := h.sound.apply change fun hmerge => (hmerged hmerge).sound
    rw [hledger]
    exact hP.onLedger ih change

/-- The table that comes of adding these bindings in order. -/
def Table.ofBindings (name : String) (bindings : List (String × Key)) : Table hash :=
  bindings.foldl (fun table binding => (table.addWithKey binding.1 binding.2).value.2) (.empty name)

theorem reachable_ofBindings (name : String) (bindings : List (String × Key)) :
    Reachable (Table.ofBindings name bindings : Table hash) := by
  suffices h : ∀ start : Table hash, Reachable start → Reachable (bindings.foldl
      (fun table binding => (table.addWithKey binding.1 binding.2).value.2) start) from
    h _ (.empty name)
  induction bindings with
  | nil =>
    intro start hstart
    exact hstart
  | cons binding rest ih =>
    intro start hstart
    exact ih _ (hstart.change (.addWithKey binding.1 binding.2) fun hmerge => by cases hmerge)

theorem Reachable.remove {table : Table hash} (h : Reachable table) (key : Key) :
    Reachable (table.remove key).value.2 :=
  h.change (.remove key) fun hmerge => by cases hmerge

/-! ## Runs -/

/-- A table answers every lookup as a list of bindings does. -/
structure Table.Shows (table : Table hash) (ledger : Ledger) : Prop where
  name : table.name = ledger.name
  size : table.size = ledger.bindings.length
  available : table.availableKey = ledger.available
  find? : ∀ key, table.find? key = ledger.find? key
  keyOf? : ∀ symbol, table.keyOf? symbol = ledger.keyOf? symbol
  containsKey : ∀ key, table.containsKey key = true ↔ key ∈ ledger.keys
  containsSymbol : ∀ symbol, table.containsSymbol symbol = true ↔ symbol ∈ ledger.symbols
  nthKey? : ∀ position, table.nthKey? position = ledger.nthKey? position
  symbols : table.index.toList = ledger.symbols
  pairs : table.pairs = ledger.ascending
  /-- Going through the bindings step by step. -/
  steps : ∀ count, (table.cursor.take count).1 =
    (List.range count).map fun step => ledger.ascending[step]?

theorem Table.Sound.shows_ledger {table : Table hash} (h : table.Sound) :
    table.Shows table.ledger where
  name := rfl
  size := h.size_eq
  available := rfl
  find? := h.find?_eq
  keyOf? := h.keyOf?_eq
  containsKey := h.containsKey_iff
  containsSymbol := h.containsSymbol_iff
  nthKey? := h.nthKey?_eq
  symbols := h.symbols_eq.symm
  pairs := h.pairs_eq
  steps := h.take_cursor

/-- A run on a sound table is the run on its ledger. -/
theorem Table.Sound.changeAll {table : Table hash} (h : table.Sound) {changes : List Change}
    (hpossible : ∀ change ∈ changes, change.Possible) :
    (Table.changeAll Change.apply table changes).value.2.Sound ∧
      (Table.changeAll Change.apply table changes).value.1 =
        (Change.allOnLedger table.ledger changes).1 ∧
      (Table.changeAll Change.apply table changes).value.2.ledger =
        (Change.allOnLedger table.ledger changes).2 := by
  induction changes generalizing table with
  | nil => exact ⟨h, rfl, rfl⟩
  | cons change rest ih =>
    obtain ⟨hsound, hanswer, hledger⟩ := h.apply change
      fun hmerge => (hpossible change List.mem_cons_self hmerge).sound
    -- the rest of the run starts from the changed table, which is sound again
    obtain ⟨hsound', hanswers, hledger'⟩ :=
      ih hsound fun later hlater => hpossible later (List.mem_cons_of_mem _ hlater)
    rw [hledger] at hanswers hledger'
    refine ⟨hsound', ?_, hledger'⟩
    show (change.apply table).value.1 :: _ = (change.onLedger table.ledger).1 :: _
    rw [hanswer]
    exact congrArg _ hanswers

/-- **A table is a list of bindings**: for every table that can come about there is a list that
    answers as the table does, now and after every run of changes, and each change of the run
    answers alike.  No symbol and no key is ever in the list twice, and the reserved key never. -/
theorem Reachable.refines_ledger {start : Table hash} (h : Reachable start) :
    ∃ ledger : Ledger, ∀ changes : List Change, (∀ change ∈ changes, change.Possible) →
      (Table.changeAll Change.apply start changes).value.1 =
          (Change.allOnLedger ledger changes).1 ∧
        (Change.allOnLedger ledger changes).2.Distinct ∧
        (Table.changeAll Change.apply start changes).value.2.Shows
          (Change.allOnLedger ledger changes).2 := by
  refine ⟨start.ledger, ?_⟩
  intro changes hpossible
  obtain ⟨hsound, hanswers, hledger⟩ := h.sound.changeAll hpossible
  rw [← hledger]
  exact ⟨hanswers, hsound.distinct, hsound.shows_ledger⟩

/-- A run with a merge, on a table that puts all symbols in one bucket.  One symbol of the source
    is there already and keeps its key, the other gets the next one. -/
theorem refines_ledger_of_merge :
    let start : Table (Hash.constant 0) := .ofBindings "words" [("a", 0), ("b", 7)]
    let source : Table Hash.mixed := .ofBindings "more" [("b", 2), ("c", 5)]
    let changes : List Change := [.merge source, .add "c", .remove 7]
    let outcome := (Table.changeAll Change.apply start changes).value
    Reachable start ∧ Reachable source ∧ outcome.1 = [.done, .key 8, .removed true] ∧
      outcome.2.pairs = [(0, "a"), (8, "c")] ∧
      ∃ ledger : Ledger, outcome.1 = (Change.allOnLedger ledger changes).1 ∧
        (Change.allOnLedger ledger changes).2.Distinct ∧
        outcome.2.Shows (Change.allOnLedger ledger changes).2 := by
  intro start source changes outcome
  have hstart : Reachable start := reachable_ofBindings ..
  have hsource : Reachable source := reachable_ofBindings ..
  have hpossible : ∀ change ∈ changes, change.Possible := by
    intro change hmem _ _ hmerge
    simp only [changes, List.mem_cons, List.not_mem_nil, or_false] at hmem
    rcases hmem with rfl | rfl | rfl
    · cases hmerge
      exact hsource
    · cases hmerge
    · cases hmerge
  obtain ⟨ledger, h⟩ := Reachable.refines_ledger hstart
  exact ⟨hstart, hsource, by decide +kernel, by decide +kernel, ledger, h changes hpossible⟩

end Symtab
