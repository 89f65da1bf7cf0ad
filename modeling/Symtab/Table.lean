import Symtab.Digest.Sha256
import Symtab.Index
import Symtab.KeyMap
import Symtab.Text.Utf8

/-!
# Symbol tables

A symbol table binds keys to symbols: no symbol has two keys, and no key has two symbols.
It has a name, keeps its symbols in an `Index` in the order in which they came, and a
`KeyMap` says which key each storage position has.

A table has two digests.  The content digest covers the symbols in storage order, each with
a zero octet behind it, and no key.  The labeled digest covers the bindings whose key is not
negative, by key, each as its symbol, a tab and the key.  Both are computed together when
one is first asked for, and are then kept until the next change of the bindings.

Lookups answer at once; an operation that may report something answers a `Logged` value.
-/

set_option autoImplicit false

namespace Symtab

structure Checksums where
  content : Digest
  labeled : Digest
deriving DecidableEq, Repr

/-- A map between keys and symbols, in both directions. -/
structure Table (hash : Hash) where
  name : String
  index : Index hash
  keys : KeyMap
  /-- The digests, if they were computed since the last change. -/
  cache : Option Checksums

namespace Table

variable {hash : Hash}

def empty (name : String) : Table hash where
  name := name
  index := .empty
  keys := .empty
  cache := none

instance : Inhabited (Table hash) := ⟨empty ""⟩

/-! ## Lookups -/

def size (table : Table hash) : Nat := table.index.size

def isEmpty (table : Table hash) : Bool := table.size = 0

/-- The key under which a new symbol would be added. -/
def availableKey (table : Table hash) : Key := table.keys.available

def denseLimit (table : Table hash) : Nat := table.keys.denseLimit

def find? (table : Table hash) (key : Key) : Option String :=
  (table.keys.position? key).bind table.index.get?

def keyOf? (table : Table hash) (symbol : String) : Option Key :=
  (table.index.find? symbol).bind table.keys.key?

def containsKey (table : Table hash) (key : Key) : Bool :=
  (table.find? key).isSome

def containsSymbol (table : Table hash) (symbol : String) : Bool :=
  (table.keyOf? symbol).isSome

def nthKey? (table : Table hash) (position : Nat) : Option Key :=
  table.keys.key? position

def storageKeys (table : Table hash) : List Key := table.keys.toList

def entry? (table : Table hash) (entry : Key × Nat) : Option (Key × String) :=
  (table.index.get? entry.2).map fun symbol => (entry.1, symbol)

def pairs (table : Table hash) : List (Key × String) :=
  table.keys.entries.filterMap table.entry?

/-! ## Digests -/

def contentOctets (table : Table hash) : List UInt8 :=
  table.index.toList.flatMap fun symbol => Text.Utf8.encode symbol ++ [0]

/-- The octets of one binding in the labeled digest. -/
def labeledEntry (key : Key) (symbol : String) : List UInt8 :=
  Text.Utf8.encode (symbol ++ "\t" ++ key.render)

/-- The octets of the dense bindings in the labeled digest. -/
def denseOctets (table : Table hash) : List UInt8 :=
  (table.index.toList.take table.denseLimit).zipIdx.flatMap fun (symbol, position) =>
    labeledEntry (Key.ofPosition position) symbol

/-- The octets of the bindings above the dense range in the labeled digest. -/
def sparseOctets (table : Table hash) : List UInt8 :=
  table.keys.sparse.toList.flatMap fun (key, position) =>
    -- of the keys that are not dense, these are the negative ones
    if key.toInt < table.denseLimit then []
    else ((table.index.get? position).map (labeledEntry key)).getD []

def labeledOctets (table : Table hash) : List UInt8 :=
  table.denseOctets ++ table.sparseOctets

def computeChecksums (table : Table hash) : Checksums where
  content := Digest.Sha256.hash table.contentOctets
  labeled := Digest.Sha256.hash table.labeledOctets

/-- The digests: those that were kept, or computed now. -/
def checksums (table : Table hash) : Checksums :=
  table.cache.getD table.computeChecksums

def remember (table : Table hash) : Table hash :=
  { table with cache := some table.checksums }

/-! ## Changes -/

/-- Adds a symbol that is absent under a key that is free. -/
def bindNew : Table hash → String → Key → Logged (Table hash)
  | ⟨name, index, keys, _⟩, symbol, key => do
    let inserted ← index.insert symbol
    pure ⟨name, inserted.index, keys.record key inserted.position, none⟩

/-- Adds a symbol under a key, and answers the key that the symbol has afterwards.  A symbol
    that is present keeps the key it has.  The reserved key, and a key that names another
    symbol, leave the table as it is and answer the reserved key. -/
def addWithKey (table : Table hash) (symbol : String) (key : Key) :
    Logged (Key × Table hash) :=
  if key = Key.noSymbol then
    pure (Key.noSymbol, table)
  else
    match table.index.find? symbol with
    | some position => do
      -- a symbol without a key would be one that the key map has lost
      let existing := (table.keys.key? position).getD Key.noSymbol
      if existing ≠ key then
        Logged.note (.alreadyBound symbol existing key)
      pure (existing, table)
    | none =>
      match table.find? key with
      | some taken => do
        Logged.note (.keyTaken table.name key taken symbol)
        pure (Key.noSymbol, table)
      | none => do
        let table ← table.bindNew symbol key
        pure (key, table)

def add (table : Table hash) (symbol : String) : Logged (Key × Table hash) :=
  table.addWithKey symbol table.availableKey

/-- Removes the binding of a key, and answers whether there was one. -/
def remove (table : Table hash) (key : Key) : Logged (Bool × Table hash) :=
  match table.keys.remove key with
  | none => do
    Logged.note (.nothingToRemove table.name key)
    pure (false, table)
  | some (position, keys) =>
    -- the key led to this position, so there is a symbol to remove
    let index := ((table.index.remove position).map Prod.snd).getD table.index
    pure (true, { table with index, keys, cache := none })

/-- Makes one change for each item, in order, and collects the answers. -/
def changeAll {α β : Type} (change : Table hash → α → Logged (β × Table hash)) :
    Table hash → List α → Logged (List β × Table hash)
  | table, [] => pure ([], table)
  | table, item :: rest => do
    let (answer, table) ← change table item
    let (answers, table) ← changeAll change table rest
    pure (answer :: answers, table)

def addAll (table : Table hash) (symbols : List String) : Logged (List Key × Table hash) :=
  changeAll add table symbols

/-- Adds the symbols of another table in the order of its keys.  The keys are not carried
    over. -/
def merge {other : Hash} (table : Table hash) (source : Table other) :
    Logged (Table hash) := do
  let (_, table) ← table.addAll (source.pairs.map Prod.snd)
  pure table

def rename (table : Table hash) (name : String) : Table hash :=
  { table with name }

/-- Gives back unused storage, of which a table has none. -/
def shrink (table : Table hash) : Table hash := table

/-! ## Showing -/

def describe (table : Table hash) : String :=
  s!"SymbolTable \x7b name: {Text.Quoted.quote table.name}, " ++
    s!"available_key: {table.availableKey.render}, dense_key_limit: {table.denseLimit}, " ++
    s!"symbols: {table.size} \x7d"

end Table
end Symtab
