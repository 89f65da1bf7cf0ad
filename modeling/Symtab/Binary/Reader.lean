import Symtab.Binary.Format

/-!
# Reading the binary format

A table is read from the front of a list of octets, and what is behind it is left.  The
fields are read in order, and the first that is cut short, or holds an impossible number or
ill-formed text, is the error.

The records are replayed: each is added to the table under its key, as `Table.addWithKey`
does it.  A record whose symbol came before is passed over, whatever its key; a new symbol
under a key that is taken is an error.  The number of records is what the octets say, and
may be far more than there are, so `Replay.run` ends at the first record that fails, and
says how far it came.
-/

set_option autoImplicit false

namespace Symtab.Binary

/-- A reader takes octets from the front and leaves the rest. -/
abbrev Reader := StateT (List UInt8) (Except Error)

namespace Reader

/-- Takes so many octets, or fails if there are fewer. -/
def take (count : Nat) (fault : StreamFault) : Reader (List UInt8) := fun octets =>
  let front := octets.take count
  if front.length < count then .error (.stream fault) else .ok (front, octets.drop count)

def int32 : Reader Int32 := do
  let octets ← take 4 .cutInNumber
  pure (Word.ofOctets32 octets)

def int64 : Reader Int64 := do
  let octets ← take 8 .cutInNumber
  pure (Word.ofOctets64 octets)

def string : Reader String := do
  let length ← int32
  if length < 0 then
    throw (.corrupt .stringLength length.toInt)
  let octets ← take length.toInt.toNat .cutInString
  match Text.Utf8.decode octets with
  | .ok text => pure text
  | .error fault => throw (.utf8 fault)

/-- What stands before the records. -/
structure Header where
  name : String
  available : Key
  count : Nat
deriving DecidableEq, Repr

def header : Reader Header := do
  let found ← int32
  if found ≠ magic then
    throw (.badMagic found)
  let name ← string
  let available ← int64
  let count ← int64
  if count < 0 then
    throw (.corrupt .symbolCount count.toInt)
  pure { name, available, count := count.toInt.toNat }

def record : Reader (String × Key) := do
  let symbol ← string
  let key ← int64
  if key = Key.noSymbol then
    throw (.corrupt .key key.toInt)
  pure (symbol, key)

end Reader

/-! ## Replaying records -/

/-- How far the records were replayed. -/
structure Replay (hash : Hash) where
  table : Table hash
  rest : List UInt8
  completed : Nat

namespace Replay

variable {hash : Hash}

/-- The table of a header, before the first record. -/
def start (header : Reader.Header) (rest : List UInt8) : Replay hash :=
  let table : Table hash := .empty header.name
  { table := { table with keys := { table.keys with available := header.available } }
    rest
    completed := 0 }

def add (replay : Replay hash) (symbol : String) (key : Key) (rest : List UInt8) :
    Logged (Except Error (Replay hash)) := do
  let (added, table) ← replay.table.addWithKey symbol key
  if added = Key.noSymbol then
    pure (.error (.duplicateKey replay.table.name symbol key))
  else
    pure (.ok { table, rest, completed := replay.completed + 1 })

def step (replay : Replay hash) : Logged (Except Error (Replay hash)) :=
  match Reader.record replay.rest with
  | .error error => pure (.error error)
  | .ok ((symbol, key), rest) => replay.add symbol key rest

/-- Replays so many records, or as many as can be, with the error that ends it then. -/
def run : Nat → Replay hash → Logged (Replay hash × Option Error)
  | 0, replay => pure (replay, none)
  | count + 1, replay => do
    match ← replay.step with
    | .error error => pure (replay, some error)
    | .ok replay => run count replay

end Replay
end Binary

namespace Table

open Binary

variable {hash : Hash}

/-- Reads a table from the front of octets, and leaves the rest. -/
def readBinary (octets : List UInt8) : Logged (Except Error (Table hash × List UInt8)) :=
  match Reader.header octets with
  | .error error => pure (.error error)
  | .ok (header, rest) => do
    match ← Replay.run header.count (.start header rest) with
    | (_, some error) => pure (.error error)
    | (replay, none) => pure (.ok (replay.table.shrink, replay.rest))

/-- Reads a table from octets; what is behind it does not matter. -/
def ofBytes (octets : List UInt8) : Logged (Except Error (Table hash)) := do
  pure ((← readBinary octets).map Prod.fst)

end Table
end Symtab
