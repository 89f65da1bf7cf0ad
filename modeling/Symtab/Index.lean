import Symtab.Hashing
import Symtab.Logged

/-!
# The index of symbols

An index keeps each symbol once and numbers them by storage position.  The symbols stand in
an array in the order of their first insertion; beside it an array of buckets leads from a
symbol's hash to its position.  A lookup starts at the bucket that the hash names and goes
from bucket to bucket, past the last one to the first, until it meets the symbol or an empty
bucket (`Index.probe`).

Before an insertion the buckets are doubled if the symbols fill three quarters of them, even
when the symbol turns out to be present.  A removal moves every later symbol down by one
position and fills the buckets anew, as many as there were; so no bucket is ever marked as
formerly used.

A probe visits each bucket at most once.  It could run out of buckets, or meet a position
with no symbol, in an index that was not built by the operations of this file; the answer is
then `Probe.astray`, and the index stays as it is.
-/

set_option autoImplicit false

namespace Symtab

/-- Symbols, numbered in the order of their first insertion and found through `hash`. -/
structure Index (hash : Hash) where
  symbols : Array String
  /-- The storage position that each bucket leads to. -/
  buckets : Array (Option Nat)
  /-- The bits of a hash that name a bucket. -/
  mask : Nat
deriving DecidableEq, Repr

/-- How the search for a symbol ends. -/
inductive Index.Probe where
  | present (position : Nat)
  /-- The symbol is absent, and this bucket is the place for it. -/
  | vacant (bucket : Nat)
  /-- There is neither the symbol nor a place for it. -/
  | astray
deriving DecidableEq, Repr

namespace Index

variable {hash : Hash}

def initialBuckets : Nat := 16

def empty : Index hash where
  symbols := #[]
  buckets := Array.replicate initialBuckets none
  mask := initialBuckets - 1

instance : Inhabited (Index hash) := ⟨empty⟩

/-! ## Reading -/

def size (index : Index hash) : Nat := index.symbols.size

def isEmpty (index : Index hash) : Bool := index.symbols.isEmpty

def bucketCount (index : Index hash) : Nat := index.buckets.size

def get? (index : Index hash) (position : Nat) : Option String :=
  index.symbols[position]?

def toList (index : Index hash) : List String := index.symbols.toList

/-- The bucket at which the search for a symbol starts. -/
def home (hash : Hash) (mask : Nat) (symbol : String) : Nat :=
  (hash symbol).toNat &&& mask

def after (mask bucket : Nat) : Nat :=
  (bucket + 1) &&& mask

/-- Searches for a symbol from a bucket on, through at most so many buckets. -/
def probeFrom (index : Index hash) (symbol : String) : Nat → Nat → Probe
  | 0, _ => .astray
  | steps + 1, bucket =>
    match index.buckets[bucket]? with
    | none => .astray
    | some none => .vacant bucket
    | some (some position) =>
      match index.symbols[position]? with
      -- no operation below leaves a bucket that leads past the symbols
      | none => .astray
      | some stored =>
        if stored = symbol then .present position
        else index.probeFrom symbol steps (after index.mask bucket)

def probe (index : Index hash) (symbol : String) : Probe :=
  index.probeFrom symbol index.bucketCount (home hash index.mask symbol)

def find? (index : Index hash) (symbol : String) : Option Nat :=
  match index.probe symbol with
  | .present position => some position
  | _ => none

/-! ## Filling buckets -/

/-- The first empty bucket from a bucket on, among at most so many. -/
def vacancy? (buckets : Array (Option Nat)) (mask : Nat) : Nat → Nat → Option Nat
  | 0, _ => none
  | steps + 1, bucket =>
    match buckets[bucket]? with
    | none => none
    | some none => some bucket
    | some (some _) => vacancy? buckets mask steps (after mask bucket)

/-- Gives a symbol, which no bucket leads to yet, its bucket. -/
def settle (hash : Hash) (mask : Nat) (buckets : Array (Option Nat)) (entry : String × Nat) :
    Array (Option Nat) :=
  match vacancy? buckets mask buckets.size (home hash mask entry.1) with
  | none => buckets
  | some bucket => buckets.setIfInBounds bucket (some entry.2)

/-- The buckets, so many of them, of symbols by position. -/
def bucketsOf (hash : Hash) (count : Nat) (symbols : Array String) : Array (Option Nat) :=
  symbols.toList.zipIdx.foldl (settle hash (count - 1)) (Array.replicate count none)

def build (count : Nat) (symbols : Array String) : Index hash where
  symbols := symbols
  buckets := bucketsOf hash count symbols
  mask := count - 1

/-! ## Changing -/

/-- Whether the symbols fill three quarters of the buckets. -/
def isCrowded (index : Index hash) : Bool :=
  index.bucketCount * 3 ≤ index.size * 4

def grow (index : Index hash) : Logged (Index hash) :=
  if index.isCrowded then do
    let count := index.bucketCount * 2
    Logged.note (.growing index.bucketCount count)
    pure (build count index.symbols)
  else
    pure index

structure Inserted (hash : Hash) where
  index : Index hash
  position : Nat
  isNew : Bool

/-- Puts a new symbol at the end, and into the bucket that is the place for it. -/
def place : Index hash → String → Nat → Inserted hash
  | ⟨symbols, buckets, mask⟩, symbol, bucket =>
    let position := symbols.size
    let index := ⟨symbols.push symbol, buckets.setIfInBounds bucket (some position), mask⟩
    ⟨index, position, true⟩

/-- The position of a symbol, which is put at the end if it is new. -/
def insert (index : Index hash) (symbol : String) : Logged (Inserted hash) := do
  -- before it is known whether the symbol is new
  let index ← index.grow
  match index.probe symbol with
  | .present position => pure ⟨index, position, false⟩
  | .vacant bucket => pure (index.place symbol bucket)
  | .astray => pure ⟨index, index.size, false⟩

/-- Removes the symbol at a position, if there is one; later symbols move down by one. -/
def remove (index : Index hash) (position : Nat) : Option (String × Index hash) :=
  if h : position < index.symbols.size then
    some (index.symbols[position], build index.bucketCount (index.symbols.eraseIdx position h))
  else
    none

/-- Gives back unused storage, of which an index has none. -/
def shrink (index : Index hash) : Index hash := index

/-! ## Showing -/

def describe (index : Index hash) : String :=
  let symbols := ", ".intercalate (index.toList.map Text.Quoted.quote)
  s!"SymbolIndex \x7b symbols: [{symbols}], buckets: {index.bucketCount} \x7d"

end Index
end Symtab
