import Symtab.Table

/-!
# Going through a table

A cursor goes through the bindings of a table in ascending order of their keys.  It holds
the entries of the key map that it has not reached, and counts down the symbols that are
left from the number there were: the count and the entries are kept apart, and agree when
table and cursor were built by the operations of this library.
-/

set_option autoImplicit false

namespace Symtab.Table

/-- A place among the bindings of a table. -/
structure Cursor where
  symbols : Array String
  /-- The keys and positions still to come, by key. -/
  pending : List (Key × Nat)
  remaining : Nat
deriving DecidableEq, Repr

def cursor {hash : Hash} (table : Table hash) : Cursor where
  symbols := table.index.symbols
  pending := table.keys.entries
  remaining := table.size

namespace Cursor

/-- The next binding, and the cursor behind it; none at the end, and then none ever after. -/
def next (cursor : Cursor) : Option (Key × String) × Cursor :=
  match cursor.pending with
  | [] => (none, cursor)
  | (key, position) :: pending =>
    (cursor.symbols[position]?.map fun symbol => (key, symbol),
      { cursor with pending, remaining := cursor.remaining - 1 })

/-- The answers of so many steps, and the cursor behind them. -/
def take : Nat → Cursor → List (Option (Key × String)) × Cursor
  | 0, cursor => ([], cursor)
  | count + 1, cursor =>
    let (binding, cursor) := cursor.next
    let (bindings, cursor) := take count cursor
    (binding :: bindings, cursor)

def rest (cursor : Cursor) : List (Key × String) :=
  cursor.pending.filterMap fun entry =>
    cursor.symbols[entry.2]?.map fun symbol => (entry.1, symbol)

/-- The least number of bindings still to come, and the greatest if there is one. -/
def sizeHint (cursor : Cursor) : Nat × Option Nat :=
  (cursor.remaining, some cursor.remaining)

/-- How many bindings are still to come, as the two ends of the hint have to agree on it. -/
def length? (cursor : Cursor) : Option Nat :=
  if cursor.sizeHint.2 = some cursor.sizeHint.1 then some cursor.sizeHint.1 else none

end Cursor
end Symtab.Table
