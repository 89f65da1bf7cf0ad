import Symtab.Index

/-!
# Walking an index

A walk goes through the symbols of an index from both ends at once.  It holds the symbols
that neither end has reached; each step takes one or more of them away, and a walk that has
none left stays so.
-/

set_option autoImplicit false

namespace Symtab.Index

/-- The symbols that a walk has still before it. -/
structure Walk where
  rest : List String
deriving DecidableEq, Repr

def walk {hash : Hash} (index : Index hash) : Walk := ⟨index.toList⟩

namespace Walk

def size (walk : Walk) : Nat := walk.rest.length

def next (walk : Walk) : Option String × Walk :=
  (walk.rest.head?, ⟨walk.rest.tail⟩)

def nextBack (walk : Walk) : Option String × Walk :=
  (walk.rest.getLast?, ⟨walk.rest.dropLast⟩)

/-- The answers of so many steps, and the walk behind them. -/
def take : Nat → Walk → List (Option String) × Walk
  | 0, walk => ([], walk)
  | count + 1, walk =>
    let (symbol, walk) := walk.next
    let (symbols, walk) := take count walk
    (symbol :: symbols, walk)

/-- Passes over so many symbols and takes the one after them. -/
def skip (walk : Walk) (count : Nat) : Option String × Walk :=
  (walk.rest[count]?, ⟨walk.rest.drop (count + 1)⟩)

end Walk
end Symtab.Index
