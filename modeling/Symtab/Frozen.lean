import Symtab.Table

/-!
# Frozen tables

A frozen table can be read and copied, and nothing can change it any more; `Frozen.thaw`
gives a table to change, which the frozen one knows nothing of.
-/

set_option autoImplicit false

namespace Symtab

/-- A table that only answers lookups. -/
structure Frozen (hash : Hash) where
  table : Table hash

variable {hash : Hash}

def Table.freeze (table : Table hash) : Frozen hash := ⟨table.shrink⟩

namespace Frozen

def thaw (frozen : Frozen hash) : Table hash := frozen.table

/-- The frozen table with its digests kept, which no lookup can tell from the one before. -/
def remember (frozen : Frozen hash) : Frozen hash := ⟨frozen.table.remember⟩

def describe (frozen : Frozen hash) : String :=
  s!"ConstSymbolTable \x7b inner: {frozen.table.describe} \x7d"

end Frozen
end Symtab
