import Symtab.Key
import Symtab.Text.Quoted

/-!
# Notices

What an operation reports besides its answer: a key or symbol that was not taken up, an
index that grew, a negative key in a text, two tables that do not agree.  A notice never
changes an answer.  Each cause has its level and its wording here and nowhere else.
-/

set_option autoImplicit false

namespace Symtab

open Text.Quoted (quote)

inductive Level where
  | trace
  | debug
  | warn
deriving DecidableEq, Repr

def Level.word : Level → String
  | .trace => "TRACE"
  | .debug => "DEBUG"
  | .warn => "WARN"

inductive Notice where
  /-- A symbol was added again under another key than its own. -/
  | alreadyBound (symbol : String) (existing requested : Key)
  /-- A new symbol was added under a key that names another symbol. -/
  | keyTaken (table : String) (key : Key) (taken symbol : String)
  | nothingToRemove (table : String) (key : Key)
  | growing (before after : Nat)
  /-- A negative key was written as text without leave. -/
  | negativeKey (table : String) (key : Key)
  | incompatible (left : String) (leftSize : Nat) (right : String) (rightSize : Nat)
deriving DecidableEq, Repr

namespace Notice

def level : Notice → Level
  | alreadyBound .. | nothingToRemove .. => .debug
  | growing .. => .trace
  | keyTaken .. | negativeKey .. | incompatible .. => .warn

def message : Notice → String
  | alreadyBound symbol existing requested =>
    s!"symbol {quote symbol} already has key {existing.render}, " ++
      s!"ignoring requested key {requested.render}"
  | keyTaken table key taken symbol =>
    s!"key {key.render} already names symbol {quote taken}, " ++
      s!"not adding symbol {quote symbol} to table {quote table}"
  | nothingToRemove table key =>
    s!"key {key.render} not in table {quote table}, nothing to remove"
  | growing before after =>
    s!"growing symbol index from {before} to {after} buckets"
  | negativeKey table key =>
    s!"negative key {key.render} in symbol table {quote table} " ++
      "while negative labels are disallowed"
  | incompatible left leftSize right rightSize =>
    s!"symbol tables {quote left} ({leftSize} symbols) and " ++
      s!"{quote right} ({rightSize} symbols) are incompatible"

end Notice
end Symtab
