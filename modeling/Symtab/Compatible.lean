import Symtab.Table

/-!
# Compatible tables

Two transducers can be combined only if their tables bind the same keys to the same symbols.
Whether they do is read off the labeled digests, so neither names, nor storage order, nor
negative keys matter.  A table that is absent agrees with every other.
-/

set_option autoImplicit false

namespace Symtab

structure Policy where
  /-- Whether they are compared at all. -/
  check : Bool
  /-- Whether tables that differ are reported. -/
  warn : Bool
deriving DecidableEq, Repr

namespace Policy

def strict : Policy := ⟨true, true⟩

/-- Any two tables agree. -/
def unchecked : Policy := ⟨false, false⟩

instance : Inhabited Policy := ⟨strict⟩

def describe (policy : Policy) : String :=
  s!"CompatPolicy \x7b check: {policy.check}, warn: {policy.warn} \x7d"

end Policy

/-- Whether two tables, each of which may be absent, agree. -/
def compatible {left right : Hash} (a : Option (Table left)) (b : Option (Table right))
    (policy : Policy) : Logged Bool :=
  match policy.check, a, b with
  | true, some a, some b =>
    if a.checksums.labeled = b.checksums.labeled then
      pure true
    else do
      if policy.warn then
        Logged.note (.incompatible a.name a.size b.name b.size)
      pure false
  | _, _, _ => pure true

end Symtab
