import Symtab.Key
import Symtab.Text.Quoted
import Symtab.Text.Utf8

/-!
# Errors

Why a table could not be read or written.  Lookups and changes never fail; only the
operations that meet octets, text or files answer one of these causes.  `Error.message` is
the only place where a cause is put into words.
-/

set_option autoImplicit false

namespace Symtab

open Text.Quoted (quote)

/-- What went wrong with a stream or a file as such. -/
inductive StreamFault where
  | cutInNumber
  | cutInString
  | notUtf8
  | noRoom
  | notFound
deriving DecidableEq, Repr

def StreamFault.message : StreamFault → String
  | cutInNumber => "failed to fill whole buffer"
  | cutInString => "unexpected end of file"
  | notUtf8 => "stream did not contain valid UTF-8"
  | noRoom => "failed to write whole buffer"
  | notFound => "No such file or directory (os error 2)"

/-- A part of the binary format that can hold an impossible number. -/
inductive Field where
  | stringLength
  | symbolCount
  | key
  | position
deriving DecidableEq, Repr

def Field.name : Field → String
  | stringLength => "string length"
  | symbolCount => "symbol count"
  | key => "key"
  | position => "position"

inductive Error where
  | stream (fault : StreamFault)
  | file (path : String) (source : Error)
  | badMagic (found : Int32)
  | corrupt (field : Field) (value : Int)
  | utf8 (fault : Text.Utf8.Fault)
  /-- A new symbol asks for a key that names another symbol. -/
  | duplicateKey (table symbol : String) (key : Key)
  /-- A line, counted from one, does not have two fields. -/
  | columnCount (table : String) (line count : Nat)
  /-- The second field of a line, counted from one, is no permitted key. -/
  | badKey (table : String) (line : Nat) (value : String)
  /-- There is no character to put between a symbol and its key. -/
  | missingSeparator
deriving DecidableEq, Repr

def Error.message : Error → String
  | stream fault => s!"symbol table I/O failed: {fault.message}"
  | file path source => s!"symbol table file {path}: {source.message}"
  | badMagic found => s!"bad symbol table magic number {Text.Decimal.render found.toInt}"
  | corrupt field value =>
    s!"corrupt symbol table: {field.name} is {Text.Decimal.render value}"
  | utf8 fault => s!"symbol table string is not UTF-8: {fault.message}"
  | duplicateKey table symbol key =>
    s!"{table}: key {key.render} for symbol {quote symbol} is already in use"
  | columnCount table line count =>
    s!"{table}, line {line}: bad number of columns ({count})"
  | badKey table line value =>
    s!"{table}, line {line}: bad non-negative integer {quote value}"
  | missingSeparator => "missing required field separator"

end Symtab
