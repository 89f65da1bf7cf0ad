import Symtab.Error
import Symtab.Table
import Symtab.Text.Lines
import Symtab.TextFormat.Options

/-!
# Reading the text format

A table is read line by line.  A line without fields is passed over; any other has two, a
symbol and a key.  Each symbol is added under its key, as `Table.addWithKey` does it, so a
symbol that came before is passed over, and a new symbol under a key that is taken is an
error.

The first line that is wrong in any way is the error, and of a line that is wrong in two ways
the first of these counts: it is not UTF-8, it has not two fields, its key is not permitted,
its key is taken.
-/

set_option autoImplicit false

namespace Symtab

open TextFormat

namespace TextFormat

/-- The key that a field denotes, if it is permitted. -/
def permittedKey? (options : Options) (field : String) : Option Key := do
  let key ← Key.parse? field
  if key = Key.noSymbol ∨ (key < 0 ∧ !options.allowNegative) then none else some key

/-- The binding of a line, if it has one; the line's number counts from one. -/
def entryOfLine (options : Options) (source : String) (number : Nat) (line : List UInt8) :
    Except Error (Option (String × Key)) :=
  match Text.Utf8.decode? line with
  | none => .error (.stream .notUtf8)
  | some text =>
    match Text.Lines.fields options.isSeparator text with
    | [] => .ok none
    | [symbol, field] =>
      match permittedKey? options field with
      | none => .error (.badKey source number field)
      | some key => .ok (some (symbol, key))
    | fields => .error (.columnCount source number fields.length)

variable {hash : Hash}

/-- Adds the bindings of lines to a table, given the number of the first. -/
def addLines (options : Options) (source : String) :
    Nat → Table hash → List (List UInt8) → Logged (Except Error (Table hash))
  | _, table, [] => pure (.ok table)
  | number, table, line :: rest =>
    match entryOfLine options source number line with
    | .error error => pure (.error error)
    | .ok none => addLines options source (number + 1) table rest
    | .ok (some (symbol, key)) => do
      let (added, table) ← table.addWithKey symbol key
      if added = Key.noSymbol then
        pure (.error (.duplicateKey source symbol key))
      else
        addLines options source (number + 1) table rest

end TextFormat

namespace Table

variable {hash : Hash}

/-- Reads a table from text.  The table is called after the text's source. -/
def ofText (octets : List UInt8) (source : String) (options : Options) :
    Logged (Except Error (Table hash)) := do
  pure ((← addLines options source 1 (.empty source) (Text.Lines.lines octets)).map shrink)

end Table
end Symtab
