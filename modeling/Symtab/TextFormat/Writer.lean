import Symtab.Output
import Symtab.Table
import Symtab.TextFormat.Options

/-!
# Writing the text format

A table is written as one line for each binding, in ascending order of keys: the symbol, the
first separator, the key and a line feed.  Nothing is quoted, so a symbol that is empty, or
holds a separator or a line feed, is not read back as itself.

A negative key is written whatever the options say.  If they do not allow it, the first one
is reported, before its line.
-/

set_option autoImplicit false

namespace Symtab

open TextFormat Output

namespace TextFormat

def lineSteps (separator : Char) (key : Key) (symbol : String) : List Step :=
  [.put (Text.Utf8.encode symbol), .put (Text.Utf8.encode (String.singleton separator)),
    .put (Text.Utf8.encode key.render), .put (Text.Utf8.encode "\n")]

/-- The steps that write bindings.  The flag says that a negative key needs no report: it is
    allowed, or one was reported. -/
def linesSteps (table : String) (separator : Char) :
    Bool → List (Key × String) → List Step
  | _, [] => []
  | silent, (key, symbol) :: rest =>
    let reported := key < 0 && !silent
    (if reported then [.note (.negativeKey table key)] else []) ++
      lineSteps separator key symbol ++ linesSteps table separator (silent || reported) rest

end TextFormat

namespace Table

variable {hash : Hash}

def textSteps (table : Table hash) (options : Options) : List Step :=
  match options.outputSeparator? with
  | none => [.fail .missingSeparator]
  | some separator => linesSteps table.name separator options.allowNegative table.pairs

def writeText (table : Table hash) (options : Options) (sink : Sink) : Logged Outcome :=
  Output.run (table.textSteps options) sink

def toText (table : Table hash) (options : Options) : Logged (Except Error (List UInt8)) := do
  pure (← table.writeText options .unbounded).complete

end Table
end Symtab
