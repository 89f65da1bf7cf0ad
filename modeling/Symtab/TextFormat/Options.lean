import Symtab.Text.Quoted

/-!
# Options of the text format

Which characters separate the fields of a line, and whether a key may be negative.  All
separators count when a line is read; the first is the one that is written.
-/

set_option autoImplicit false

namespace Symtab.TextFormat

structure Options where
  /-- Whether a line that is read may have a negative key, and a line that is written may
      have one without a report. -/
  allowNegative : Bool
  separators : String
deriving DecidableEq, Repr

namespace Options

/-- Fields are separated by tabs and spaces, and keys are not negative. -/
def standard : Options := ⟨false, "\t "⟩

instance : Inhabited Options := ⟨standard⟩

/-- The character to write between a symbol and its key. -/
def outputSeparator? (options : Options) : Option Char :=
  options.separators.toList.head?

/-- Whether a character separates fields; a line feed always does. -/
def isSeparator (options : Options) (c : Char) : Bool :=
  c == '\n' || options.separators.toList.contains c

def describe (options : Options) : String :=
  s!"TextOptions \x7b allow_negative_labels: {options.allowNegative}, " ++
    s!"field_separator: {Text.Quoted.quote options.separators} \x7d"

end Options
end Symtab.TextFormat
