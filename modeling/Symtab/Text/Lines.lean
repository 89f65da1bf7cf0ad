/-!
# Lines and fields

How a text is cut.  A line ends at a line feed, and a carriage return directly before that
line feed belongs to the line's end.  Octets after the last line feed are a line of their
own, which keeps a carriage return at its end; when there are none, they are no line.

A field is a longest run of characters that are not separators, so a line has no empty
field, however many separators stand together.
-/

set_option autoImplicit false

namespace Symtab.Text.Lines

def lineFeed : UInt8 := 0x0A

/-- The octet that may stand before a line feed as part of the line's end. -/
def carriageReturn : UInt8 := 0x0D

/-- A terminated line, without a carriage return at its end. -/
def chomp (line : List UInt8) : List UInt8 :=
  if line.getLast? = some carriageReturn then line.dropLast else line

/-- The lines that pieces between line feeds stand for: the last piece has no line feed
    behind it. -/
def ofPieces : List (List UInt8) → List (List UInt8)
  | [] => []
  | [last] => if last.isEmpty then [] else [last]
  | piece :: next :: rest => chomp piece :: ofPieces (next :: rest)

def lines (octets : List UInt8) : List (List UInt8) :=
  ofPieces (octets.splitOn lineFeed)

def fields (isSeparator : Char → Bool) (line : String) : List String :=
  ((line.toList.splitOnP isSeparator).filter fun field => !field.isEmpty).map String.ofList

end Symtab.Text.Lines
