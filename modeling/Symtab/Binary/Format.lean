import Symtab.Binary.Word
import Symtab.Output
import Symtab.Table

/-!
# The binary format

A table is written as

    magic number, name, available key, number of records, records

where a record is a symbol and its key, and records stand in storage order.  The magic
number has 32 bits, keys and counts have 64, all signed.  A string is its length in octets,
with 32 bits, and its octets in UTF-8.  Nothing marks the end, so tables can stand one behind
the other.

This file says how a table is written; `Symtab.Binary.Reader` reads it back.
-/

set_option autoImplicit false

namespace Symtab.Binary

open Output (Step Sink Outcome)

/-- The number that every table starts with. -/
def magic : Int32 := 2125658996

/-- The greatest length of a string, in octets. -/
def maxStringLength : Nat := 2147483647

/-- How a string is written: one that is too long is not. -/
def stringSteps (text : String) : List Step :=
  let octets := Text.Utf8.encode text
  if octets.length ≤ maxStringLength then
    [.put (Word.octets32 (Int32.ofNat octets.length)), .put octets]
  else
    [.fail (.corrupt .stringLength octets.length)]

/-- How the symbol at a position is written, with its key. -/
def recordSteps (keys : KeyMap) (entry : String × Nat) : List Step :=
  match keys.key? entry.2 with
  | none => [.fail (.corrupt .position entry.2)]
  | some key => stringSteps entry.1 ++ [.put (Word.octets64 key)]

end Binary

namespace Table

open Binary Output

variable {hash : Hash}

def binarySteps (table : Table hash) : List Step :=
  [.put (Word.octets32 magic)] ++ stringSteps table.name ++
    [.put (Word.octets64 table.availableKey),
      .put (Word.octets64 (Int64.ofNat table.size))] ++
    table.index.toList.zipIdx.flatMap (recordSteps table.keys)

def writeBinary (table : Table hash) (sink : Sink) : Logged Outcome :=
  Output.run table.binarySteps sink

def toBytes (table : Table hash) : Except Error (List UInt8) :=
  (table.writeBinary .unbounded).value.complete

end Table
end Symtab
