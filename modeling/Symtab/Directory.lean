import Symtab.Binary.Reader
import Symtab.TextFormat.Reader
import Symtab.TextFormat.Writer
import Std.Data.ExtTreeMap

/-!
# Tables in files

A directory is a map from names to octets.  It has no directories in it, so a name with a
slash can neither be created nor found.

Writing first creates the file, or empties it, and then carries out the steps of the format;
so a file is empty when its options are refused.  What goes wrong is an error of the file,
with the cause inside.
-/

set_option autoImplicit false

namespace Symtab

open Output (Step)
open TextFormat (Options)

structure Directory where
  files : Std.ExtTreeMap String (List UInt8)

namespace Directory

variable {hash : Hash}

def empty : Directory := ⟨∅⟩

instance : Inhabited Directory := ⟨empty⟩

def get? (directory : Directory) (path : String) : Option (List UInt8) :=
  directory.files[path]?

def put (directory : Directory) (path : String) (octets : List UInt8) : Directory :=
  ⟨directory.files.insert path octets⟩

/-- Whether a file of this name can be created. -/
def admits (path : String) : Bool := !path.toList.contains '/'

/-- Carries out steps on a new file, and answers the directory afterwards with the error, if
    there was one. -/
def save (directory : Directory) (path : String) (steps : List Step) :
    Logged (Option Error × Directory) := do
  if admits path then
    let outcome ← Output.run steps .unbounded
    pure (outcome.error.map (.file path), directory.put path outcome.written)
  else
    pure (some (.file path (.stream .notFound)), directory)

def load (directory : Directory) (path : String)
    (read : List UInt8 → Logged (Except Error (Table hash))) :
    Logged (Except Error (Table hash)) :=
  match directory.get? path with
  | none => pure (.error (.file path (.stream .notFound)))
  | some octets => do
    pure ((← read octets).mapError (.file path))

def saveBinary (directory : Directory) (path : String) (table : Table hash) :
    Logged (Option Error × Directory) :=
  directory.save path table.binarySteps

def saveText (directory : Directory) (path : String) (options : Options)
    (table : Table hash) : Logged (Option Error × Directory) :=
  directory.save path (table.textSteps options)

def loadBinary (directory : Directory) (path : String) :
    Logged (Except Error (Table hash)) :=
  directory.load path Table.ofBytes

/-- Reads a table from a text file.  The table is called after the file. -/
def loadText (directory : Directory) (path : String) (options : Options) :
    Logged (Except Error (Table hash)) :=
  directory.load path fun octets => Table.ofText octets path options

end Directory
end Symtab
