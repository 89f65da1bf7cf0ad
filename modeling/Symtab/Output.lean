import Symtab.Error
import Symtab.Logged

/-!
# Output

A format lays down what is written as a list of steps: pieces of octets, reports, and
failures.  `Step.run` carries the steps out on a sink, which takes octets as long as it has
room.  A piece that does not fit is taken as far as there is room, and then the output ends;
what the sink holds at the end is thus always a front part of what an unbounded sink would
hold.
-/

set_option autoImplicit false

namespace Symtab.Output

/-- A place that octets are written to. -/
structure Sink where
  written : Array UInt8
  /-- How many more octets there is room for, if that is limited. -/
  room : Option Nat
deriving DecidableEq, Repr

namespace Sink

def unbounded : Sink := ⟨#[], none⟩

def bounded (limit : Nat) : Sink := ⟨#[], some limit⟩

/-- Writes what there is room for, and answers whether that was all. -/
def put (sink : Sink) (piece : List UInt8) : Bool × Sink :=
  match sink.room with
  | none => (true, ⟨sink.written ++ piece, none⟩)
  | some room =>
    (piece.length ≤ room, ⟨sink.written ++ piece.take room, some (room - piece.length)⟩)

end Sink

inductive Step where
  | put (piece : List UInt8)
  | note (notice : Notice)
  | fail (error : Error)
deriving DecidableEq, Repr

structure Outcome where
  written : List UInt8
  error : Option Error
deriving DecidableEq, Repr

/-- Carries out steps until one fails. -/
def run : List Step → Sink → Logged Outcome
  | [], sink => pure ⟨sink.written.toList, none⟩
  | .put piece :: steps, sink =>
    match sink.put piece with
    | (true, sink) => run steps sink
    | (false, sink) => pure ⟨sink.written.toList, some (.stream .noRoom)⟩
  | .note notice :: steps, sink => do
    Logged.note notice
    run steps sink
  | .fail error :: _, sink => pure ⟨sink.written.toList, some error⟩

/-- What an outcome answers when a part of the output is of no use. -/
def Outcome.complete (outcome : Outcome) : Except Error (List UInt8) :=
  match outcome.error with
  | none => .ok outcome.written
  | some error => .error error

end Symtab.Output
