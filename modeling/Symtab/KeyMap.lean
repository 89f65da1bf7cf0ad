import Symtab.Key
import Std.Data.ExtTreeMap

/-!
# Keys and positions

A key map says which key stands at which storage position.  Most tables hand out their keys
in order from zero, and then key and position are the same number: below the dense limit
nothing is stored at all.  Every other key is in an ordered map from keys to positions, and
an array leads back from the positions at or above the dense limit to their keys.

A key map also knows the key that the table will hand out next.  It is above every key that
was recorded, except that nothing is above the greatest key.

Removing a key closes the gap in the positions: every later position moves down by one.  If
the key was dense, the dense range ends there, and the keys behind it, which keep their
numbers but now stand one position lower, move over to the ordered map.
-/

set_option autoImplicit false

namespace Symtab

/-- The correspondence between keys and storage positions. -/
structure KeyMap where
  /-- Below this number, key and position are the same. -/
  denseLimit : Nat
  sparse : Std.ExtTreeMap Key Nat
  /-- The other keys, by position from the dense limit on. -/
  sparseKeys : Array Key
  available : Key

namespace KeyMap

def empty : KeyMap where
  denseLimit := 0
  sparse := ∅
  sparseKeys := #[]
  available := 0

instance : Inhabited KeyMap := ⟨empty⟩

/-! ## Reading -/

/-- A dense key is its own position. -/
def IsDense (keys : KeyMap) (key : Key) : Prop :=
  0 ≤ key ∧ key.toNatClampNeg < keys.denseLimit

instance (keys : KeyMap) (key : Key) : Decidable (keys.IsDense key) :=
  inferInstanceAs (Decidable (_ ∧ _))

def position? (keys : KeyMap) (key : Key) : Option Nat :=
  if keys.IsDense key then some key.toNatClampNeg else keys.sparse[key]?

def key? (keys : KeyMap) (position : Nat) : Option Key :=
  if position < keys.denseLimit then some (Key.ofPosition position)
  else keys.sparseKeys[position - keys.denseLimit]?

def toList (keys : KeyMap) : List Key :=
  (List.range keys.denseLimit).map Key.ofPosition ++ keys.sparseKeys.toList

def negative (keys : KeyMap) : List (Key × Nat) :=
  keys.sparse.toList.filter fun entry => entry.1 < 0

def dense (keys : KeyMap) : List (Key × Nat) :=
  (List.range keys.denseLimit).map fun position => (Key.ofPosition position, position)

/-- The keys from zero on that are not dense, with their positions, by key. -/
def upper (keys : KeyMap) : List (Key × Nat) :=
  keys.sparse.toList.filter fun entry => 0 ≤ entry.1

/-- All keys with their positions, by key: no key of the ordered map lies among the dense
    ones. -/
def entries (keys : KeyMap) : List (Key × Nat) :=
  keys.negative ++ keys.dense ++ keys.upper

/-! ## Changing -/

/-- Records a key for a position, which is the one behind all others.  The dense range grows
    when the key and the position are both its limit. -/
def record (keys : KeyMap) (key : Key) (position : Nat) : KeyMap :=
  let available := if keys.available ≤ key then key.succ else keys.available
  if 0 ≤ key ∧ key.toNatClampNeg = keys.denseLimit ∧ position = keys.denseLimit then
    { keys with
      denseLimit := keys.denseLimit + 1
      available }
  else
    { keys with
      sparse := keys.sparse.insert key position
      sparseKeys := keys.sparseKeys.push key
      available }

/-- The dense keys behind one of them, by key. -/
def denseAfter (keys : KeyMap) (position : Nat) : List Nat :=
  List.range' (position + 1) (keys.denseLimit - (position + 1))

/-- Ends the dense range at one of its keys, which is removed. -/
def cutDense (keys : KeyMap) (position : Nat) : KeyMap :=
  let moved := keys.denseAfter position
  -- every position behind the removed one is one lower now, of moved keys and of others
  { keys with
    denseLimit := position
    sparse := (keys.sparse.map fun _ other => other - 1).insertMany
      (moved.map fun other => (Key.ofPosition other, other - 1))
    sparseKeys := (moved.map Key.ofPosition).toArray ++ keys.sparseKeys }

/-- Removes a key that is not dense from its position. -/
def cutSparse (keys : KeyMap) (key : Key) (position : Nat) : KeyMap :=
  { keys with
    sparse := (keys.sparse.erase key).map fun _ other =>
      if position < other then other - 1 else other
    sparseKeys := keys.sparseKeys.eraseIdxIfInBounds (position - keys.denseLimit) }

/-- Hands a key out again if it is the one before the next. -/
def release (keys : KeyMap) (key : Key) : KeyMap :=
  if key.next? = some keys.available then { keys with available := key } else keys

/-- Removes a key, if it is there, and says which position is free. -/
def remove (keys : KeyMap) (key : Key) : Option (Nat × KeyMap) :=
  (keys.position? key).map fun position =>
    let rest :=
      if keys.IsDense key then keys.cutDense position else keys.cutSparse key position
    (position, rest.release key)

end KeyMap
end Symtab
