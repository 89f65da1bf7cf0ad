import Symtab.Binary.Format
import Symtab.Compatible
import Symtab.Proofs.Table.Reach
import Symtab.TextFormat.Writer

/-!
# Sessions

A session holds any number of tables, some of them frozen.  They are made, changed, merged into
one another, copied, frozen and looked at in any order, and their digests are asked for in
between.

Main statement: `Session.Live.step`, all tables of a session are ones that can come about.
-/

set_option autoImplicit false

namespace Symtab

namespace Table

variable {hash : Hash}

/-- What a table shows when it is looked at, all but its digests. -/
structure View where
  name : String
  size : Nat
  available : Key
  denseLimit : Nat
  symbols : List String
  find? : Key → Option String
  keyOf? : String → Option Key
  nthKey? : Nat → Option Key
  pairs : List (Key × String)
  /-- Going through the bindings step by step. -/
  steps : Nat → List (Option (Key × String))
  binary : Except Error (List UInt8)
  text : TextFormat.Options → Except Error (List UInt8)

def view (table : Table hash) : View where
  name := table.name
  size := table.size
  available := table.availableKey
  denseLimit := table.denseLimit
  symbols := table.index.toList
  find? := table.find?
  keyOf? := table.keyOf?
  nthKey? := table.nthKey?
  pairs := table.pairs
  steps count := (table.cursor.take count).1
  binary := table.toBytes
  text options := (table.toText options).value

end Table

/-- A table that a session holds, to change or frozen. -/
inductive Held where
  | owned {hash : Hash} (table : Table hash)
  | frozen {hash : Hash} (kept : Frozen hash)

/-- What is done in a session.  A table that comes about gets the next slot.  Whoever shares a
    frozen table uses the same slot. -/
inductive Act where
  | new (hash : Hash) (name : String)
  | readBinary (hash : Hash) (octets : List UInt8)
  | readText (hash : Hash) (octets : List UInt8) (source : String) (options : TextFormat.Options)
  | add (slot : Nat) (symbol : String)
  | addWithKey (slot : Nat) (symbol : String) (key : Key)
  | remove (slot : Nat) (key : Key)
  | merge (slot source : Nat)
  | rename (slot : Nat) (name : String)
  | shrink (slot : Nat)
  | clone (slot : Nat)
  | freeze (slot : Nat)
  | thaw (slot : Nat)
  | look (slot : Nat)
  | content (slot : Nat)
  | labeled (slot : Nat)
  | compare (left right : Nat) (policy : Policy)

inductive Reply where
  | done
  | failed (error : Error)
  | changed (answer : Answer)
  | view (view : Table.View)
  | digest (digest : Digest)
  | agree (agree : Bool)
  /-- There is no such slot, or what is done needs a frozen table, or one that is not frozen. -/
  | impossible

namespace Held

def hash : Held → Hash
  | @owned hash _ => hash
  | @frozen hash _ => hash

def table : (held : Held) → Table held.hash
  | .owned table => table
  | .frozen kept => kept.table

def remember : Held → Held
  | .owned table => .owned table.remember
  | .frozen kept => .frozen kept.remember

def change (change : Change) : Held → Option (Reply × Held)
  | .owned table =>
    some (.changed (change.apply table).value.1, .owned (change.apply table).value.2)
  | .frozen _ => none

def freeze : Held → Option (Reply × Held)
  | .owned table => some (.done, .frozen table.freeze)
  | .frozen _ => none

def look (held : Held) : Option (Reply × Held) :=
  some (.view held.table.view, held)

/-- Answers one of the digests, and keeps them both. -/
def ask (digest : Checksums → Digest) (held : Held) : Option (Reply × Held) :=
  some (.digest (digest held.table.checksums), held.remember)

def clone : Held → Option Held
  | .owned table => some (.owned table)
  | .frozen _ => none

def thaw : Held → Option Held
  | .owned _ => none
  | .frozen kept => some (.owned kept.thaw)

end Held

/-- The tables of a session, by the slots that they are in. -/
abbrev Session := List Held

namespace Session

/-- Adds what was made, unless that failed. -/
def make {hash : Hash} (session : Session) : Except Error (Table hash) → Reply × Session
  | .ok table => (.done, session ++ [.owned table])
  | .error error => (.failed error, session)

/-- Does something with the table in a slot. -/
def update (session : Session) (slot : Nat) (act : Held → Option (Reply × Held)) :
    Reply × Session :=
  match session[slot]?.bind act with
  | some (reply, held) => (reply, session.set slot held)
  | none => (.impossible, session)

/-- Adds what is made of the table in a slot. -/
def derive (session : Session) (slot : Nat) (copy : Held → Option Held) : Reply × Session :=
  match session[slot]?.bind copy with
  | some held => (.done, session ++ [held])
  | none => (.impossible, session)

def merge (session : Session) (slot source : Nat) : Reply × Session :=
  match session[source]? with
  | some held => session.update slot (Held.change (.merge held.table))
  | none => (.impossible, session)

/-- Says whether two tables agree, for which both are asked for their digests. -/
def compare (session : Session) (left right : Nat) (policy : Policy) : Reply × Session :=
  match session[left]?, session[right]? with
  | some a, some b =>
    (.agree (compatible (some a.table) (some b.table) policy).value,
      if policy.check then (session.modify left Held.remember).modify right Held.remember
      else session)
  | _, _ => (.impossible, session)

def step (session : Session) : Act → Reply × Session
  | .new hash name => session.make (.ok (.empty name : Table hash))
  | .readBinary hash octets =>
    session.make (Table.ofBytes octets : Logged (Except Error (Table hash))).value
  | .readText hash octets source options =>
    session.make (Table.ofText octets source options : Logged (Except Error (Table hash))).value
  | .add slot symbol => session.update slot (Held.change (.add symbol))
  | .addWithKey slot symbol key => session.update slot (Held.change (.addWithKey symbol key))
  | .remove slot key => session.update slot (Held.change (.remove key))
  | .merge slot source => session.merge slot source
  | .rename slot name => session.update slot (Held.change (.rename name))
  | .shrink slot => session.update slot (Held.change .shrink)
  | .clone slot => session.derive slot Held.clone
  | .freeze slot => session.update slot Held.freeze
  | .thaw slot => session.derive slot Held.thaw
  | .look slot => session.update slot Held.look
  | .content slot => session.update slot (Held.ask Checksums.content)
  | .labeled slot => session.update slot (Held.ask Checksums.labeled)
  | .compare left right policy => session.compare left right policy

/-- Does one thing after another, and collects the replies. -/
def run : Session → List Act → List Reply × Session
  | session, [] => ([], session)
  | session, act :: rest =>
    ((session.step act).1 :: (run (session.step act).2 rest).1, (run (session.step act).2 rest).2)

end Session

/-! ## What a session can hold -/

theorem Held.reachable_remember {held : Held} (h : Reachable held.table) :
    Reachable held.remember.table := by
  cases held with
  | owned table => exact h.change .digest fun hmerge => by cases hmerge
  | frozen kept => exact h.change .digest fun hmerge => by cases hmerge

namespace Session

/-- All tables of the session can come about. -/
def Live (session : Session) : Prop := ∀ held ∈ session, Reachable held.table

variable {session : Session} {slot : Nat} {held : Held} {act : Act}

namespace Live

theorem get (h : Live session) (hat : session[slot]? = some held) : Reachable held.table :=
  h held (List.mem_of_getElem? hat)

theorem append (h : Live session) (hheld : Reachable held.table) : Live (session ++ [held]) := by
  intro other hmem
  rw [List.mem_append, List.mem_singleton] at hmem
  cases hmem with
  | inl hmem => exact h other hmem
  | inr heq => exact heq ▸ hheld

theorem remember (h : Live session) (slot : Nat) : Live (session.modify slot Held.remember) := by
  intro other hmem
  obtain ⟨place, hat⟩ := List.mem_iff_getElem?.mp hmem
  rw [List.getElem?_modify, Option.map_eq_map, Option.map_eq_some_iff] at hat
  obtain ⟨held, hheld, rfl⟩ := hat
  by_cases hslot : slot = place
  · rw [if_pos hslot]
    exact Held.reachable_remember (h.get hheld)
  · rw [if_neg hslot]
    exact h.get hheld

theorem make {hash : Hash} {made : Except Error (Table hash)} (h : Live session)
    (hmade : ∀ table, made = .ok table → Reachable table) : Live (session.make made).2 := by
  cases made with
  | ok table =>
    have hreachable : Reachable (Held.owned table).table := hmade table rfl
    exact h.append hreachable
  | error error => exact h

theorem update {act : Held → Option (Reply × Held)} (h : Live session) (slot : Nat)
    (hact : ∀ held reply next, Reachable held.table → act held = some (reply, next) →
      Reachable next.table) : Live (session.update slot act).2 := by
  unfold Session.update
  split
  next reply next heq =>
    obtain ⟨held, hat, hnext⟩ := Option.bind_eq_some_iff.mp heq
    intro other hmem
    cases List.mem_or_eq_of_mem_set hmem with
    | inl hmem => exact h other hmem
    | inr heq => exact heq ▸ hact held reply next (h.get hat) hnext
  next => exact h

theorem derive {copy : Held → Option Held} (h : Live session) (slot : Nat)
    (hcopy : ∀ held next, Reachable held.table → copy held = some next → Reachable next.table) :
    Live (session.derive slot copy).2 := by
  unfold Session.derive
  split
  next next heq =>
    obtain ⟨held, hat, hnext⟩ := Option.bind_eq_some_iff.mp heq
    exact h.append (hcopy held next (h.get hat) hnext)
  next => exact h

theorem change {change : Change} (h : Live session) (slot : Nat) (hpossible : change.Possible) :
    Live (session.update slot (Held.change change)).2 := by
  refine h.update slot fun held reply next hheld hnext => ?_
  cases held with
  | owned table =>
    cases hnext
    exact Reachable.change change hheld hpossible
  | frozen kept => cases hnext

theorem ask (h : Live session) (slot : Nat) (digest : Checksums → Digest) :
    Live (session.update slot (Held.ask digest)).2 := by
  refine h.update slot fun held reply next hheld hnext => ?_
  cases hnext
  exact Held.reachable_remember hheld

theorem merge (h : Live session) (slot source : Nat) : Live (session.merge slot source).2 := by
  unfold Session.merge
  split
  next held hat =>
    refine h.change slot fun hmerge => ?_
    cases hmerge
    exact h.get hat
  next => exact h

theorem compare (h : Live session) (left right : Nat) (policy : Policy) :
    Live (session.compare left right policy).2 := by
  unfold Session.compare
  split
  next =>
    cases policy.check with
    | true => exact (h.remember left).remember right
    | false => exact h
  next => exact h

/-- **What a session holds can come about**, and so it can after each act. -/
theorem step (h : Live session) (act : Act) : Live (session.step act).2 := by
  cases act with
  | new hash name =>
    refine h.make fun table hmade => ?_
    cases hmade
    exact .empty name
  | readBinary hash octets =>
    refine h.make fun table hmade => ?_
    obtain ⟨rest, hread⟩ := Table.ofBytes_eq_ok_iff.mp hmade
    exact .readBinary hread
  | readText hash octets source options => exact h.make fun table hmade => .readText hmade
  | add slot symbol => exact h.change slot fun hmerge => by cases hmerge
  | addWithKey slot symbol key => exact h.change slot fun hmerge => by cases hmerge
  | remove slot key => exact h.change slot fun hmerge => by cases hmerge
  | merge slot source => exact h.merge slot source
  | rename slot name => exact h.change slot fun hmerge => by cases hmerge
  | shrink slot => exact h.change slot fun hmerge => by cases hmerge
  | clone slot =>
    refine h.derive slot fun held next hheld hnext => ?_
    cases held with
    | owned table =>
      cases hnext
      exact hheld
    | frozen kept => cases hnext
  | freeze slot =>
    refine h.update slot fun held reply next hheld hnext => ?_
    cases held with
    | owned table =>
      cases hnext
      exact hheld
    | frozen kept => cases hnext
  | thaw slot =>
    refine h.derive slot fun held next hheld hnext => ?_
    cases held with
    | owned table => cases hnext
    | frozen kept =>
      cases hnext
      exact hheld
  | look slot =>
    refine h.update slot fun held reply next hheld hnext => ?_
    cases hnext
    exact hheld
  | content slot => exact h.ask slot Checksums.content
  | labeled slot => exact h.ask slot Checksums.labeled
  | compare left right policy => exact h.compare left right policy

theorem run (h : Live session) (acts : List Act) : Live (Session.run session acts).2 := by
  induction acts generalizing session with
  | nil => exact h
  | cons act rest ih => exact ih (h.step act)

end Live

end Session

end Symtab
