import Symtab.Proofs.Binary.Decoding
import Symtab.Proofs.TextFormat.Soundness

/-!
# What lines are read as

A line that is accepted has no field, or it has two and the second is the text of a key; then it
says a binding (`binding?`).  The bindings of a text are added one after another, as the records
of octets are, and so come to the same thing: the table that is read holds the first binding of
each symbol (`Replayed`).

Main statement: `Table.replayed_ofText`, what a text is read as.
-/

set_option autoImplicit false

namespace Symtab

variable {hash : Hash} {table result : Table hash} {name : String} {available : Key}
  {earlier : List (String × Key)}

namespace TextFormat

variable {options : Options} {source : String} {number : Nat} {line : List UInt8}
  {lines : List (List UInt8)}

/-- What a line with two fields says, whether or not the key is permitted. -/
def binding? (options : Options) (line : List UInt8) : Option (String × Key) :=
  match (Text.Utf8.decode? line).map (Text.Lines.fields options.isSeparator) with
  | some [symbol, field] => (Key.parse? field).map fun key => (symbol, key)
  | _ => none

/-- What the lines of a text say, in order. -/
def bindings (options : Options) (octets : List UInt8) : List (String × Key) :=
  (Text.Lines.lines octets).filterMap (binding? options)

/-- A line has no field, or two: a symbol and the text of a key. -/
def Formed (options : Options) (line : List UInt8) : Prop :=
  ∃ text, Text.Utf8.decode? line = some text ∧
    (Text.Lines.fields options.isSeparator text = [] ∨
      ∃ symbol field key, Text.Lines.fields options.isSeparator text = [symbol, field] ∧
        Key.parse? field = some key)

/-- **An accepted line says what it is read as.** -/
theorem formed_of_entryOfLine {entry : Option (String × Key)}
    (h : entryOfLine options source number line = .ok entry) :
    Formed options line ∧ binding? options line = entry := by
  obtain ⟨text, hdecode, ⟨hfields, rfl⟩ | ⟨symbol, field, key, hfields, hpermitted, rfl⟩⟩ :=
    entryOfLine_eq_ok_iff.mp h
  · exact ⟨⟨text, hdecode, Or.inl hfields⟩, by simp [binding?, hdecode, hfields]⟩
  · obtain ⟨hkey, -⟩ := permittedKey?_eq_some_iff.mp hpermitted
    exact ⟨⟨text, hdecode, Or.inr ⟨symbol, field, key, hfields, hkey⟩⟩,
      by simp [binding?, hdecode, hfields, hkey]⟩

end TextFormat

/-- **What lines are replayed to**, if all of them are accepted. -/
theorem Replayed.addLines {options : TextFormat.Options} {source : String} {number : Nat}
    {lines : List (List UInt8)} (h : Replayed name available earlier table)
    (hadded : (TextFormat.addLines options source number table lines).value = .ok result) :
    (∀ line ∈ lines, TextFormat.Formed options line) ∧
      Replayed name available (earlier ++ lines.filterMap (TextFormat.binding? options))
        result := by
  induction lines generalizing number table earlier with
  | nil =>
    obtain rfl : table = result := Except.ok.inj hadded
    rw [List.filterMap_nil, List.append_nil]
    exact ⟨fun line hline => absurd hline List.not_mem_nil, h⟩
  | cons line rest ih =>
    rw [List.forall_mem_cons]
    rcases TextFormat.addLines_cons_eq_ok hadded with
      ⟨hentry, hrest⟩ | ⟨symbol, key, hentry, hbound, hrest⟩
    · obtain ⟨hformed, hbinding⟩ := TextFormat.formed_of_entryOfLine hentry
      obtain ⟨hformeds, hresult⟩ := ih h hrest
      rw [List.filterMap_cons_none hbinding]
      exact ⟨⟨hformed, hformeds⟩, hresult⟩
    · obtain ⟨hformed, hbinding⟩ := TextFormat.formed_of_entryOfLine hentry
      obtain ⟨hformeds, hresult⟩ := ih (h.of_added hbound) hrest
      rw [List.append_assoc, List.singleton_append] at hresult
      rw [List.filterMap_cons_some hbinding]
      exact ⟨⟨hformed, hformeds⟩, hresult⟩

/-- **What a text is read as.** -/
theorem Table.replayed_ofText {octets : List UInt8} {source : String}
    {options : TextFormat.Options} (h : (ofText octets source options).value = .ok table) :
    (∀ line ∈ Text.Lines.lines octets, TextFormat.Formed options line) ∧
      Replayed source 0 (TextFormat.bindings options octets) table :=
  Replayed.addLines (Replayed.start hash ⟨source, 0, 0⟩ []) (ofText_eq_ok_iff.mp h)

end Symtab
