import Symtab.Proofs.Table.Soundness
import Symtab.TextFormat.Reader

/-!
# Tables that were read from text

A line is accepted when it has no field, or a symbol and a permitted key
(`entryOfLine_eq_ok_iff`).  The bindings of the lines are added to a table without bindings, as
`Table.addWithKey` does it, so what adding the binding of a line keeps holds of the table that is
read, whatever the text says (`keeps_ofText`); in particular it is sound.
-/

set_option autoImplicit false

namespace Symtab

namespace TextFormat

variable {hash : Hash} {table result : Table hash} {options : Options} {source : String}

theorem permittedKey?_eq_some_iff {field : String} {key : Key} :
    permittedKey? options field = some key ↔
      Key.parse? field = some key ∧ key ≠ Key.noSymbol ∧
        (options.allowNegative = true ∨ 0 ≤ key) := by
  rw [permittedKey?, Option.bind_eq_bind, Option.bind_eq_some_iff]
  have hrule : (key = Key.noSymbol ∨ key < 0 ∧ !options.allowNegative) ↔
      ¬(key ≠ Key.noSymbol ∧ (options.allowNegative = true ∨ 0 ≤ key)) := by
    rw [not_and_or, not_not, not_or, Int64.not_le, Bool.not_eq_true, Bool.not_eq_true',
      and_comm]
  constructor
  · rintro ⟨found, hfound, h⟩
    split at h
    next => cases h
    next hkey =>
      obtain rfl := Option.some.inj h
      rw [hrule, not_not] at hkey
      exact ⟨hfound, hkey⟩
  · rintro ⟨hfound, hkey⟩
    refine ⟨key, hfound, ?_⟩
    rw [if_neg]
    rw [hrule, not_not]
    exact hkey

/-- **When a line is accepted**, and which binding it has then. -/
theorem entryOfLine_eq_ok_iff {number : Nat} {line : List UInt8}
    {entry : Option (String × Key)} :
    entryOfLine options source number line = .ok entry ↔
      ∃ text, Text.Utf8.decode? line = some text ∧
        (Text.Lines.fields options.isSeparator text = [] ∧ entry = none ∨
          ∃ symbol field key, Text.Lines.fields options.isSeparator text = [symbol, field] ∧
            permittedKey? options field = some key ∧ entry = some (symbol, key)) := by
  unfold entryOfLine
  cases hdecode : Text.Utf8.decode? line with
  | none => simp
  | some text =>
    simp only [Option.some.injEq, exists_eq_left']
    split
    next hfields => simp [hfields, @eq_comm _ none]
    next symbol field hfields =>
      cases hpermitted : permittedKey? options field with
      | none => simp [hfields, hpermitted]
      | some key => simp [hfields, hpermitted, @eq_comm _ (some (symbol, key))]
    next hnone hpair =>
      constructor
      · intro h
        cases h
      · rintro (⟨hfields, -⟩ | ⟨symbol, field, _, hfields, -⟩)
        · exact absurd hfields hnone
        · exact absurd hfields (hpair symbol field)

/-- **What a line does** when all lines are added: it says nothing, or its binding is added and not
    refused. -/
theorem addLines_cons_eq_ok {number : Nat} {line : List UInt8} {rest : List (List UInt8)}
    (h : (addLines options source number table (line :: rest)).value = .ok result) :
    (entryOfLine options source number line = .ok none ∧
      (addLines options source (number + 1) table rest).value = .ok result) ∨
    ∃ symbol key, entryOfLine options source number line = .ok (some (symbol, key)) ∧
      (table.addWithKey symbol key).value.1 ≠ Key.noSymbol ∧
      (addLines options source (number + 1) (table.addWithKey symbol key).value.2 rest).value =
        .ok result := by
  rw [addLines] at h
  split at h
  next => cases h
  next hentry => exact Or.inl ⟨hentry, h⟩
  next symbol key hentry =>
    rw [Logged.value_bind] at h
    simp only at h
    split at h
    next => cases h
    next hadded => exact Or.inr ⟨symbol, key, hentry, hadded, h⟩

/-- **What adding the binding of a line keeps, adding lines keeps.** -/
theorem keeps_addLines {P : Table hash → Prop}
    (hadd : ∀ table number line symbol key,
      entryOfLine options source number line = .ok (some (symbol, key)) → P table →
        P (table.addWithKey symbol key).value.2)
    (h : P table) {number : Nat} {lines : List (List UInt8)}
    (hadded : (addLines options source number table lines).value = .ok result) : P result := by
  induction lines generalizing number table with
  | nil =>
    obtain rfl : table = result := Except.ok.inj hadded
    exact h
  | cons line rest ih =>
    rcases addLines_cons_eq_ok hadded with ⟨-, hrest⟩ | ⟨symbol, key, hentry, -, hrest⟩
    · exact ih h hrest
    · exact ih (hadd table number line symbol key hentry h) hrest

end TextFormat

namespace Table

variable {hash : Hash} {table : Table hash} {octets : List UInt8} {source : String}
  {options : TextFormat.Options}

/-- A text is read by adding its lines. -/
theorem ofText_eq_ok_iff :
    (ofText octets source options).value = .ok table ↔
      (TextFormat.addLines options source 1 (empty source) (Text.Lines.lines octets)).value =
        .ok table := by
  rw [ofText, Logged.value_bind, Logged.value_pure]
  cases (TextFormat.addLines options source 1 (empty source : Table hash)
      (Text.Lines.lines octets)).value with
  | error error => simp [Except.map]
  | ok result => simp [Except.map, shrink]

theorem ofText_eq_error_iff {error : Error} :
    (ofText octets source options : Logged (Except Error (Table hash))).value = .error error ↔
      (TextFormat.addLines options source 1 (empty source : Table hash)
        (Text.Lines.lines octets)).value = .error error := by
  rw [ofText, Logged.value_bind, Logged.value_pure]
  cases (TextFormat.addLines options source 1 (empty source : Table hash)
      (Text.Lines.lines octets)).value with
  | error error => simp [Except.map]
  | ok result => simp [Except.map]

/-- What the table without bindings has, and adding the binding of a line keeps, every table has
    that can be read. -/
theorem keeps_ofText {P : Table hash → Prop} (hstart : P (empty source))
    (hadd : ∀ table number line symbol key,
      TextFormat.entryOfLine options source number line = .ok (some (symbol, key)) → P table →
        P (table.addWithKey symbol key).value.2)
    (h : (ofText octets source options).value = .ok table) : P table := by
  rw [ofText_eq_ok_iff] at h
  exact TextFormat.keeps_addLines hadd hstart h

/-- **Every table that can be read is sound.** -/
theorem sound_ofText (h : (ofText octets source options).value = .ok table) : table.Sound :=
  keeps_ofText (sound_empty source) (fun _ _ _ symbol key _ h => (h.addWithKey symbol key).1) h

end Table
end Symtab
