import Symtab.Proofs.Binary.Decoding
import Symtab.Proofs.Text.Cutting
import Symtab.Proofs.TextFormat.Soundness

/-!
# The language of the text format

What a text has to be so that a table can be read from it, and which error it is answered
otherwise, said without the reader.  A line says nothing or a binding, or it has a fault of its
own (`Says`, `LineFault`); and a line that says a binding can still have the fault that its key is
taken, which depends on the lines before it.  So the lines of a text are followed from the first
on (`Accepted`), and the fault of a text is the fault of one line behind lines that are accepted
(`Fault`).

Main statement: `Table.ofText_reads_lines`.  A text is read exactly if all its lines are accepted,
and then as a table that holds the first binding of each symbol; otherwise the error is the fault
of its first line that is not.
-/

set_option autoImplicit false

namespace Symtab

open Binary (firsts)

variable {hash : Hash}

namespace TextFormat

variable {options : Options} {source symbol field : String} {number : Nat} {line : List UInt8}
  {lines : List (List UInt8)} {records : List (String × Key)} {key : Key} {error : Error}

/-! ## Lines -/

/-- A line is text with these fields. -/
def Fields (options : Options) (line : List UInt8) (fields : List String) : Prop :=
  ∃ text, Text.Utf8.encode text = line ∧
    Text.Lines.Runs options.isSeparator text.toList (fields.map String.toList)

/-- A field is the text of a key that the options permit. -/
structure Permits (options : Options) (field : String) (key : Key) : Prop where
  denotes : Text.Decimal.Denotes field.toList key.toInt
  unreserved : key ≠ Key.noSymbol
  sign : options.allowNegative = true ∨ 0 ≤ key

/-- What a line in order says. -/
inductive Says (options : Options) : List UInt8 → Option (String × Key) → Prop where
  | nothing {line : List UInt8} (h : Fields options line []) : Says options line none
  | binding {line : List UInt8} {symbol field : String} {key : Key}
      (h : Fields options line [symbol, field]) (hkey : Permits options field key) :
      Says options line (some (symbol, key))

/-- What is wrong with a line by itself.  The line has this number in this text. -/
inductive LineFault (options : Options) (source : String) (number : Nat) :
    List UInt8 → Error → Prop where
  | notUtf8 {line : List UInt8} (h : ∀ text, Text.Utf8.encode text ≠ line) :
      LineFault options source number line (.stream .notUtf8)
  | columnCount {line : List UInt8} {fields : List String} (h : Fields options line fields)
      (hsome : fields ≠ []) (htwo : fields.length ≠ 2) :
      LineFault options source number line (.columnCount source number fields.length)
  | badKey {line : List UInt8} {symbol field : String} (h : Fields options line [symbol, field])
      (hkey : ∀ key, ¬Permits options field key) :
      LineFault options source number line (.badKey source number field)

/-! ## Texts -/

/-- Lines can be read one behind the other, and say these bindings.  A symbol that was said
    before may come again, under any key; a new one needs a key that is free. -/
inductive Accepted (options : Options) : List (List UInt8) → List (String × Key) → Prop where
  | nil : Accepted options [] []
  | blank {lines : List (List UInt8)} {records : List (String × Key)} {line : List UInt8}
      (h : Accepted options lines records) (hline : Says options line none) :
      Accepted options (lines ++ [line]) records
  | binding {lines : List (List UInt8)} {records : List (String × Key)} {line : List UInt8}
      {symbol : String} {key : Key} (h : Accepted options lines records)
      (hline : Says options line (some (symbol, key)))
      (hfree : symbol ∉ records.map Prod.fst → key ∉ (firsts records).map Prod.snd) :
      Accepted options (lines ++ [line]) (records ++ [(symbol, key)])

/-- **What is wrong with the lines of a text first.** -/
inductive Fault (options : Options) (source : String) : List (List UInt8) → Error → Prop where
  | line {earlier : List (List UInt8)} {records : List (String × Key)} {line : List UInt8}
      {error : Error} (h : Accepted options earlier records)
      (hline : LineFault options source (earlier.length + 1) line error)
      (later : List (List UInt8)) : Fault options source (earlier ++ line :: later) error
  | duplicateKey {earlier : List (List UInt8)} {records : List (String × Key)}
      {line : List UInt8} {symbol : String} {key : Key} (h : Accepted options earlier records)
      (hline : Says options line (some (symbol, key))) (hsymbol : symbol ∉ records.map Prod.fst)
      (hkey : key ∈ (firsts records).map Prod.snd) (later : List (List UInt8)) :
      Fault options source (earlier ++ line :: later) (.duplicateKey source symbol key)

/-! ## Reading a line -/

theorem fields_iff {text : String} (h : Text.Utf8.decode? line = some text)
    {fields : List String} :
    Fields options line fields ↔ Text.Lines.fields options.isSeparator text = fields := by
  rw [Text.Lines.fields_eq_iff, Fields]
  constructor
  · rintro ⟨other, hother, hruns⟩
    rw [← Text.Utf8.decode?_eq_some_iff, h] at hother
    obtain rfl := Option.some.inj hother
    exact hruns
  · intro hruns
    exact ⟨text, Text.Utf8.decode?_eq_some_iff.mp h, hruns⟩

theorem permits_iff : Permits options field key ↔ permittedKey? options field = some key := by
  rw [permittedKey?_eq_some_iff, Key.parse?_eq_some_iff]
  exact ⟨fun h => ⟨h.denotes, h.unreserved, h.sign⟩, fun h => ⟨h.1, h.2.1, h.2.2⟩⟩

theorem not_permits_iff :
    (∀ key, ¬Permits options field key) ↔ permittedKey? options field = none := by
  rw [Option.eq_none_iff_forall_ne_some]
  exact forall_congr' fun key => not_congr permits_iff

theorem Says.utf8 {entry : Option (String × Key)} (h : Says options line entry) :
    ∃ text, Text.Utf8.decode? line = some text := by
  cases h with
  | nothing h =>
    obtain ⟨text, hencode, -⟩ := h
    exact ⟨text, Text.Utf8.decode?_eq_some_iff.mpr hencode⟩
  | binding h _ =>
    obtain ⟨text, hencode, -⟩ := h
    exact ⟨text, Text.Utf8.decode?_eq_some_iff.mpr hencode⟩

/-- **A line is read as what it says.** -/
theorem Says.entryOfLine_eq {entry : Option (String × Key)} (h : Says options line entry)
    (source : String) (number : Nat) : entryOfLine options source number line = .ok entry := by
  obtain ⟨text, hdecode⟩ := h.utf8
  refine entryOfLine_eq_ok_iff.mpr ⟨text, hdecode, ?_⟩
  cases h with
  | nothing h => exact Or.inl ⟨(fields_iff hdecode).mp h, rfl⟩
  | binding h hkey =>
    exact Or.inr ⟨_, _, _, (fields_iff hdecode).mp h, permits_iff.mp hkey, rfl⟩

/-- **A line that is faulty by itself is refused for its fault.** -/
theorem LineFault.entryOfLine_eq (h : LineFault options source number line error) :
    entryOfLine options source number line = .error error := by
  unfold entryOfLine
  cases h with
  | notUtf8 h => rw [Text.Utf8.decode?_eq_none_iff.mpr h]
  | @columnCount fields h hsome htwo =>
    obtain ⟨text, hencode, -⟩ := id h
    have hdecode := Text.Utf8.decode?_eq_some_iff.mpr hencode
    rw [hdecode]
    simp only [(fields_iff hdecode).mp h]
    split
    next => exact absurd rfl hsome
    next => exact absurd rfl htwo
    next => rfl
  | @badKey symbol field h hkey =>
    obtain ⟨text, hencode, -⟩ := id h
    have hdecode := Text.Utf8.decode?_eq_some_iff.mpr hencode
    rw [hdecode]
    simp only [(fields_iff hdecode).mp h, not_permits_iff.mp hkey]

/-- A line says something or has a fault. -/
theorem says_or_fault (options : Options) (source : String) (number : Nat) (line : List UInt8) :
    (∃ entry, Says options line entry) ∨ ∃ error, LineFault options source number line error := by
  cases hdecode : Text.Utf8.decode? line with
  | none => exact Or.inr ⟨_, .notUtf8 (Text.Utf8.decode?_eq_none_iff.mp hdecode)⟩
  | some text =>
    have hfields : Fields options line (Text.Lines.fields options.isSeparator text) :=
      (fields_iff hdecode).mpr rfl
    match hfound : Text.Lines.fields options.isSeparator text with
    | [] => exact Or.inl ⟨none, .nothing (hfound ▸ hfields)⟩
    | [symbol, field] =>
      rw [hfound] at hfields
      cases hkey : permittedKey? options field with
      | none => exact Or.inr ⟨_, .badKey hfields (not_permits_iff.mpr hkey)⟩
      | some key => exact Or.inl ⟨_, .binding hfields (permits_iff.mpr hkey)⟩
    | [only] => exact Or.inr ⟨_, .columnCount (hfound ▸ hfields) (by simp) (by simp)⟩
    | first :: second :: third :: rest =>
      exact Or.inr ⟨_, .columnCount (hfound ▸ hfields) (by simp) (by simp)⟩

theorem says_iff (source : String) (number : Nat) {entry : Option (String × Key)} :
    Says options line entry ↔ entryOfLine options source number line = .ok entry := by
  refine ⟨fun h => h.entryOfLine_eq source number, fun h => ?_⟩
  rcases says_or_fault options source number line with ⟨other, hsaid⟩ | ⟨error, hfault⟩
  · rw [hsaid.entryOfLine_eq source number] at h
    exact Except.ok.inj h ▸ hsaid
  · rw [hfault.entryOfLine_eq] at h
    cases h

/-! ## Reading a text -/

/-- Lines can be read, or have a fault. -/
theorem accepted_or_fault (options : Options) (source : String) (lines : List (List UInt8)) :
    (∃ records, Accepted options lines records) ∨ ∃ error, Fault options source lines error := by
  induction lines using List.reverseRecOn with
  | nil => exact Or.inl ⟨[], .nil⟩
  | append_singleton lines line ih =>
    rcases ih with ⟨records, haccepted⟩ | ⟨error, hfault⟩
    · rcases says_or_fault options source (lines.length + 1) line with
        ⟨entry, hsaid⟩ | ⟨error, hfault⟩
      · cases entry with
        | none => exact Or.inl ⟨records, haccepted.blank hsaid⟩
        | some binding =>
          obtain ⟨symbol, key⟩ := binding
          by_cases htaken : symbol ∉ records.map Prod.fst ∧ key ∈ (firsts records).map Prod.snd
          · exact Or.inr ⟨_, .duplicateKey haccepted hsaid htaken.1 htaken.2 []⟩
          · exact Or.inl ⟨_, haccepted.binding hsaid fun hsymbol hkey => htaken ⟨hsymbol, hkey⟩⟩
      · exact Or.inr ⟨error, .line haccepted hfault []⟩
    · -- a fault stays the first one whatever is behind it
      refine Or.inr ⟨error, ?_⟩
      cases hfault with
      | line h hline later =>
        rw [List.append_assoc]
        exact .line h hline (later ++ [line])
      | duplicateKey h hline hsymbol hkey later =>
        rw [List.append_assoc]
        exact .duplicateKey h hline hsymbol hkey (later ++ [line])

/-- A line that says a binding has it added. -/
theorem addLines_binding {table : Table hash} (h : Says options line (some (symbol, key)))
    (rest : List (List UInt8)) :
    (addLines options source number table (line :: rest)).value =
      if (table.addWithKey symbol key).value.1 = Key.noSymbol then
        .error (.duplicateKey source symbol key)
      else
        (addLines options source (number + 1)
          (table.addWithKey symbol key).value.2 rest).value := by
  rw [addLines, h.entryOfLine_eq]
  simp only [Logged.value_bind]
  split <;> rfl

/-- **Lines that are accepted are read**, whatever comes behind them. -/
theorem Accepted.addLines_append (h : Accepted options lines records) (hash : Hash)
    (source : String) :
    ∃ table : Table hash, Replayed source 0 records table ∧ ∀ rest,
      (addLines options source 1 (.empty source : Table hash) (lines ++ rest)).value =
        (addLines options source (lines.length + 1) table rest).value := by
  induction h with
  | nil => exact ⟨.empty source, Replayed.start hash ⟨source, 0, 0⟩ [], fun _ => rfl⟩
  | @blank lines records line _ hline ih =>
    obtain ⟨table, hreplayed, hlines⟩ := ih
    refine ⟨table, hreplayed, fun rest => ?_⟩
    rw [List.append_assoc, List.singleton_append, hlines, addLines, hline.entryOfLine_eq,
      List.length_append, List.length_singleton]
  | @binding lines records line symbol key _ hline hfree ih =>
    obtain ⟨table, hreplayed, hlines⟩ := ih
    have hunreserved : key ≠ Key.noSymbol := by
      cases hline with
      | binding _ hkey => exact hkey.unreserved
    obtain ⟨hadded, hnext⟩ := hreplayed.addWithKey hunreserved hfree
    refine ⟨_, hnext, fun rest => ?_⟩
    rw [List.append_assoc, List.singleton_append, hlines, addLines_binding hline, if_neg hadded,
      List.length_append, List.length_singleton]

/-- **A text with a fault is refused for it.** -/
theorem Fault.addLines_eq (h : Fault options source lines error) (hash : Hash) :
    (addLines options source 1 (.empty source : Table hash) lines).value = .error error := by
  cases h with
  | line h hline later =>
    obtain ⟨table, -, hlines⟩ := h.addLines_append hash source
    rw [hlines, addLines, hline.entryOfLine_eq]
    rfl
  | @duplicateKey earlier records line symbol key h hline hsymbol hkey later =>
    obtain ⟨table, hreplayed, hlines⟩ := h.addLines_append hash source
    have hunreserved : key ≠ Key.noSymbol := by
      cases hline with
      | binding _ hkey => exact hkey.unreserved
    rw [hlines, addLines_binding hline, if_pos]
    exact (hreplayed.addWithKey_eq_noSymbol_iff hunreserved).mpr ⟨hsymbol, hkey⟩

end TextFormat

namespace Table

open TextFormat Text.Lines

variable {options : TextFormat.Options} {source : String} {octets : List UInt8} {error : Error}

/-- **What texts are read.**  A text is cut into lines in one way.  It is read exactly if its lines
    are accepted one behind the other, and then as a table that is called after the source and
    holds the first binding of each symbol.  Otherwise the error is that of the first line that is
    not accepted, with the number that this line has among all. -/
theorem ofText_reads_lines (hash : Hash) (octets : List UInt8) (source : String)
    (options : TextFormat.Options) :
    ∃ cut, Cut octets cut ∧ (∀ other, Cut octets other → other = cut) ∧
      ((∃ table : Table hash, (ofText octets source options).value = .ok table) ↔
        ∃ records, Accepted options cut records) ∧
      (∀ records, Accepted options cut records →
        ∃ table : Table hash, (ofText octets source options).value = .ok table ∧
          table.Holds ⟨source, 0, records⟩) ∧
      ∀ error,
        (ofText octets source options : Logged (Except Error (Table hash))).value = .error error ↔
          Fault options source cut error := by
  obtain ⟨cut, hlines⟩ : ∃ cut, lines octets = cut := ⟨_, rfl⟩
  have hcut : Cut octets cut := lines_eq_iff.mp hlines
  have honly : ∀ other, Cut octets other → other = cut := fun other hother =>
    (lines_eq_iff.mpr hother).symm.trans hlines
  have hread : ∀ records, Accepted options cut records →
      ∃ table : Table hash, (ofText octets source options).value = .ok table ∧
        table.Holds ⟨source, 0, records⟩ := by
    intro records haccepted
    obtain ⟨table, hreplayed, hadded⟩ := haccepted.addLines_append hash source
    have hend := hadded []
    rw [List.append_nil] at hend
    exact ⟨table, ofText_eq_ok_iff.mpr (hlines ▸ hend), hreplayed.holds⟩
  have hrefused : ∀ error, Fault options source cut error →
      (ofText octets source options : Logged (Except Error (Table hash))).value =
        .error error := by
    intro error hfault
    exact ofText_eq_error_iff.mpr (hlines ▸ hfault.addLines_eq hash)
  refine ⟨cut, hcut, honly, ⟨?_, ?_⟩, hread, ?_⟩
  · rintro ⟨table, hok⟩
    rcases accepted_or_fault options source cut with haccepted | ⟨error, hfault⟩
    · exact haccepted
    · rw [hrefused error hfault] at hok
      cases hok
  · rintro ⟨records, haccepted⟩
    obtain ⟨table, hok, -⟩ := hread records haccepted
    exact ⟨table, hok⟩
  · intro error
    refine ⟨fun herror => ?_, hrefused error⟩
    rcases accepted_or_fault options source cut with ⟨records, haccepted⟩ | ⟨other, hfault⟩
    · obtain ⟨table, hok, -⟩ := hread records haccepted
      rw [hok] at herror
      cases herror
    · have hother := hrefused other hfault
      rw [herror] at hother
      exact Except.error.inj hother ▸ hfault

/-- A line with separators only and the second line of a symbol count for nothing, a carriage
    return ends a line, and the last line needs no line feed. -/
theorem ofText_reads_lines_of_repetition :
    let options : TextFormat.Options := ⟨true, ":"⟩
    let octets := Text.Utf8.encode "a:0\r\n::\na:9\n:b::-3"
    let records : List (String × Key) := [("a", 0), ("a", 9), ("b", -3)]
    ∃ table : Table (Hash.constant 0), (ofText octets "lines" options).value = .ok table ∧
      table.Holds ⟨"lines", 0, records⟩ ∧ table.storageKeys = [0, -3] ∧
        table.availableKey = 1 ∧ table.denseLimit = 1 := by
  intro options octets records
  obtain ⟨cut, hcut, -, -, hread, -⟩ :=
    ofText_reads_lines (Hash.constant 0) octets "lines" options
  have hlines : cut = ["a:0", "::", "a:9", ":b::-3"].map Text.Utf8.encode := by
    rw [← lines_eq_iff.mpr hcut]
    decide
  have haccepted : Accepted options cut records := by
    rw [hlines]
    have hfirst : Says options (Text.Utf8.encode "a:0") (some ("a", 0)) :=
      (says_iff "lines" 1).mpr (by decide)
    have hblank : Says options (Text.Utf8.encode "::") none := (says_iff "lines" 2).mpr (by decide)
    have hagain : Says options (Text.Utf8.encode "a:9") (some ("a", 9)) :=
      (says_iff "lines" 3).mpr (by decide)
    have hlast : Says options (Text.Utf8.encode ":b::-3") (some ("b", -3)) :=
      (says_iff "lines" 4).mpr (by decide)
    exact (((Accepted.nil.binding hfirst (by decide)).blank hblank).binding hagain
      (by decide)).binding hlast (by decide)
  obtain ⟨table, hok, hholds⟩ := hread records haccepted
  exact ⟨table, hok, hholds, hholds.keys, hholds.available, hholds.dense⟩

end Table
end Symtab
