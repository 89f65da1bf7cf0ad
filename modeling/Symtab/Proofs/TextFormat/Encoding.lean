import Symtab.Proofs.Output
import Symtab.Proofs.Text.Encoding
import Symtab.Proofs.Text.Lines
import Symtab.Proofs.TextFormat.Soundness
import Symtab.TextFormat.Writer

/-!
# What the text format writes, and what a line says

`linesOctets` lays a list of bindings out as the text format does.  Nothing is quoted, so a line
says what was written only if its symbol can be told from what is around it
(`Options.Writable`), and its key from its symbol (`Options.Delimiting`).

Main statements: `Table.toText_eq_ok_iff`, what is written; `entryOfLine_line`, what a written
line says; and `of_entryOfLine`, by which a line never says more than could have been written.
-/

set_option autoImplicit false

namespace Symtab

namespace TextFormat

open Output (Step Completes)
open Text.Lines (lineFeed carriageReturn)

variable {options : Options} {symbol source : String} {key : Key} {separator : Char}

/-! ## What can be told apart -/

/-- There is a separator, and none is part of a key or ends a line. -/
structure Options.Delimiting (options : Options) : Prop where
  nonempty : options.separators ≠ ""
  digit : ∀ c ∈ options.separators.toList, c.isDigit = false
  minus : '-' ∉ options.separators.toList
  lineFeed : '\n' ∉ options.separators.toList

/-- A symbol that is one field wherever it is written. -/
structure Options.Writable (options : Options) (symbol : String) : Prop where
  nonempty : symbol ≠ ""
  separator : ∀ c ∈ symbol.toList, c ∉ options.separators.toList
  lineFeed : '\n' ∉ symbol.toList

/-- A key that a line may have. -/
def Options.Allows (options : Options) (key : Key) : Prop :=
  options.allowNegative = true ∨ 0 ≤ key

theorem Options.isSeparator_eq_false_iff {c : Char} :
    options.isSeparator c = false ↔ c ≠ '\n' ∧ c ∉ options.separators.toList := by
  simp [Options.isSeparator]

theorem Options.writable_iff :
    options.Writable symbol ↔ symbol ≠ "" ∧ ∀ c ∈ symbol.toList, options.isSeparator c = false := by
  simp only [isSeparator_eq_false_iff]
  constructor
  · rintro ⟨hne, hseparator, hlineFeed⟩
    refine ⟨hne, fun c hc => ⟨?_, hseparator c hc⟩⟩
    rintro rfl
    exact hlineFeed hc
  · rintro ⟨hne, hall⟩
    exact ⟨hne, fun c hc => (hall c hc).2, fun hc => (hall _ hc).1 rfl⟩

theorem Options.Delimiting.exists_separator (h : options.Delimiting) :
    ∃ separator, options.outputSeparator? = some separator ∧
      separator ∈ options.separators.toList := by
  cases hlist : options.separators.toList with
  | nil => exact absurd (String.toList_eq_nil_iff.mp hlist) h.nonempty
  | cons separator rest =>
    refine ⟨separator, ?_, List.mem_cons_self⟩
    rw [outputSeparator?, hlist, List.head?_cons]

/-- No character of a key separates. -/
theorem Options.Delimiting.not_isSeparator (h : options.Delimiting) {c : Char}
    (hc : c ∈ key.render.toList) : options.isSeparator c = false := by
  rw [isSeparator_eq_false_iff]
  rcases Key.isDigit_or_minus_of_mem_render hc with hdigit | rfl
  · refine ⟨?_, ?_⟩
    · rintro rfl
      cases hdigit
    · intro hmem
      rw [h.digit c hmem] at hdigit
      cases hdigit
  · exact ⟨by decide, h.minus⟩

/-! ## What is written -/

/-- A line, without its end. -/
def lineText (separator : Char) (pair : Key × String) : String :=
  pair.2 ++ String.singleton separator ++ pair.1.render

def lineOctets (separator : Char) (pair : Key × String) : List UInt8 :=
  Text.Utf8.encode (lineText separator pair) ++ [lineFeed]

/-- The lines of bindings. -/
def linesOctets (separator : Char) (pairs : List (Key × String)) : List UInt8 :=
  pairs.flatMap (lineOctets separator)

theorem completes_linesSteps (table : String) (separator : Char) (silent : Bool)
    (pairs : List (Key × String)) : Completes (linesSteps table separator silent pairs) := by
  induction pairs generalizing silent with
  | nil => exact Output.completes_nil
  | cons pair rest ih =>
    obtain ⟨key, symbol⟩ := pair
    rw [linesSteps, Output.completes_append, Output.completes_append]
    refine ⟨⟨?_, ?_⟩, ih _⟩
    · split
      · intro step hmem
        rw [List.mem_singleton.mp hmem]
        rfl
      · exact Output.completes_nil
    · simp [lineSteps]

/-- Reports leave no trace in what is written. -/
theorem octets_linesSteps (table : String) (separator : Char) (silent : Bool)
    (pairs : List (Key × String)) :
    (linesSteps table separator silent pairs).flatMap Step.octets =
      linesOctets separator pairs := by
  induction pairs generalizing silent with
  | nil => rfl
  | cons pair rest ih =>
    obtain ⟨key, symbol⟩ := pair
    have hreport : (if key < 0 && !silent then [Step.note (.negativeKey table key)]
        else []).flatMap Step.octets = [] := by
      split <;> rfl
    have hline : (lineSteps separator key symbol).flatMap Step.octets =
        lineOctets separator (key, symbol) := by
      have hend : Text.Utf8.encode "\n" = [lineFeed] := by rfl
      rw [lineOctets, lineText, Text.Utf8.encode_append, Text.Utf8.encode_append]
      simp [lineSteps, Step.octets, hend]
    rw [linesSteps, List.flatMap_append, List.flatMap_append, ih, hreport, hline, List.nil_append,
      linesOctets, linesOctets, List.flatMap_cons]

/-! ## What a line says -/

theorem permittedKey?_render (hreserved : key ≠ Key.noSymbol) (hallowed : options.Allows key) :
    permittedKey? options key.render = some key :=
  permittedKey?_eq_some_iff.mpr ⟨key.parse?_render, hreserved, hallowed⟩

/-- **What a written line says.** -/
theorem entryOfLine_line (hoptions : options.Delimiting)
    (hseparator : separator ∈ options.separators.toList) (hsymbol : options.Writable symbol)
    (hreserved : key ≠ Key.noSymbol) (hallowed : options.Allows key) (number : Nat) :
    entryOfLine options source number (Text.Utf8.encode (lineText separator (key, symbol))) =
      .ok (some (symbol, key)) := by
  obtain ⟨hne, hfree⟩ := Options.writable_iff.mp hsymbol
  have hsep : options.isSeparator separator = true := by
    rw [← Bool.not_eq_false, Options.isSeparator_eq_false_iff]
    exact fun hboth => hboth.2 hseparator
  have hfields : Text.Lines.fields options.isSeparator (lineText separator (key, symbol)) =
      [symbol, key.render] :=
    Text.Lines.fields_pair hsep hne hfree key.render_ne_empty
      fun c hc => hoptions.not_isSeparator hc
  rw [entryOfLine, Text.Utf8.decode?_encode]
  simp only [hfields, permittedKey?_render hreserved hallowed]

/-- **Written lines are cut apart again.** -/
theorem lines_linesOctets (hoptions : options.Delimiting)
    (hseparator : separator ∈ options.separators.toList) {pairs : List (Key × String)}
    (hpairs : ∀ pair ∈ pairs, options.Writable pair.2) :
    Text.Lines.lines (linesOctets separator pairs) =
      pairs.map fun pair => Text.Utf8.encode (lineText separator pair) := by
  induction pairs with
  | nil => exact Text.Lines.lines_nil
  | cons pair rest ih =>
    have hlineFeed : lineFeed ∉ Text.Utf8.encode (lineText separator pair) := by
      show UInt8.ofNat '\n'.toNat ∉ _
      rw [Text.Utf8.mem_encode_iff (by decide), lineText, String.toList_append,
        String.toList_append, String.toList_singleton, List.mem_append, List.mem_append,
        List.mem_singleton]
      rintro ((hsymbol | rfl) | hkey)
      · exact (hpairs pair List.mem_cons_self).lineFeed hsymbol
      · exact hoptions.lineFeed hseparator
      · exact (Options.isSeparator_eq_false_iff.mp (hoptions.not_isSeparator hkey)).1 rfl
    -- a line ends with a digit, so there is no carriage return to take off
    have hchomp : Text.Lines.chomp (Text.Utf8.encode (lineText separator pair)) =
        Text.Utf8.encode (lineText separator pair) := by
      rw [lineText, Text.Utf8.encode_append]
      refine Text.Lines.chomp_eq_self ?_ ?_
      · intro hempty
        exact pair.1.render_ne_empty (Text.Utf8.encode_inj hempty)
      · show UInt8.ofNat '\r'.toNat ∉ _
        rw [Text.Utf8.mem_encode_iff (by decide)]
        intro hmem
        rcases Key.isDigit_or_minus_of_mem_render hmem with hdigit | hminus
        · cases hdigit
        · cases hminus
    rw [linesOctets, List.flatMap_cons, lineOctets, List.append_assoc, List.singleton_append,
      Text.Lines.lines_append hlineFeed, hchomp, List.map_cons]
    exact congrArg _ (ih fun other hmem => hpairs other (List.mem_cons_of_mem _ hmem))

/-- **A line says only what could have been written.** -/
theorem of_entryOfLine {number : Nat} {line : List UInt8}
    (h : entryOfLine options source number line = .ok (some (symbol, key))) :
    options.Writable symbol ∧ options.Allows key := by
  obtain ⟨text, -, ⟨-, hnone⟩ | ⟨found, field, permitted, hfields, hpermitted, heq⟩⟩ :=
    entryOfLine_eq_ok_iff.mp h
  · cases hnone
  · obtain ⟨rfl, rfl⟩ := Prod.mk.inj (Option.some.inj heq)
    have hfield := Text.Lines.mem_fields (hfields ▸ List.mem_cons_self)
    obtain ⟨-, -, hallowed⟩ := permittedKey?_eq_some_iff.mp hpermitted
    exact ⟨Options.writable_iff.mpr hfield, hallowed⟩

end TextFormat

namespace Table

open TextFormat

variable {hash : Hash} {table : Table hash} {options : TextFormat.Options} {octets : List UInt8}

/-- **When a table can be written**, and what is written. -/
theorem toText_eq_ok_iff :
    (table.toText options).value = .ok octets ↔
      ∃ separator, options.outputSeparator? = some separator ∧
        linesOctets separator table.pairs = octets := by
  show (Output.run (table.textSteps options) .unbounded).value.complete = _ ↔ _
  rw [Output.complete_eq_ok_iff, textSteps]
  cases options.outputSeparator? with
  | none => simp
  | some separator => simp [completes_linesSteps, octets_linesSteps]

end Table
end Symtab
