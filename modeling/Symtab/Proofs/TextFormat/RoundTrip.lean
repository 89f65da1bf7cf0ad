import Symtab.Proofs.Digest.Canonical
import Symtab.Proofs.TextFormat.Encoding

/-!
# Writing a table as text and reading it back

The text of a table holds its bindings by key, and nothing else of it.  Each line is read as the
binding that was written if its symbol is one field and its key is permitted, and the keys are
all different, so every line is added.  Nothing else can come back: a table that is read has only
symbols that are one field and keys that are permitted.

Main statement: `Reachable.text_round_trip`.
-/

set_option autoImplicit false

namespace Symtab

variable {hash left right : Hash}

namespace TextFormat

variable {options : Options} {separator : Char}

/-- **Lines of distinct bindings** are all added. -/
theorem addLines_pairs {table : Table hash} (h : table.Sound) (hoptions : options.Delimiting)
    (hseparator : separator ∈ options.separators.toList) {pairs : List (Key × String)}
    (hpairs : ∀ pair ∈ pairs, options.Writable pair.2 ∧ options.Allows pair.1)
    (hdistinct : (table.ledger.extend (pairs.map Prod.swap)).Distinct) (source : String)
    (number : Nat) :
    ∃ result : Table hash,
      (addLines options source number table
          (pairs.map fun pair => Text.Utf8.encode (lineText separator pair))).value = .ok result ∧
        result.Sound ∧ result.ledger = table.ledger.extend (pairs.map Prod.swap) := by
  induction pairs generalizing table number with
  | nil => exact ⟨table, rfl, h, rfl⟩
  | cons pair rest ih =>
    obtain ⟨key, symbol⟩ := pair
    obtain ⟨hsymbol, hkey, hreserved⟩ := hdistinct.absent_of_extend
    obtain ⟨hwritable, hallowed⟩ := hpairs (key, symbol) List.mem_cons_self
    obtain ⟨hsound, hadded, hledger⟩ := h.addWithKey symbol key
    rw [Ledger.addWithKey_absent hsymbol hkey hreserved] at hadded hledger
    have hdistinct' : ((table.addWithKey symbol key).value.2.ledger.extend
        (rest.map Prod.swap)).Distinct := by
      rw [hledger]
      exact hdistinct
    obtain ⟨result, hlines, hresult, hextended⟩ := ih hsound
      (fun pair hmem => hpairs pair (List.mem_cons_of_mem _ hmem)) hdistinct' (number + 1)
    refine ⟨result, ?_, hresult, ?_⟩
    · rw [List.map_cons, addLines,
        entryOfLine_line hoptions hseparator hwritable hreserved hallowed number]
      simp only [Logged.value_bind]
      rw [if_neg (hadded ▸ hreserved)]
      exact hlines
    · rw [hextended, hledger]
      rfl

end TextFormat

namespace Table

open TextFormat

variable {options : TextFormat.Options} {source : String} {octets : List UInt8}

/-- What a text with these options can hold. -/
def FitsText (table : Table hash) (options : TextFormat.Options) : Prop :=
  (∀ pair ∈ table.pairs, options.Writable pair.2) ∧
    (options.allowNegative = true ∨ ∀ pair ∈ table.pairs, 0 ≤ pair.1)

theorem fitsText_iff {table : Table hash} :
    table.FitsText options ↔
      ∀ pair ∈ table.pairs, options.Writable pair.2 ∧ options.Allows pair.1 := by
  constructor
  · rintro ⟨hwritable, hallowed⟩ pair hmem
    exact ⟨hwritable pair hmem, hallowed.imp id fun hall => hall pair hmem⟩
  · intro hall
    refine ⟨fun pair hmem => (hall pair hmem).1, ?_⟩
    cases hallow : options.allowNegative with
    | true => exact Or.inl rfl
    | false =>
      refine Or.inr fun pair hmem => ?_
      rcases (hall pair hmem).2 with hallow' | hnonneg
      · rw [hallow] at hallow'
        cases hallow'
      · exact hnonneg

/-- **What is read from a text could have been written.** -/
theorem fitsText_ofText {table : Table hash}
    (h : (ofText octets source options).value = .ok table) : table.FitsText options := by
  have hkept : table.Sound ∧ ∀ binding ∈ table.ledger.bindings,
      options.Writable binding.1 ∧ options.Allows binding.2 := by
    refine keeps_ofText (P := fun table => table.Sound ∧ ∀ binding ∈ table.ledger.bindings,
      options.Writable binding.1 ∧ options.Allows binding.2) ?_ ?_ h
    · exact ⟨sound_empty source, fun binding hmem => absurd hmem List.not_mem_nil⟩
    · rintro table number line symbol key hentry ⟨hsound, hall⟩
      obtain ⟨hsound', -, hledger⟩ := hsound.addWithKey symbol key
      refine ⟨hsound', ?_⟩
      rw [hledger]
      rcases table.ledger.addWithKey_cases symbol key with heq | ⟨-, heq⟩
      · rw [heq]
        exact hall
      · rw [heq]
        intro binding hmem
        rcases List.mem_append.mp hmem with hmem | hmem
        · exact hall binding hmem
        · rw [List.mem_singleton.mp hmem]
          exact of_entryOfLine hentry
  obtain ⟨hsound, hall⟩ := hkept
  exact fitsText_iff.mpr fun pair hmem => hall _ (hsound.mem_pairs_iff.mp hmem)

/-- **A text that can hold a table is read back.** -/
theorem Sound.exists_copy_of_text {table : Table left} (h : Sound table) (right : Hash)
    (hoptions : options.Delimiting) (hfits : table.FitsText options) {separator : Char}
    (hseparator : separator ∈ options.separators.toList) (source : String) :
    ∃ copy : Table right,
      (ofText (linesOctets separator table.pairs) source options).value = .ok copy ∧
        copy.pairs = table.pairs := by
  have hpairs := fitsText_iff.mp hfits
  have hempty : (empty source : Table right).Sound := sound_empty source
  have hperm : (table.pairs.map Prod.swap).Perm table.ledger.bindings := by
    rw [h.pairs_eq]
    refine (table.ledger.ascending_perm.map Prod.swap).trans (List.Perm.of_eq ?_)
    rw [List.map_map, Prod.swap_swap_eq, List.map_id]
  have hdistinct : ((empty source : Table right).ledger.extend
      (table.pairs.map Prod.swap)).Distinct := by
    refine h.distinct.of_perm ?_
    rw [Ledger.bindings_extend]
    exact hperm
  obtain ⟨copy, hlines, hcopy, hledger⟩ :=
    addLines_pairs hempty hoptions hseparator hpairs hdistinct source 1
  refine ⟨copy, ?_, ?_⟩
  · rw [ofText_eq_ok_iff,
      lines_linesOctets hoptions hseparator fun pair hmem => (hpairs pair hmem).1]
    exact hlines
  · refine Ledger.eq_of_ascending hcopy.pairs_ascending h.pairs_ascending ?_
    rintro ⟨key, symbol⟩
    rw [hcopy.mem_pairs_iff, h.mem_pairs_iff, hledger, Ledger.bindings_extend, ← hperm.mem_iff]
    rfl

/-- Only the bindings by key matter. -/
theorem Sound.labeled_eq_of_pairs {table : Table left} {copy : Table right} (h : Sound table)
    (hcopy : Sound copy) (hpairs : copy.pairs = table.pairs) :
    copy.checksums.labeled = table.checksums.labeled := by
  rw [h.checksums_eq, hcopy.checksums_eq, computeChecksums, computeChecksums, h.labeledOctets_eq,
    hcopy.labeledOctets_eq, labeledPairs, labeledPairs, hpairs]

end Table

/-- **Writing a table as text and reading it back.**  With separators that are no part of a key
    and end no line, a table can be written, and what is written is read as the same bindings by
    key exactly when every symbol is one field and every key is permitted.  Then the labeled
    digest is the same, and the table that is read is written as the same octets again.  Whatever
    was read from a text with the same options comes back. -/
theorem Reachable.text_round_trip {table : Table left} (h : Reachable table) (right : Hash)
    {options : TextFormat.Options} (hoptions : options.Delimiting) (source : String) :
    ∃ octets, (table.toText options).value = .ok octets ∧
      ((∃ copy : Table right, (Table.ofText octets source options).value = .ok copy ∧
          copy.pairs = table.pairs) ↔
        (∀ pair ∈ table.pairs, options.Writable pair.2) ∧
          (options.allowNegative = true ∨ ∀ pair ∈ table.pairs, 0 ≤ pair.1)) ∧
      (∀ copy : Table right, (Table.ofText octets source options).value = .ok copy →
        copy.pairs = table.pairs →
          copy.checksums.labeled = table.checksums.labeled ∧
            (copy.toText options).value = .ok octets) ∧
      ∀ text origin, (Table.ofText text origin options).value = .ok table →
        ∃ copy : Table right, (Table.ofText octets source options).value = .ok copy ∧
          copy.pairs = table.pairs := by
  have hsound := h.sound
  obtain ⟨separator, houtput, hseparator⟩ := hoptions.exists_separator
  have hread : table.FitsText options → ∃ copy : Table right,
      (Table.ofText (TextFormat.linesOctets separator table.pairs) source options).value =
          .ok copy ∧ copy.pairs = table.pairs := fun hfits =>
    hsound.exists_copy_of_text right hoptions hfits hseparator source
  refine ⟨_, Table.toText_eq_ok_iff.mpr ⟨separator, houtput, rfl⟩, ⟨?_, hread⟩, ?_, ?_⟩
  · rintro ⟨copy, hcopy, hpairs⟩
    have hfits := Table.fitsText_ofText hcopy
    rw [Table.FitsText, hpairs] at hfits
    exact hfits
  · intro copy hcopy hpairs
    refine ⟨hsound.labeled_eq_of_pairs (Table.sound_ofText hcopy) hpairs, ?_⟩
    rw [Table.toText_eq_ok_iff, hpairs]
    exact ⟨separator, houtput, rfl⟩
  · intro text origin htext
    exact hread (Table.fitsText_ofText htext)

/-- A negative key and a symbol with a carriage return at its end come back. -/
theorem text_round_trip_of_negative :
    let options : TextFormat.Options := ⟨true, ":\t"⟩
    let table : Table (Hash.constant 0) := .ofBindings "words" [("b\r", 7), ("a", -3)]
    options.Delimiting ∧ Reachable table ∧ table.pairs = [(-3, "a"), (7, "b\r")] ∧
      ∃ octets, (table.toText options).value = .ok octets ∧ ∃ copy : Table Hash.mixed,
        (Table.ofText octets "lines" options).value = .ok copy ∧ copy.pairs = table.pairs ∧
          copy.checksums.labeled = table.checksums.labeled ∧
            (copy.toText options).value = .ok octets := by
  intro options table
  have hoptions : options.Delimiting := by
    refine ⟨by decide, ?_, by decide, by decide⟩
    simp [options]
  have h : Reachable table := reachable_ofBindings ..
  have hbindings : table.ledger.bindings = [("b\r", 7), ("a", -3)] := by rfl
  have hpairs : table.pairs = [(-3, "a"), (7, "b\r")] := by
    refine Ledger.eq_of_ascending h.sound.pairs_ascending (by decide) ?_
    rintro ⟨key, symbol⟩
    rw [h.sound.mem_pairs_iff, hbindings]
    simp [or_comm, and_comm]
  have hwritable : ∀ pair ∈ table.pairs, options.Writable pair.2 := by
    rw [hpairs]
    intro pair hmem
    simp only [List.mem_cons, List.not_mem_nil, or_false] at hmem
    rcases hmem with rfl | rfl
    · exact ⟨by decide, by simp [options], by decide⟩
    · exact ⟨by decide, by simp [options], by decide⟩
  obtain ⟨octets, hwritten, hread, hsame, -⟩ := h.text_round_trip Hash.mixed hoptions "lines"
  obtain ⟨copy, hcopy, hpairs'⟩ := hread.mpr ⟨hwritable, Or.inl rfl⟩
  exact ⟨hoptions, h, hpairs, octets, hwritten, copy, hcopy, hpairs', hsame copy hcopy hpairs'⟩

end Symtab
