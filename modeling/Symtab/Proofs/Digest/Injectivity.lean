import Symtab.Proofs.Digest.Separation

/-!
# Octets that tell tables apart

The octets of a digest tell tables apart as far as they can be cut up again.  In the content digest
every symbol has a zero octet behind it, so cutting at the zero octets gives the symbols back, each
of them in as many parts as its zero characters make (`parts`).  In the labeled digest nothing stands
between a key and the next symbol, and what tells them apart is that one ends with a digit and the
other does not begin with one.

Main statement: `Reachable.octets_inj_of_plain`, with symbols that are plain in this sense the octets
are those of one sequence of symbols, and of one set of bindings from key zero on.
-/

set_option autoImplicit false

namespace Symtab

namespace Table

variable {left right hash : Hash} {symbol : String} {first second : List (Key × String)}

/-! ## Symbols that end with a zero octet -/

/-- What the zero octets of a symbol make of it. -/
def parts (symbol : String) : List (List UInt8) :=
  (Text.Utf8.encode symbol).splitOn 0

theorem parts_eq_singleton (h : '\x00' ∉ symbol.toList) :
    parts symbol = [Text.Utf8.encode symbol] := by
  refine List.splitOn_eq_singleton ?_
  show UInt8.ofNat '\x00'.toNat ∉ _
  rw [Text.Utf8.mem_encode_iff (by decide)]
  exact h

/-- **Cutting the octets of the content digest** gives the parts of the symbols, and nothing behind
    the last zero octet. -/
theorem splitOn_contentOctets (table : Table hash) :
    table.contentOctets.splitOn 0 = table.index.toList.flatMap parts ++ [[]] := by
  unfold contentOctets
  induction table.index.toList with
  | nil => rfl
  | cons symbol rest ih =>
    rw [List.flatMap_cons, List.append_assoc, List.singleton_append,
      List.splitOn_append_cons_self, ih, List.flatMap_cons, List.append_assoc]
    rfl

/-- **When the content digest covers the same octets.** -/
theorem contentOctets_eq_iff {table : Table left} {other : Table right} :
    table.contentOctets = other.contentOctets ↔
      table.index.toList.flatMap parts = other.index.toList.flatMap parts := by
  constructor
  · intro h
    have hcut := congrArg (List.splitOn 0) h
    rw [splitOn_contentOctets, splitOn_contentOctets] at hcut
    exact List.append_cancel_right hcut
  · intro h
    -- what is cut at the zero octets is put together again with zero octets
    have hback : ∀ octets : List UInt8, [0].intercalate (octets.splitOn 0) = octets :=
      fun octets => List.intercalate_splitOn 0
    rw [← hback table.contentOctets, ← hback other.contentOctets, splitOn_contentOctets,
      splitOn_contentOctets, h]

/-- A symbol with a zero character is covered as two symbols without one. -/
example : parts "a\x00b" = ["a", "b"].flatMap parts := by decide

theorem flatMap_parts {symbols : List String} (h : ∀ symbol ∈ symbols, '\x00' ∉ symbol.toList) :
    symbols.flatMap parts = symbols.map Text.Utf8.encode := by
  rw [List.map_eq_flatMap]
  exact List.flatMap_congr fun symbol hmem => parts_eq_singleton (h symbol hmem)

/-! ## Symbols that do not begin with a digit -/

/-- Plain bindings have a text of their own. -/
theorem text_eq_iff_of_plain (hfirst : ∀ pair ∈ first, 0 ≤ pair.1 ∧ Plain pair.2)
    (hsecond : ∀ pair ∈ second, 0 ≤ pair.1 ∧ Plain pair.2) :
    text first = text second ↔ first = second := by
  rw [text_eq_iff (fun pair hmem => (hfirst pair hmem).1) fun pair hmem => (hsecond pair hmem).1]
  constructor
  · rintro (heq | hrecut | hrecut)
    · exact heq
    · exact absurd hrecut (not_recut_of_plain hfirst hsecond)
    · exact absurd hrecut (not_recut_of_plain hsecond hfirst)
  · exact Or.inl

theorem Sound.plain_of_mem_labeledPairs {table : Table hash} (h : Sound table)
    (hplain : ∀ symbol ∈ table.index.toList, Plain symbol) :
    ∀ pair ∈ table.labeledPairs, 0 ≤ pair.1 ∧ Plain pair.2 := by
  intro pair hmem
  exact ⟨nonneg_of_mem_labeledPairs pair hmem,
    hplain pair.2 (h.symbol_mem_of_mem_labeledPairs hmem)⟩

/-- **When the labeled digest covers the same octets**, with plain symbols. -/
theorem Sound.labeledOctets_eq_iff_of_plain {table : Table left} {other : Table right}
    (h : Sound table) (hother : Sound other)
    (hplain : ∀ symbol ∈ table.index.toList, Plain symbol)
    (hplain' : ∀ symbol ∈ other.index.toList, Plain symbol) :
    table.labeledOctets = other.labeledOctets ↔
      ∀ key, 0 ≤ key → table.find? key = other.find? key := by
  rw [h.labeledOctets_eq, hother.labeledOctets_eq, joined_eq_iff_text,
    text_eq_iff_of_plain (h.plain_of_mem_labeledPairs hplain)
      (hother.plain_of_mem_labeledPairs hplain'),
    h.labeledPairs_eq_iff hother]

end Table

variable {left right : Hash}

/-- **The octets of the digests are injective on plain symbols.**  Of tables whose symbols hold no
    zero character, the octets of the content digest are the same exactly when the tables store the
    same symbols in the same order.  Of tables whose symbols hold no tab and do not begin with a
    digit, the octets of the labeled digest are the same exactly when the tables bind the same keys
    from zero on to the same symbols. -/
theorem Reachable.octets_inj_of_plain {table : Table left} {other : Table right}
    (h : Reachable table) (hother : Reachable other) :
    ((∀ symbol ∈ table.index.toList, '\x00' ∉ symbol.toList) →
      (∀ symbol ∈ other.index.toList, '\x00' ∉ symbol.toList) →
      (table.contentOctets = other.contentOctets ↔
        table.index.toList = other.index.toList)) ∧
    ((∀ symbol ∈ table.index.toList,
        '\t' ∉ symbol.toList ∧ ∀ c ∈ symbol.toList.head?, c.isDigit = false) →
      (∀ symbol ∈ other.index.toList,
        '\t' ∉ symbol.toList ∧ ∀ c ∈ symbol.toList.head?, c.isDigit = false) →
      (table.labeledOctets = other.labeledOctets ↔
        ∀ key symbol, 0 ≤ key → (table.find? key = some symbol ↔ other.find? key = some symbol))) := by
  constructor
  · intro hzero hzero'
    rw [Table.contentOctets_eq_iff, Table.flatMap_parts hzero, Table.flatMap_parts hzero']
    exact (List.map_injective_iff.mpr fun _ _ => Text.Utf8.encode_inj).eq_iff
  · intro hplain hplain'
    rw [h.sound.labeledOctets_eq_iff_of_plain hother.sound
      (fun symbol hmem => Table.plain_of_no_tab (hplain symbol hmem).1 (hplain symbol hmem).2)
      fun symbol hmem => Table.plain_of_no_tab (hplain' symbol hmem).1 (hplain' symbol hmem).2]
    constructor
    · intro hsame key symbol hnonneg
      rw [hsame key hnonneg]
    · intro hsame key hnonneg
      exact Option.ext fun symbol => hsame key symbol hnonneg

/-- The empty symbol between others, under keys whose digits begin alike. -/
theorem octets_inj_of_plain_of_empty :
    let table : Table (Hash.constant 0) := .ofBindings "short" [("a", 1), ("", 20), ("x", -3)]
    let other : Table Hash.mixed := .ofBindings "long" [("a", 10), ("", 2), ("x", 7)]
    Reachable table ∧ Reachable other ∧ table.contentOctets = other.contentOctets ∧
      table.labeledOctets ≠ other.labeledOctets := by
  intro table other
  have h : Reachable table := reachable_ofBindings ..
  have hother : Reachable other := reachable_ofBindings ..
  have hsymbols : table.index.toList = ["a", "", "x"] := by rfl
  have hsymbols' : other.index.toList = ["a", "", "x"] := by rfl
  have hzero : ∀ symbol ∈ ["a", "", "x"], '\x00' ∉ symbol.toList := by simp
  have hplain : ∀ symbol ∈ ["a", "", "x"],
      '\t' ∉ symbol.toList ∧ ∀ c ∈ symbol.toList.head?, c.isDigit = false := by simp
  obtain ⟨hcontent, hlabeled⟩ := h.octets_inj_of_plain hother
  rw [hsymbols, hsymbols'] at hcontent hlabeled
  refine ⟨h, hother, (hcontent hzero hzero).mpr rfl, ?_⟩
  intro hoctets
  have hsame := (hlabeled hplain hplain).mp hoctets 1 "a" (by decide)
  have hfind : table.find? 1 = some "a" := by rfl
  have hfind' : other.find? 1 = none := by rfl
  rw [hfind, hfind'] at hsame
  cases hsame.mp rfl

end Symtab
