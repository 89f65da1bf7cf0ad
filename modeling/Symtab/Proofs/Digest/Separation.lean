import Symtab.Compatible
import Symtab.Proofs.Digest.Canonical
import Symtab.Proofs.Text.Encoding

/-!
# What the labeled digest tells apart

The bindings that the labeled digest covers stand one behind the other with nothing between
them, each as its symbol, a tab and its key.  Where one ends is not marked: the digits at the
front of a symbol can belong to the key before it, and a symbol can hold a tab and digits of
its own.  So one text can be cut into different bindings.

`Recut` describes the two ways in which that happens, at the first binding where two lists
differ.  One list is then ahead of the other by a piece of text, and `Overhang` says, record by
record, that the other one makes up for it in the end.  Both speak of bindings and of pieces of
single records, and not of the whole texts.

Main statements: `text_eq_iff`, the texts of two lists are the same when the lists are or one is
a recut of the other, and in no other case; `not_recut_of_plain`, with symbols that begin with no
digit and hold no tab before a digit there are no recuts.
-/

set_option autoImplicit false

namespace Symtab

namespace Table

variable {key key' : Key} {symbol : String} {first second : List (Key × String)}

theorem nonneg_of_mem_labeledPairs {hash : Hash} {table : Table hash} :
    ∀ pair ∈ table.labeledPairs, 0 ≤ pair.1 := by
  intro pair hmem
  simpa using (List.mem_filter.mp hmem).2

theorem Sound.symbol_mem_of_mem_labeledPairs {hash : Hash} {table : Table hash} (h : Sound table)
    {pair : Key × String} (hmem : pair ∈ table.labeledPairs) : pair.2 ∈ table.index.toList := by
  have hbinding := h.mem_pairs_iff.mp (List.mem_filter.mp hmem).1
  obtain ⟨position, hsymbol, -⟩ := Sound.mem_bindings_iff.mp hbinding
  exact List.mem_of_getElem? hsymbol

/-! ## Texts -/

/-- The text of bindings in the labeled digest. -/
def text : List (Key × String) → String
  | [] => ""
  | (key, symbol) :: rest => symbol ++ "\t" ++ key.render ++ text rest

theorem joined_eq (pairs : List (Key × String)) : joined pairs = Text.Utf8.encode (text pairs) := by
  induction pairs with
  | nil => rfl
  | cons pair rest ih =>
    rw [text, Text.Utf8.encode_append, ← ih]
    rfl

theorem joined_eq_iff_text : joined first = joined second ↔ text first = text second := by
  rw [joined_eq, joined_eq]
  exact ⟨Text.Utf8.encode_inj, congrArg _⟩

/-! ## Digits -/

theorem toList_render_of_nonneg (h : 0 ≤ key) :
    key.render.toList = Nat.toDigits 10 key.toNatClampNeg := by
  rw [Key.render, Text.Decimal.render, Int64.toInt_eq_toNatClampNeg h, String.toList_ofList]
  rfl

theorem isDigit_of_mem_render (h : 0 ≤ key) {c : Char} (hc : c ∈ key.render.toList) :
    c.isDigit = true := by
  rw [toList_render_of_nonneg h] at hc
  exact Nat.isDigit_of_mem_toDigits (by decide) (by decide) hc

theorem tab_not_mem_render (h : 0 ≤ key) : '\t' ∉ key.render.toList := by
  intro hmem
  exact absurd (isDigit_of_mem_render h hmem) (by decide)

theorem render_inj (h : key.render = key'.render) : key = key' := by
  have hparsed := Key.parse?_render key
  rw [h, Key.parse?_render] at hparsed
  exact (Option.some.inj hparsed).symm

/-! ## Overhangs -/

/-- The text of one binding. -/
def recordText (pair : Key × String) : String := pair.2 ++ "\t" ++ pair.1.render

theorem text_cons (pair : Key × String) (rest : List (Key × String)) :
    text (pair :: rest) = recordText pair ++ text rest := rfl

theorem text_ne_empty (pair : Key × String) (rest : List (Key × String)) :
    text (pair :: rest) ≠ "" := by
  intro h
  have hlist := congrArg String.toList h
  rw [text_cons, recordText] at hlist
  simp at hlist

/-- The second bindings are ahead of the first by a piece of text, and both end together.  The
    records are laid along one another: the next record of those behind lies within the piece, or
    it covers the piece, and is then ahead itself by what it has more. -/
inductive Overhang : String → List (Key × String) → List (Key × String) → Prop where
  | level : Overhang "" [] []
  | within {piece : String} {first second : List (Key × String)} (pair : Key × String)
    (h : Overhang piece first second) :
    Overhang (recordText pair ++ piece) (pair :: first) second
  | past {piece further : String} {first second : List (Key × String)} {pair : Key × String}
    (hrecord : recordText pair = piece ++ further) (h : Overhang further second first) :
    Overhang piece (pair :: first) second

theorem Overhang.text_eq {piece : String} (h : Overhang piece first second) :
    text first = piece ++ text second := by
  induction h with
  | level => rfl
  | within pair _ ih => rw [text_cons, ih, String.append_assoc]
  | past hrecord _ ih => rw [text_cons, hrecord, ih, String.append_assoc]

/-- Where two texts put together are one text, the longer front is the shorter one with a piece
    behind it. -/
theorem append_cases {front behind front' behind' : String}
    (h : front ++ behind = front' ++ behind') :
    (∃ piece, front' = front ++ piece ∧ behind = piece ++ behind') ∨
      ∃ piece, front = front' ++ piece ∧ behind' = piece ++ behind := by
  have hlist := congrArg String.toList h
  rw [String.toList_append, String.toList_append] at hlist
  rcases List.append_eq_append_iff.mp hlist with ⟨piece, hfront, hbehind⟩ | ⟨piece, hfront, hbehind⟩
  · exact Or.inl ⟨String.ofList piece, String.toList_injective (by simpa using hfront),
      String.toList_injective (by simpa using hbehind)⟩
  · exact Or.inr ⟨String.ofList piece, String.toList_injective (by simpa using hfront),
      String.toList_injective (by simpa using hbehind)⟩

/-- **Whether bindings are ahead by a piece of text** is seen on their texts. -/
theorem overhang_iff {piece : String} :
    Overhang piece first second ↔ text first = piece ++ text second := by
  refine ⟨Overhang.text_eq, fun h => ?_⟩
  -- the two lists take turns, so the induction is on how many records there are in both
  induction hlength : first.length + second.length using Nat.strongRecOn
    generalizing piece first second with
  | ind length ih =>
    cases first with
    | nil =>
      obtain ⟨rfl, hsecond⟩ := String.append_eq_empty_iff.mp h.symm
      cases second with
      | nil => exact .level
      | cons pair second => exact absurd hsecond (text_ne_empty pair second)
    | cons pair first =>
      rw [text_cons] at h
      rw [List.length_cons] at hlength
      rcases append_cases h with ⟨rest, rfl, hrest⟩ | ⟨further, hrecord, hrest⟩
      · exact .within pair (ih _ (by omega) hrest rfl)
      · exact .past hrecord (ih _ (by omega) hrest rfl)

/-! ## Recuts -/

/-- The text of a list of bindings cut in another way: up to some binding the lists are the
    same, and there the second list goes further, in the symbol or in the key.  It is then ahead,
    and the bindings behind have to make up for that. -/
inductive Recut : List (Key × String) → List (Key × String) → Prop where
  | later {first second : List (Key × String)} (pair : Key × String) (h : Recut first second) :
    Recut (pair :: first) (pair :: second)
  /-- The symbol takes in the whole first binding, with its tab, and something behind it. -/
  | symbol {first second : List (Key × String)} (key key' : Key) (symbol taken : String)
    (h : Overhang (taken ++ "\t" ++ key'.render) first second) :
    Recut ((key, symbol) :: first) ((key', symbol ++ "\t" ++ key.render ++ taken) :: second)
  /-- The key takes in digits at the front of what is behind it. -/
  | key {first second : List (Key × String)} {key key' : Key} (symbol digits : String)
    (hdigits : digits ≠ "") (hkey : key'.render = key.render ++ digits)
    (h : Overhang digits first second) :
    Recut ((key, symbol) :: first) ((key', symbol) :: second)

theorem Recut.text_eq (h : Recut first second) : text first = text second := by
  induction h with
  | later pair _ ih => rw [text, text, ih]
  | symbol key key' symbol taken h => simp only [text, h.text_eq, String.append_assoc]
  | key symbol digits _ hkey h => simp only [text, h.text_eq, hkey, String.append_assoc]

/-- Past the end of the shorter symbol, the longer one takes in the tab and all digits. -/
theorem past_tab {digits rest past rest' : List Char} (hdigits : '\t' ∉ digits) (hpast : past ≠ [])
    (h : '\t' :: (digits ++ rest) = past ++ '\t' :: rest') :
    ∃ taken, past = '\t' :: (digits ++ taken) ∧ rest = taken ++ '\t' :: rest' := by
  cases past with
  | nil => exact absurd rfl hpast
  | cons c past =>
    obtain ⟨rfl, hrest⟩ := List.cons.inj h
    rcases List.append_eq_append_iff.mp hrest with ⟨taken, rfl, htaken⟩ | ⟨cut, rfl, hcut⟩
    · exact ⟨taken, rfl, htaken⟩
    · cases cut with
      | nil => exact ⟨[], by simp, by simpa using hcut.symm⟩
      | cons c cut =>
        -- the tab of the other record would stand among the digits
        obtain ⟨rfl, -⟩ := List.cons.inj hcut
        exact absurd (List.mem_append_right past List.mem_cons_self) hdigits

/-- Where two texts that start with a record agree, one symbol goes past the other record, or
    the symbols are the same. -/
theorem record_append_cases {symbol symbol' digits digits' rest rest' : List Char}
    (hdigits : '\t' ∉ digits) (hdigits' : '\t' ∉ digits')
    (h : symbol ++ '\t' :: (digits ++ rest) = symbol' ++ '\t' :: (digits' ++ rest')) :
    (∃ taken, symbol' = symbol ++ '\t' :: (digits ++ taken) ∧
      rest = taken ++ '\t' :: (digits' ++ rest')) ∨
    (∃ taken, symbol = symbol' ++ '\t' :: (digits' ++ taken) ∧
      rest' = taken ++ '\t' :: (digits ++ rest)) ∨
    (symbol = symbol' ∧ digits ++ rest = digits' ++ rest') := by
  rcases List.append_eq_append_iff.mp h with ⟨past, rfl, hpast⟩ | ⟨past, rfl, hpast⟩
  · by_cases hnil : past = []
    · subst hnil
      exact Or.inr (Or.inr ⟨(List.append_nil _).symm, (List.cons.inj hpast).2⟩)
    · obtain ⟨taken, rfl, hrest⟩ := past_tab hdigits hnil hpast
      exact Or.inl ⟨taken, rfl, hrest⟩
  · by_cases hnil : past = []
    · subst hnil
      exact Or.inr (Or.inr ⟨List.append_nil _, (List.cons.inj hpast).2.symm⟩)
    · obtain ⟨taken, rfl, hrest⟩ := past_tab hdigits' hnil hpast
      exact Or.inr (Or.inl ⟨taken, rfl, hrest⟩)

theorem toList_text_cons (key : Key) (symbol : String) (rest : List (Key × String)) :
    (text ((key, symbol) :: rest)).toList =
      symbol.toList ++ '\t' :: (key.render.toList ++ (text rest).toList) := by
  simp [text]

/-- Two records with one symbol, whose keys go on differently. -/
theorem recut_of_render_append {digits : List Char} (hne : key ≠ key')
    (hkey : key'.render.toList = key.render.toList ++ digits)
    (h : (text first).toList = digits ++ (text second).toList) (symbol : String) :
    Recut ((key, symbol) :: first) ((key', symbol) :: second) := by
  refine .key symbol (String.ofList digits) ?_ ?_ ?_
  · intro hempty
    have hnil : digits = [] := by simpa using congrArg String.toList hempty
    subst hnil
    rw [List.append_nil] at hkey
    exact hne (render_inj (String.toList_injective hkey)).symm
  · apply String.toList_injective
    simpa using hkey
  · refine overhang_iff.mpr (String.toList_injective ?_)
    simpa using h

/-- One record whose symbol goes past another one. -/
theorem recut_of_symbol_append {symbol' : String} {taken : List Char}
    (hsymbol : symbol'.toList = symbol.toList ++ '\t' :: (key.render.toList ++ taken))
    (h : (text first).toList =
      taken ++ '\t' :: (key'.render.toList ++ (text second).toList)) :
    Recut ((key, symbol) :: first) ((key', symbol') :: second) := by
  have heq : symbol' = symbol ++ "\t" ++ key.render ++ String.ofList taken := by
    apply String.toList_injective
    simpa using hsymbol
  rw [heq]
  refine .symbol key key' symbol (String.ofList taken) ?_
  refine overhang_iff.mpr (String.toList_injective ?_)
  simpa using h

/-- **When texts are the same**: when the bindings are, or when some were cut in another way. -/
theorem text_eq_iff (hfirst : ∀ pair ∈ first, 0 ≤ pair.1) (hsecond : ∀ pair ∈ second, 0 ≤ pair.1) :
    text first = text second ↔ first = second ∨ Recut first second ∨ Recut second first := by
  constructor
  · intro h
    -- record by record; the first one that differs decides which of the two goes further
    induction first generalizing second with
    | nil =>
      cases second with
      | nil => exact Or.inl rfl
      | cons pair second => exact absurd h.symm (text_ne_empty pair second)
    | cons pair first ih =>
      cases second with
      | nil => exact absurd h (text_ne_empty pair first)
      | cons pair' second =>
        obtain ⟨key, symbol⟩ := pair
        obtain ⟨key', symbol'⟩ := pair'
        have hkey : 0 ≤ key := hfirst (key, symbol) List.mem_cons_self
        have hkey' : 0 ≤ key' := hsecond (key', symbol') List.mem_cons_self
        have hlist := congrArg String.toList h
        rw [toList_text_cons, toList_text_cons] at hlist
        rcases record_append_cases (tab_not_mem_render hkey) (tab_not_mem_render hkey') hlist with
          ⟨taken, htaken, hrest⟩ | ⟨taken, htaken, hrest⟩ | ⟨hsymbol, hrest⟩
        · exact Or.inr (Or.inl (recut_of_symbol_append htaken hrest))
        · exact Or.inr (Or.inr (recut_of_symbol_append htaken hrest))
        · obtain rfl := String.toList_injective hsymbol
          by_cases hsame : key = key'
          · subst hsame
            have htext := String.toList_injective (List.append_cancel_left hrest)
            rcases ih (fun pair hpair => hfirst pair (List.mem_cons_of_mem _ hpair))
              (fun pair hpair => hsecond pair (List.mem_cons_of_mem _ hpair)) htext with
              rfl | hrecut | hrecut
            · exact Or.inl rfl
            · exact Or.inr (Or.inl (.later _ hrecut))
            · exact Or.inr (Or.inr (.later _ hrecut))
          · rcases List.append_eq_append_iff.mp hrest with ⟨digits, hdigits, hcut⟩ |
              ⟨digits, hdigits, hcut⟩
            · exact Or.inr (Or.inl (recut_of_render_append hsame hdigits hcut symbol))
            · exact Or.inr (Or.inr
                (recut_of_render_append (fun heq => hsame heq.symm) hdigits hcut symbol))
  · intro hor
    rcases hor with rfl | hrecut | hrecut
    · rfl
    · exact hrecut.text_eq
    · exact hrecut.text_eq.symm

/-! ## Plain symbols -/

/-- A symbol that cannot be mistaken for a part of a key, or take one in. -/
structure Plain (symbol : String) : Prop where
  /-- It does not begin with a digit. -/
  front : ∀ (c : Char) (rest : List Char), symbol.toList = c :: rest → c.isDigit = false
  /-- No digit stands right behind a tab. -/
  tabs : ∀ (before : List Char) (c : Char) (rest : List Char),
    symbol.toList = before ++ '\t' :: c :: rest → c.isDigit = false

theorem plain_of_no_tab (htab : '\t' ∉ symbol.toList)
    (hfront : ∀ c ∈ symbol.toList.head?, c.isDigit = false) : Plain symbol where
  front c rest hchars := hfront c (by rw [hchars]; rfl)
  tabs before c rest hchars := by
    rw [hchars] at htab
    exact absurd (List.mem_append_right before List.mem_cons_self) htab

theorem exists_digit_of_render (h : 0 ≤ key) :
    ∃ c rest, key.render.toList = c :: rest ∧ c.isDigit = true := by
  cases hdigits : key.render.toList with
  | nil =>
    rw [toList_render_of_nonneg h] at hdigits
    exact absurd hdigits Nat.toDigits_ne_nil
  | cons c rest => exact ⟨c, rest, rfl, isDigit_of_mem_render h (hdigits ▸ List.mem_cons_self)⟩

/-- The text of plain bindings does not begin with a digit. -/
theorem isDigit_front_of_plain (h : ∀ pair ∈ first, Plain pair.2) {c : Char} {rest : List Char}
    (hfront : (text first).toList = c :: rest) : c.isDigit = false := by
  cases first with
  | nil => cases hfront
  | cons pair first =>
    obtain ⟨key, symbol⟩ := pair
    rw [toList_text_cons] at hfront
    cases hsymbol : symbol.toList with
    | nil =>
      rw [hsymbol] at hfront
      obtain ⟨rfl, -⟩ := List.cons.inj hfront
      rfl
    | cons c' symbolRest =>
      rw [hsymbol] at hfront
      obtain ⟨rfl, -⟩ := List.cons.inj hfront
      exact (h _ List.mem_cons_self).front _ _ hsymbol

/-- **The texts of plain bindings are cut in one way only.** -/
theorem not_recut_of_plain (hfirst : ∀ pair ∈ first, 0 ≤ pair.1 ∧ Plain pair.2)
    (hsecond : ∀ pair ∈ second, 0 ≤ pair.1 ∧ Plain pair.2) : ¬Recut first second := by
  intro h
  induction h with
  | later pair _ ih =>
    exact ih (fun pair hpair => hfirst pair (List.mem_cons_of_mem _ hpair))
      fun pair hpair => hsecond pair (List.mem_cons_of_mem _ hpair)
  | symbol key key' symbol taken _ =>
    obtain ⟨c, digits, hdigits, hc⟩ := exists_digit_of_render (hfirst _ List.mem_cons_self).1
    simp only at hdigits
    -- the tab that the symbol took in stands before the first digit of the other key
    have htabs := (hsecond _ List.mem_cons_self).2.tabs symbol.toList c (digits ++ taken.toList)
      (by simp [hdigits])
    rw [hc] at htabs
    cases htabs
  | @key _ _ _ key' symbol digits hdigits hkey h =>
    cases hchars : digits.toList with
    | nil => exact hdigits (String.toList_injective hchars)
    | cons c rest =>
      have hmem : c ∈ key'.render.toList := by
        rw [hkey, String.toList_append, hchars]
        exact List.mem_append_right _ List.mem_cons_self
      have hdigit := isDigit_of_mem_render (hsecond _ List.mem_cons_self).1 hmem
      -- the digit is from a key, and yet at the front of what stands behind the other record
      have hfront := isDigit_front_of_plain
        (fun pair hpair => (hfirst pair (List.mem_cons_of_mem _ hpair)).2)
        (by rw [h.text_eq, String.toList_append, hchars]; rfl)
      rw [hdigit] at hfront
      cases hfront

end Table

variable {left right : Hash}

/-- Whether checked tables agree is a question to their labeled octets. -/
theorem Table.Sound.compatible_iff {table : Table left} {other : Table right} (h : table.Sound)
    (hother : other.Sound) (warn : Bool) :
    (compatible (some table) (some other) ⟨true, warn⟩).value = true ↔
      Digest.Sha256.hash table.labeledOctets = Digest.Sha256.hash other.labeledOctets := by
  have hlabeled : ∀ {hash : Hash} {table : Table hash}, table.Sound →
      table.checksums.labeled = Digest.Sha256.hash table.labeledOctets := by
    intro hash table h
    rw [h.checksums_eq]
    rfl
  simp only [compatible, hlabeled h, hlabeled hother]
  split
  next heq => simp [heq]
  next hne =>
    constructor
    · intro hagree
      cases warn <;> cases hagree
    · intro heq
      exact absurd heq hne

/-- **What the labeled digest tells apart.**  The octets that it covers are the same for two
    tables exactly when the tables bind the keys from zero on alike, or the bindings of one are
    a recut of those of the other.  With plain symbols there are no recuts, and then only a
    collision of the hash function can make tables compatible that bind these keys otherwise. -/
theorem Reachable.labeledOctets_eq_iff {table : Table left} {other : Table right}
    (h : Reachable table) (hother : Reachable other) :
    (table.labeledOctets = other.labeledOctets ↔
      (∀ key, 0 ≤ key → table.find? key = other.find? key) ∨
        Table.Recut table.labeledPairs other.labeledPairs ∨
        Table.Recut other.labeledPairs table.labeledPairs) ∧
    ((∀ symbol ∈ table.index.toList ++ other.index.toList, Table.Plain symbol) →
      table.labeledOctets = other.labeledOctets →
        ∀ key, 0 ≤ key → table.find? key = other.find? key) ∧
    ∀ warn, (compatible (some table) (some other) ⟨true, warn⟩).value = true ↔
      Digest.Sha256.hash table.labeledOctets = Digest.Sha256.hash other.labeledOctets := by
  have hsound := h.sound
  have hsound' := hother.sound
  have hiff : table.labeledOctets = other.labeledOctets ↔
      (∀ key, 0 ≤ key → table.find? key = other.find? key) ∨
        Table.Recut table.labeledPairs other.labeledPairs ∨
        Table.Recut other.labeledPairs table.labeledPairs := by
    rw [hsound.labeledOctets_eq, hsound'.labeledOctets_eq, Table.joined_eq_iff_text,
      Table.text_eq_iff Table.nonneg_of_mem_labeledPairs Table.nonneg_of_mem_labeledPairs,
      hsound.labeledPairs_eq_iff hsound']
  refine ⟨hiff, ?_, hsound.compatible_iff hsound'⟩
  intro hplain hoctets
  have hpairs : ∀ pair ∈ table.labeledPairs, 0 ≤ pair.1 ∧ Table.Plain pair.2 := by
    intro pair hmem
    exact ⟨Table.nonneg_of_mem_labeledPairs pair hmem,
      hplain _ (List.mem_append_left _ (hsound.symbol_mem_of_mem_labeledPairs hmem))⟩
  have hpairs' : ∀ pair ∈ other.labeledPairs, 0 ≤ pair.1 ∧ Table.Plain pair.2 := by
    intro pair hmem
    exact ⟨Table.nonneg_of_mem_labeledPairs pair hmem,
      hplain _ (List.mem_append_right _ (hsound'.symbol_mem_of_mem_labeledPairs hmem))⟩
  rcases hiff.mp hoctets with hsame | hrecut | hrecut
  · exact hsame
  · exact absurd hrecut (Table.not_recut_of_plain hpairs hpairs')
  · exact absurd hrecut (Table.not_recut_of_plain hpairs' hpairs)

/-- Three bindings each, of which one differs in its key.  No symbol begins with a digit, so no
    record takes in a part of another one. -/
theorem labeledOctets_eq_iff_of_key :
    let table : Table (Hash.constant 0) := .ofBindings "short" [("a", 1), ("x", 20), ("y", 30)]
    let other : Table Hash.mixed := .ofBindings "long" [("y", 30), ("a", 10), ("x", 20)]
    Reachable table ∧ Reachable other ∧ table.find? 10 = none ∧ other.find? 10 = some "a" ∧
      table.labeledOctets ≠ other.labeledOctets ∧
      ¬Table.Recut table.labeledPairs other.labeledPairs := by
  intro table other
  have h : Reachable table := reachable_ofBindings ..
  have hother : Reachable other := reachable_ofBindings ..
  have hfind : table.find? 10 = none := by rfl
  have hfind' : other.find? 10 = some "a" := by rfl
  have hplain : ∀ symbol ∈ table.index.toList ++ other.index.toList, Table.Plain symbol := by
    have hsymbols : table.index.toList ++ other.index.toList =
        ["a", "x", "y", "y", "a", "x"] := by rfl
    rw [hsymbols]
    intro symbol hmem
    obtain rfl | rfl | rfl : symbol = "a" ∨ symbol = "x" ∨ symbol = "y" := by
      simp only [List.mem_cons, List.not_mem_nil, or_false] at hmem
      grind
    all_goals exact Table.plain_of_no_tab (by simp) (by simp)
  obtain ⟨hiff, hinjective, -⟩ := h.labeledOctets_eq_iff hother
  have hne : table.labeledOctets ≠ other.labeledOctets := by
    intro hoctets
    have hsame := hinjective hplain hoctets 10 (by decide)
    rw [hfind, hfind'] at hsame
    cases hsame
  exact ⟨h, hother, hfind, hfind', hne, fun hrecut => hne (hiff.mpr (Or.inr (Or.inl hrecut)))⟩

/-- One text for different bindings: a digit that is the front of a symbol in one table is the
    end of the key before it in the other. -/
theorem labeledOctets_collide :
    let table : Table (Hash.constant 0) := .ofBindings "short" [("a", 1), ("0x", 20)]
    let other : Table Hash.mixed := .ofBindings "long" [("a", 10), ("x", 20)]
    Reachable table ∧ Reachable other ∧
      table.find? 10 = none ∧ other.find? 10 = some "a" ∧
      table.labeledOctets = other.labeledOctets ∧
      (compatible (some table) (some other) .strict).value = true := by
  intro table other
  have h : Reachable table := reachable_ofBindings ..
  have hother : Reachable other := reachable_ofBindings ..
  have hoctets : table.labeledOctets = other.labeledOctets := by rfl
  refine ⟨h, hother, by rfl, by rfl, hoctets, ?_⟩
  exact (h.sound.compatible_iff hother.sound true).mpr (congrArg _ hoctets)

end Symtab
