import Symtab.Proofs.Table.Traversal
import Symtab.Proofs.TextFormat.Encoding

/-!
# Writing the text format with a limit

A line is written in pieces, and the room can end inside any of them, which makes no difference to
what is written.  It could make one to what is reported, as nothing is reported any more once the
room has ended.  But a negative key is reported before its line, and of keys in ascending order a
negative one stands in the first line or nowhere; so the report comes before the first octet, and
names the least key of the table.

Main statement: `Reachable.limited_writing`.
-/

set_option autoImplicit false

namespace Symtab

namespace TextFormat

open Output (Step Quiet)

variable {key : Key} {symbol : String} {pairs : List (Key × String)}

theorem quiet_lineSteps (separator : Char) (key : Key) (symbol : String) :
    Quiet (lineSteps separator key symbol) := by
  simp [lineSteps]

/-- Lines are written without a report if negative keys need none, or there are none. -/
theorem quiet_linesSteps (table : String) (separator : Char) {silent : Bool}
    (h : silent = true ∨ ∀ pair ∈ pairs, 0 ≤ pair.1) :
    Quiet (linesSteps table separator silent pairs) := by
  induction pairs with
  | nil => exact Output.quiet_nil
  | cons pair rest ih =>
    obtain ⟨key, symbol⟩ := pair
    have hreported : (decide (key < 0) && !silent) = false := by
      rcases h with rfl | hnonneg
      · exact Bool.and_false _
      · have hkey : 0 ≤ key := hnonneg (key, symbol) List.mem_cons_self
        rw [decide_eq_false (Int64.not_lt.mpr hkey), Bool.false_and]
    have hrest : silent = true ∨ ∀ pair ∈ rest, 0 ≤ pair.1 :=
      h.imp id fun hnonneg pair hmem => hnonneg pair (List.mem_cons_of_mem _ hmem)
    rw [linesSteps, hreported, Bool.or_false, Output.quiet_append, Output.quiet_append]
    exact ⟨⟨Output.quiet_nil, quiet_lineSteps separator key symbol⟩, ih hrest⟩

/-- A negative key in the first line is reported first, and no other one is. -/
theorem notices_linesSteps_of_negative (table : String) (separator : Char) (hkey : key < 0)
    (symbol : String) (rest : List (Key × String)) (sink : Output.Sink) :
    (Output.run (linesSteps table separator false ((key, symbol) :: rest)) sink).notices =
      [.negativeKey table key] := by
  have hsteps : linesSteps table separator false ((key, symbol) :: rest) =
      .note (.negativeKey table key) ::
        (lineSteps separator key symbol ++ linesSteps table separator true rest) := by
    simp [linesSteps, hkey]
  rw [hsteps]
  refine Output.notices_run_note ?_ _ sink
  rw [Output.quiet_append]
  exact ⟨quiet_lineSteps separator key symbol, quiet_linesSteps table separator (Or.inl rfl)⟩

/-- The lines as texts with their ends. -/
theorem linesOctets_eq (separator : Char) (pairs : List (Key × String)) :
    linesOctets separator pairs = pairs.flatMap fun pair =>
      Text.Utf8.encode (pair.2 ++ String.singleton separator ++ pair.1.render ++ "\n") := by
  refine List.flatMap_congr fun pair _ => ?_
  rw [Text.Utf8.encode_append]
  rfl

end TextFormat

namespace Table

open TextFormat

variable {hash : Hash} {table : Table hash} {options : TextFormat.Options} {separator : Char}

/-- No bound key is less. -/
def IsLeastKey (table : Table hash) (least : Key) : Prop :=
  table.containsKey least = true ∧ ∀ key, table.containsKey key = true → least ≤ key

theorem Sound.containsKey_iff_mem_pairs (h : Sound table) {key : Key} :
    table.containsKey key = true ↔ ∃ symbol, (key, symbol) ∈ table.pairs := by
  rw [containsKey, Option.isSome_iff_exists]
  exact exists_congr fun symbol => h.mem_pairs_iff_find?.symm

/-- The binding of the least key comes first. -/
theorem Sound.isLeastKey_of_pairs (h : Sound table) {least : Key} {symbol : String}
    {rest : List (Key × String)} (hpairs : table.pairs = (least, symbol) :: rest) :
    table.IsLeastKey least := by
  have hascending := h.pairs_ascending
  unfold IsLeastKey
  simp only [h.containsKey_iff_mem_pairs]
  rw [hpairs] at hascending ⊢
  refine ⟨⟨symbol, List.mem_cons_self⟩, ?_⟩
  rintro key ⟨other, hmem⟩
  rcases List.mem_cons.mp hmem with heq | hmem
  · rw [(Prod.mk.inj heq).1]
    exact Int64.le_rfl
  · exact Int64.le_of_lt ((List.pairwise_cons.mp hascending).1 _ hmem)

theorem writeText_eq (table : Table hash) (hseparator : options.outputSeparator? = some separator)
    (sink : Output.Sink) :
    table.writeText options sink =
      Output.run (linesSteps table.name separator options.allowNegative table.pairs) sink := by
  rw [writeText, textSteps, hseparator]

/-- **What is written with a limit.** -/
theorem value_writeText_bounded (table : Table hash)
    (hseparator : options.outputSeparator? = some separator) (limit : Nat) :
    (table.writeText options (.bounded limit)).value =
      ⟨(linesOctets separator table.pairs).take limit,
        if (linesOctets separator table.pairs).length ≤ limit then none
        else some (.stream .noRoom)⟩ := by
  rw [table.writeText_eq hseparator, Output.Sink.bounded,
    Output.value_run_bounded (completes_linesSteps _ _ _ _), octets_linesSteps]
  rfl

/-- **What is reported**, if there is a negative key and no leave for it. -/
theorem Sound.notices_writeText_of_negative (h : Sound table)
    (hseparator : options.outputSeparator? = some separator)
    (hallow : options.allowNegative = false) {key : Key} (hkey : key < 0)
    (hbound : table.containsKey key = true) :
    ∃ least, table.IsLeastKey least ∧
      ∀ sink, (table.writeText options sink).notices = [.negativeKey table.name least] := by
  obtain ⟨symbol, hmem⟩ := h.containsKey_iff_mem_pairs.mp hbound
  cases hpairs : table.pairs with
  | nil =>
    rw [hpairs] at hmem
    exact absurd hmem List.not_mem_nil
  | cons pair rest =>
    obtain ⟨least, first⟩ := pair
    have hleast := h.isLeastKey_of_pairs hpairs
    refine ⟨least, hleast, fun sink => ?_⟩
    have hneg : least < 0 := Int64.lt_of_le_of_lt (hleast.2 key hbound) hkey
    rw [table.writeText_eq hseparator, hallow, hpairs]
    exact notices_linesSteps_of_negative table.name separator hneg first rest sink

/-- **Otherwise nothing is reported.** -/
theorem Sound.notices_writeText_of_allowed (h : Sound table)
    (hseparator : options.outputSeparator? = some separator)
    (hallowed : options.allowNegative = true ∨ ∀ key, table.containsKey key = true → 0 ≤ key)
    (sink : Output.Sink) : (table.writeText options sink).notices = [] := by
  rw [table.writeText_eq hseparator]
  refine Output.notices_run_of_quiet (quiet_linesSteps _ _ ?_) sink
  refine hallowed.imp id fun hnonneg pair hmem => hnonneg pair.1 ?_
  exact h.containsKey_iff_mem_pairs.mpr ⟨pair.2, hmem⟩

end Table

/-- **Writing the text format with a limit.**  The text has one line for each binding, by key: the
    symbol, the first separator, the key and a line feed.  A buffer of any size holds as much of it
    as there is room for, whether or not negative keys are allowed, and the writing succeeds exactly
    if that is all of it.  Whatever the room, the least key is reported, and nothing else, if it is
    negative without leave, and otherwise nothing is.  Without separators nothing is written or
    reported. -/
theorem Reachable.limited_writing {hash : Hash} {table : Table hash} (h : Reachable table)
    (options : TextFormat.Options) :
    (options.separators = "" → ∀ limit,
      table.writeText options (.bounded limit) = pure ⟨[], some .missingSeparator⟩) ∧
    ∀ separator, options.separators.toList.head? = some separator →
      let text := table.pairs.flatMap fun pair =>
        Text.Utf8.encode (pair.2 ++ String.singleton separator ++ pair.1.render ++ "\n")
      table.pairs.Pairwise (fun first second => first.1 < second.1) ∧
      (∀ key symbol, (key, symbol) ∈ table.pairs ↔ table.find? key = some symbol) ∧
      (table.toText options).value = .ok text ∧
      ∀ limit,
        let writing := table.writeText options (.bounded limit)
        writing.value.written = text.take (min limit text.length) ∧
        writing.value.error = (if text.length ≤ limit then none else some (.stream .noRoom)) ∧
        (options.allowNegative = false → (∃ key < 0, table.containsKey key = true) →
          ∃ least, table.IsLeastKey least ∧
            writing.notices = [.negativeKey table.name least]) ∧
        (options.allowNegative = true ∨ (∀ key, table.containsKey key = true → 0 ≤ key) →
          writing.notices = []) := by
  have hsound := h.sound
  constructor
  · intro hnone limit
    have hseparator : options.outputSeparator? = none := by
      rw [TextFormat.Options.outputSeparator?, hnone]
      rfl
    rw [Table.writeText, Table.textSteps, hseparator]
    rfl
  · intro separator hseparator text
    have htext : TextFormat.linesOctets separator table.pairs = text :=
      TextFormat.linesOctets_eq separator table.pairs
    refine ⟨hsound.pairs_ascending, fun _ _ => hsound.mem_pairs_iff_find?,
      Table.toText_eq_ok_iff.mpr ⟨separator, hseparator, htext⟩, ?_⟩
    intro limit writing
    have hvalue : writing.value = _ := table.value_writeText_bounded hseparator limit
    rw [htext] at hvalue
    refine ⟨?_, ?_, ?_, ?_⟩
    · rw [hvalue, ← List.take_eq_take_min]
    · rw [hvalue]
    · rintro hallow ⟨key, hkey, hbound⟩
      obtain ⟨least, hleast, hnotices⟩ :=
        hsound.notices_writeText_of_negative hseparator hallow hkey hbound
      exact ⟨least, hleast, hnotices _⟩
    · exact fun hallowed => hsound.notices_writeText_of_allowed hseparator hallowed _

/-- Room that ends inside of a separator of two octets, and two negative keys without leave. -/
theorem limited_writing_of_character :
    let options : TextFormat.Options := ⟨false, "\u00e9:"⟩
    let table : Table (Hash.constant 0) := .ofBindings "mots" [("b", 4), ("", -2), ("a", -7)]
    let writing := table.writeText options (.bounded 2)
    Reachable table ∧ options.separators.toList.head? = some '\u00e9' ∧
      (∃ key < 0, table.containsKey key = true) ∧
      writing.value = ⟨[0x61, 0xc3], some (.stream .noRoom)⟩ ∧
      writing.notices = [.negativeKey "mots" (-7)] ∧
      Table.writeText table ⟨true, ""⟩ (.bounded 2) = pure ⟨[], some .missingSeparator⟩ := by
  intro options table writing
  have h : Reachable table := reachable_ofBindings ..
  have hkeys : table.ledger.keys = [4, -2, -7] := by rfl
  have hbindings : table.ledger.bindings = [("b", 4), ("", -2), ("a", -7)] := by rfl
  have hbound : table.containsKey (-7) = true := by
    rw [h.sound.containsKey_iff, hkeys]
    decide
  obtain ⟨-, hwriting⟩ := h.limited_writing options
  obtain ⟨-, -, -, hlimit⟩ := hwriting '\u00e9' (by decide)
  have hpairs : table.pairs = [(-7, "a"), (-2, ""), (4, "b")] :=
    h.sound.pairs_eq_of_perm (by rw [hbindings]; decide) (by decide)
  rw [hpairs] at hlimit
  obtain ⟨hwritten, herror, hreported, -⟩ := hlimit 2
  obtain ⟨least, ⟨hmem, hleast⟩, hnotices⟩ := hreported rfl ⟨-7, by decide, hbound⟩
  have hseven : least = -7 := by
    have hle := hleast (-7) hbound
    rw [h.sound.containsKey_iff, hkeys] at hmem
    simp only [List.mem_cons, List.not_mem_nil, or_false] at hmem
    rcases hmem with rfl | rfl | rfl
    · exact absurd hle (by decide)
    · exact absurd hle (by decide)
    · rfl
  rw [hseven] at hnotices
  have hvalue : writing.value = ⟨writing.value.written, writing.value.error⟩ := rfl
  refine ⟨h, by decide, ⟨-7, by decide, hbound⟩, ?_, hnotices, ?_⟩
  · rw [hvalue, hwritten, herror]
    decide
  · exact (h.limited_writing ⟨true, ""⟩).1 rfl 2

end Symtab
