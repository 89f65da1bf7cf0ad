import Symtab.Proofs.Binary.Parsing

/-!
# What reading takes

Octets say how long their strings are and how many records there are, and need not tell the truth.
Reading stops at the end of the octets, whatever they say, so what it takes is bounded by what
there is: a string holds no more octets than are left (`Reader.StringBounded`), and each record
that is completed takes at least twelve of them, the length of its symbol and its key, even if the
symbol is empty or is there already and the table does not grow.

`Replay.entered` lists how the replay stands each time the next record is begun.  From one time to
the next is a step (`Replay.step_after`), and what holds of one step adds up over the others.

Main statement: `Table.reading_bounded`.
-/

set_option autoImplicit false

namespace Symtab

variable {hash : Hash}

/-- A table has one symbol more at most when one was added. -/
theorem Table.Sound.size_addWithKey_le {table : Table hash} (h : table.Sound) (symbol : String)
    (key : Key) : (table.addWithKey symbol key).value.2.size ≤ table.size + 1 := by
  obtain ⟨hsound, -, hledger⟩ := h.addWithKey symbol key
  rw [hsound.size_eq, h.size_eq, hledger]
  rcases table.ledger.addWithKey_cases symbol key with heq | ⟨-, heq⟩
  · rw [heq]
    exact Nat.le_succ _
  · rw [heq, Ledger.append, List.length_append, List.length_singleton]

namespace Binary

/-! ## Strings -/

namespace Reader

/-- What reading a string holds: of the octets behind the length as many as it says, or as many as
    there are.  `StringBounded.answer` ties these octets to what reading answers.  They are what is
    taken in; of room that may be set aside for them beforehand nothing is said. -/
def held (octets : List UInt8) : List UInt8 :=
  match int32 octets with
  | .error _ => []
  | .ok (length, behind) => behind.take length.toInt.toNat

/-- Reading a string holds no more octets than are left behind its length, and what is held decides
    what is answered. -/
structure StringBounded (octets : List UInt8) : Prop where
  bounded : (held octets).length ≤ octets.length - 4
  answer : ∀ length behind, int32 octets = .ok (length, behind) → 0 ≤ length →
    string octets =
      if (held octets).length < length.toInt.toNat then .error (.stream .cutInString)
      else decoded (held octets) (behind.drop length.toInt.toNat)

/-- **A string takes no more than there is**, however long it says it is. -/
theorem stringBounded (octets : List UInt8) : StringBounded octets where
  bounded := by
    unfold held
    split
    · exact Nat.zero_le _
    next length behind hlength =>
      rw [int32_eq_ok_iff.mp hlength, List.length_append, Word.octets32, Word.length_octets,
        List.length_take]
      omega
  answer := by
    intro length behind hlength hnonneg
    have hheld : held octets = behind.take length.toInt.toNat := by rw [held, hlength]
    rw [hheld, string_eq, bind_of_ok hlength, if_neg (Int32.not_lt.mpr hnonneg), List.length_take]
    split
    next hcut => exact bind_eq_error_of_first (take_eq_error_iff.mpr ⟨by omega, rfl⟩)
    next hthere =>
      refine bind_of_ok (take_eq_ok_iff.mpr ⟨?_, (List.take_append_drop ..).symm⟩)
      rw [List.length_take]
      omega

end Reader

/-! ## Records -/

namespace Replay

variable {replay next later : Replay hash} {first second turns count : Nat}

/-- How a replay stands after so many records: each took twelve octets at least, and added one
    symbol at most. -/
structure After (replay later : Replay hash) (turns : Nat) : Prop where
  sound : later.table.Sound
  completed : later.completed = replay.completed + turns
  size_le : later.table.size ≤ replay.table.size + turns
  rest_le : later.rest.length + 12 * turns ≤ replay.rest.length

theorem after_zero (h : replay.table.Sound) : After replay replay 0 :=
  ⟨h, rfl, Nat.le_refl _, Nat.le_refl _⟩

theorem After.trans (h : After replay next first) (hlater : After next later second) :
    After replay later (first + second) where
  sound := hlater.sound
  completed := by rw [hlater.completed, h.completed, Nat.add_assoc]
  size_le := by
    have := h.size_le
    have := hlater.size_le
    omega
  rest_le := by
    have := h.rest_le
    have := hlater.rest_le
    omega

/-- The table of a header is empty, and no record is completed. -/
theorem After.of_start {header : Reader.Header} {rest : List UInt8}
    (h : After (start header rest) later turns) :
    later.completed = turns ∧ later.table.size ≤ later.completed := by
  have hcompleted : later.completed = 0 + turns := h.completed
  have hsize : later.table.size ≤ 0 + turns := h.size_le
  omega

/-- **A record that is completed** takes the length of its symbol and its key, and its symbol. -/
theorem step_after (h : replay.table.Sound) (hstep : replay.step.value = .ok next) :
    After replay next 1 := by
  have hsound := keeps_step (P := Table.Sound)
    (fun table symbol key h => (h.addWithKey symbol key).1) h hstep
  unfold step at hstep
  cases hrecord : Reader.record replay.rest with
  | error error =>
    rw [hrecord] at hstep
    cases hstep
  | ok read =>
    obtain ⟨binding, rest⟩ := read
    rw [hrecord] at hstep
    obtain ⟨-, rfl⟩ := add_eq_ok hstep
    refine ⟨hsound, rfl, h.size_addWithKey_le _ _, ?_⟩
    obtain ⟨-, -, hoctets⟩ := Reader.record_eq_ok_iff.mp hrecord
    rw [hoctets, List.length_append, bindingOctets, List.length_append, stringOctets,
      List.length_append, Word.octets32, Word.length_octets, Word.octets64, Word.length_octets]
    simp only
    omega

/-- How the replay of so many records stands whenever it begins one. -/
def entered : Nat → Replay hash → List (Replay hash)
  | 0, _ => []
  | count + 1, replay =>
    replay :: match replay.step.value with
      | .error _ => []
      | .ok next => entered count next

/-- The record that is begun is behind those that were completed. -/
theorem after_of_entered (h : replay.table.Sound)
    (hat : (entered count replay)[turns]? = some later) : After replay later turns := by
  induction count generalizing replay turns with
  | zero => cases hat
  | succ count ih =>
    rw [entered] at hat
    cases turns with
    | zero =>
      obtain rfl := Option.some.inj hat
      exact after_zero h
    | succ turns =>
      rw [List.getElem?_cons_succ] at hat
      cases hstep : replay.step.value with
      | error error =>
        rw [hstep] at hat
        cases hat
      | ok next =>
        rw [hstep] at hat
        have hnext := step_after h hstep
        rw [Nat.add_comm]
        exact hnext.trans (ih hnext.sound hat)

/-- The loop is entered for each record that is completed, and once more for one that fails. -/
theorem run_after (h : replay.table.Sound) (count : Nat) :
    ∃ turns, After replay (run count replay).value.1 turns ∧
      (entered count replay).length =
        turns + if (run count replay).value.2.isSome then 1 else 0 := by
  induction count generalizing replay with
  | zero => exact ⟨0, after_zero h, rfl⟩
  | succ count ih =>
    rw [value_run_succ, entered]
    cases hstep : replay.step.value with
    | error error => exact ⟨0, after_zero h, rfl⟩
    | ok next =>
      have hnext := step_after h hstep
      obtain ⟨turns, hafter, hlength⟩ := ih hnext.sound
      refine ⟨1 + turns, hnext.trans hafter, ?_⟩
      show (entered count next).length + 1 =
        1 + turns + if (run count next).value.2.isSome then 1 else 0
      omega

/-- **Records are begun no more often than the octets allow**, however many there should be. -/
theorem length_entered_le (h : replay.table.Sound) (count : Nat) :
    (entered count replay).length ≤ 1 + replay.rest.length / 12 := by
  cases hlength : (entered count replay).length with
  | zero => exact Nat.zero_le _
  | succ turns =>
    obtain ⟨last, hlast⟩ : ∃ last, (entered count replay)[turns]? = some last :=
      ⟨_, List.getElem?_eq_getElem (by omega)⟩
    have hrest := (after_of_entered h hlast).rest_le
    omega

end Replay
end Binary

namespace Table

open Binary

/-- **What reading takes is bounded by the octets that there are**, whatever they say.  Neither the
    name nor a symbol holds more octets than are left.  However many records there should be, one
    is begun for every twelve octets behind the header at most, and one more: as many as are
    completed, and one more if one fails.  Each that is completed takes twelve octets at least, and
    the table never has more symbols than there were such records; where the records end, or one
    fails, reading ends. -/
theorem reading_bounded (hash : Hash) (octets : List UInt8) :
    Reader.StringBounded (octets.drop 4) ∧
      ∀ header rest, Reader.header octets = .ok (header, rest) →
        let start : Replay hash := .start header rest
        let entered := start.entered header.count
        let outcome := (Replay.run header.count start).value
        entered.length ≤ 1 + rest.length / 12 ∧
          entered.length = outcome.1.completed + (if outcome.2.isSome then 1 else 0) ∧
          (∀ turn replay, entered[turn]? = some replay →
            replay.completed = turn ∧ replay.table.size ≤ replay.completed ∧
              Reader.StringBounded replay.rest ∧
              ∀ next, replay.step.value = .ok next →
                next.completed = turn + 1 ∧ next.table.size ≤ next.completed ∧
                  next.rest.length + 12 ≤ replay.rest.length) ∧
          outcome.1.table.size ≤ outcome.1.completed ∧
          (readBinary octets).value =
            match outcome with
            | (_, some error) => .error error
            | (replay, none) => .ok (replay.table.shrink, replay.rest) := by
  refine ⟨Reader.stringBounded _, ?_⟩
  intro header rest hheader start entered outcome
  have hsound : start.table.Sound := Replay.sound_start header rest
  obtain ⟨turns, hrun, hlength⟩ := Replay.run_after hsound header.count
  obtain ⟨hcompleted, hsize⟩ := hrun.of_start
  refine ⟨Replay.length_entered_le hsound header.count, ?_, ?_, hsize, value_readBinary hheader⟩
  · rw [← hcompleted] at hlength
    exact hlength
  · intro turn replay hat
    have hreplay := Replay.after_of_entered hsound hat
    obtain ⟨hcompleted, hsize⟩ := hreplay.of_start
    refine ⟨hcompleted, hsize, Reader.stringBounded _, ?_⟩
    intro next hstep
    have hnext := Replay.step_after hreplay.sound hstep
    obtain ⟨hcompleted', hsize'⟩ := (hreplay.trans hnext).of_start
    exact ⟨hcompleted', hsize', hnext.rest_le⟩

/-- Octets that promise as many records as can be promised, of which the second adds nothing and
    the third has a symbol of which there is one octet. -/
theorem reading_bounded_of_promises :
    let rest := bindingOctets ("a", 0) ++ bindingOctets ("a", 5) ++
      (Word.octets32 (Int32.ofNat maxStringLength) ++ [97])
    let header : Reader.Header := ⟨"words", 0, 2 ^ 63 - 1⟩
    let octets := Reader.headerOctets "words" 0 (Int64.ofNat (2 ^ 63 - 1)) ++ rest
    let start : Replay (Hash.constant 0) := .start header rest
    Reader.header octets = .ok (header, rest) ∧ rest.length = 31 ∧
      (start.entered header.count).length ≤ 3 ∧
      (Replay.run header.count start).value.1.table.size ≤
        (Replay.run header.count start).value.1.completed := by
  intro rest header octets start
  have hheader : Reader.header octets = .ok (header, rest) :=
    Reader.header_headerOctets (by decide) 0 (by decide) rest
  have hlength : rest.length = 31 := by decide
  obtain ⟨hentered, -, -, hsize, -⟩ :=
    (reading_bounded (Hash.constant 0) octets).2 header rest hheader
  have hstart : .start header rest = start := rfl
  rw [hlength] at hentered
  rw [hstart] at hsize
  exact ⟨hheader, hlength, hentered, hsize⟩

end Table
end Symtab
