import Symtab.Binary.Reader
import Symtab.Proofs.Table.Soundness

/-!
# Tables that were read from octets

Replaying records starts from a table without bindings, whose available key is that of the
header, and adds each record as `Table.addWithKey` does.  So whatever the octets are, what
adding keeps holds of the table that is read in the end (`keeps_readBinary`); in particular it
is sound.
-/

set_option autoImplicit false

namespace Symtab

namespace Binary.Replay

variable {hash : Hash} {replay next : Replay hash} {symbol : String} {key : Key}
  {rest : List UInt8}

theorem sound_start (header : Reader.Header) (rest : List UInt8) :
    (start header rest : Replay hash).table.Sound where
  index := Index.sound_empty
  keys := (KeyMap.sound_empty.withAvailable header.available).1
  length_eq := rfl
  reserved := List.not_mem_nil
  cache := by
    intro sums hsums
    cases hsums

/-- What replaying a record comes to. -/
theorem value_add (replay : Replay hash) (symbol : String) (key : Key) (rest : List UInt8) :
    (replay.add symbol key rest).value =
      if (replay.table.addWithKey symbol key).value.1 = Key.noSymbol then
        .error (.duplicateKey replay.table.name symbol key)
      else
        .ok ⟨(replay.table.addWithKey symbol key).value.2, rest, replay.completed + 1⟩ := by
  unfold add
  rw [Logged.value_bind]
  obtain ⟨added, table⟩ := (replay.table.addWithKey symbol key).value
  simp only
  split <;> rfl

theorem add_eq_ok (h : (replay.add symbol key rest).value = .ok next) :
    (replay.table.addWithKey symbol key).value.1 ≠ Key.noSymbol ∧
      next = ⟨(replay.table.addWithKey symbol key).value.2, rest, replay.completed + 1⟩ := by
  rw [value_add] at h
  split at h
  · cases h
  next hadded => exact ⟨hadded, (Except.ok.inj h).symm⟩

theorem keeps_step {P : Table hash → Prop}
    (hadd : ∀ table symbol key, P table → P (table.addWithKey symbol key).value.2)
    (h : P replay.table) (hstep : replay.step.value = .ok next) : P next.table := by
  unfold step at hstep
  cases hrecord : Reader.record replay.rest with
  | error error =>
    rw [hrecord] at hstep
    cases hstep
  | ok read =>
    obtain ⟨⟨symbol, key⟩, rest⟩ := read
    rw [hrecord] at hstep
    obtain ⟨-, rfl⟩ := add_eq_ok hstep
    exact hadd _ symbol key h

/-- What comes of one more record. -/
theorem value_run_succ (count : Nat) (replay : Replay hash) :
    (run (count + 1) replay).value =
      match replay.step.value with
      | .error error => (replay, some error)
      | .ok next => (run count next).value := by
  rw [run, Logged.value_bind]
  cases replay.step.value with
  | error error => rfl
  | ok next => rfl

/-- **What adding under a key keeps, replaying keeps**, whether or not it comes to the end. -/
theorem keeps_run {P : Table hash → Prop}
    (hadd : ∀ table symbol key, P table → P (table.addWithKey symbol key).value.2)
    (h : P replay.table) (count : Nat) : P (run count replay).value.1.table := by
  induction count generalizing replay with
  | zero => exact h
  | succ count ih =>
    rw [value_run_succ]
    cases hstep : replay.step.value with
    | error error => exact h
    | ok next => exact ih (keeps_step hadd h hstep)

end Binary.Replay

namespace Table

variable {hash : Hash} {table : Table hash} {octets rest : List UInt8}

open Binary

/-- What reading comes to once the header is read. -/
theorem value_readBinary {header : Reader.Header} (h : Reader.header octets = .ok (header, rest)) :
    (readBinary octets : Logged (Except Error (Table hash × List UInt8))).value =
      match (Replay.run header.count (.start header rest) : Logged (Replay hash × _)).value with
      | (_, some error) => .error error
      | (replay, none) => .ok (replay.table.shrink, replay.rest) := by
  unfold readBinary
  rw [h]
  simp only [Logged.value_bind]
  obtain ⟨replay, error⟩ :=
    (Replay.run header.count (.start header rest) : Logged (Replay hash × _)).value
  cases error with
  | none => rfl
  | some error => rfl

/-- What tables without bindings have, and adding under a key keeps, every table has that can be
    read. -/
theorem keeps_readBinary {P : Table hash → Prop}
    (hstart : ∀ header rest, P (Replay.start header rest : Replay hash).table)
    (hadd : ∀ table symbol key, P table → P (table.addWithKey symbol key).value.2)
    (h : (readBinary octets).value = .ok (table, rest)) : P table := by
  cases hheader : Reader.header octets with
  | error error =>
    rw [readBinary, hheader] at h
    cases h
  | ok read =>
    obtain ⟨header, behind⟩ := read
    rw [value_readBinary hheader] at h
    have hkept := Replay.keeps_run hadd (hstart header behind) header.count
    split at h
    · cases h
    next replay hrun =>
      rw [hrun] at hkept
      obtain ⟨rfl, -⟩ := Prod.mk.inj (Except.ok.inj h)
      exact hkept

theorem ofBytes_eq_ok_iff :
    (ofBytes octets).value = .ok table ↔ ∃ rest, (readBinary octets).value = .ok (table, rest) := by
  rw [ofBytes, Logged.value_bind, Logged.value_pure]
  cases (readBinary octets : Logged (Except Error (Table hash × List UInt8))).value with
  | error error => simp [Except.map]
  | ok read => simp [Except.map, Prod.ext_iff]

theorem ofBytes_eq_error_iff {error : Error} :
    (ofBytes octets : Logged (Except Error (Table hash))).value = .error error ↔
      (readBinary octets : Logged (Except Error (Table hash × List UInt8))).value =
        .error error := by
  rw [ofBytes, Logged.value_bind, Logged.value_pure]
  cases (readBinary octets : Logged (Except Error (Table hash × List UInt8))).value with
  | error error => simp [Except.map]
  | ok read => simp [Except.map]

/-- **Every table that can be read is sound.** -/
theorem sound_readBinary (h : (readBinary octets).value = .ok (table, rest)) : table.Sound :=
  keeps_readBinary Replay.sound_start (fun _ symbol key h => (h.addWithKey symbol key).1) h

end Table
end Symtab
