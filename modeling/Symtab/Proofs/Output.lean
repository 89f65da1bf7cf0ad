import Symtab.Output

/-!
# What an output leaves

A sink without a limit takes every piece, so what an output writes to it, and how it ends, can
be read off the steps alone.  A sink with a limit takes a front part of the same octets, wherever
the pieces are cut (`value_run_bounded`).  What is reported on the way depends on the room only
behind the first octet (`notices_run_note`).
-/

set_option autoImplicit false

namespace Symtab.Output

def Step.octets : Step → List UInt8
  | .put piece => piece
  | .note _ => []
  | .fail _ => []

/-- The error that a step ends the output with. -/
def Step.error? : Step → Option Error
  | .put _ => none
  | .note _ => none
  | .fail error => some error

theorem error_run (steps : List Step) (written : Array UInt8) :
    (run steps ⟨written, none⟩).value.error = steps.findSome? Step.error? := by
  induction steps generalizing written with
  | nil => rfl
  | cons step rest ih =>
    cases step with
    | put piece => exact ih (written ++ piece)
    | note notice => exact ih written
    | fail error => rfl

theorem written_run {steps : List Step} (h : steps.findSome? Step.error? = none)
    (written : Array UInt8) :
    (run steps ⟨written, none⟩).value.written = written.toList ++ steps.flatMap Step.octets := by
  induction steps generalizing written with
  | nil => simp [run]
  | cons step rest ih =>
    cases step with
    | put piece =>
      show (run rest ⟨written ++ piece, none⟩).value.written = _
      rw [ih h]
      simp [Step.octets]
    | note notice => exact ih h written
    | fail error => cases h

/-- No step ends the output. -/
def Completes (steps : List Step) : Prop := ∀ step ∈ steps, step.error? = none

@[simp] theorem completes_nil : Completes [] := fun _ hmem => absurd hmem List.not_mem_nil

@[simp] theorem completes_put {piece : List UInt8} {steps : List Step} :
    Completes (.put piece :: steps) ↔ Completes steps := by
  simp [Completes, Step.error?]

@[simp] theorem not_completes_fail {error : Error} {steps : List Step} :
    ¬Completes (.fail error :: steps) := by
  simp [Completes, Step.error?]

@[simp] theorem completes_append {front back : List Step} :
    Completes (front ++ back) ↔ Completes front ∧ Completes back :=
  List.forall_mem_append

@[simp] theorem completes_flatMap {α : Type} {list : List α} {f : α → List Step} :
    Completes (list.flatMap f) ↔ ∀ item ∈ list, Completes (f item) := by
  simp only [Completes, List.mem_flatMap]
  constructor
  · intro h item hitem step hstep
    exact h step ⟨item, hitem, hstep⟩
  · intro h step hmem
    obtain ⟨item, hitem, hstep⟩ := hmem
    exact h item hitem step hstep

/-- **An output is complete** when no step ends it, and is then what the steps write. -/
theorem complete_eq_ok_iff {steps : List Step} {octets : List UInt8} :
    (run steps .unbounded).value.complete = .ok octets ↔
      Completes steps ∧ steps.flatMap Step.octets = octets := by
  rw [Completes, ← List.findSome?_eq_none_iff, Outcome.complete, Sink.unbounded, error_run]
  cases herror : steps.findSome? Step.error? with
  | none => simp [written_run herror]
  | some error => simp

/-! ## Output with a limit -/

/-- A piece is taken as far as there is room. -/
theorem value_run_put (piece : List UInt8) (steps : List Step) (written : Array UInt8)
    (room : Nat) :
    (run (.put piece :: steps) ⟨written, some room⟩).value =
      if piece.length ≤ room then
        (run steps ⟨written ++ piece, some (room - piece.length)⟩).value
      else
        ⟨written.toList ++ piece.take room, some (.stream .noRoom)⟩ := by
  rw [run, Sink.put]
  by_cases h : piece.length ≤ room
  · simp only [h, if_true, decide_true, List.take_of_length_le h]
  · simp only [h, if_false, decide_false, Logged.value_pure, Array.toList_appendList]

/-- **A sink with a limit** holds as much of an output as there is room for, and the output ends
    well exactly if that is all of it. -/
theorem value_run_bounded {steps : List Step} (h : Completes steps) (written : Array UInt8)
    (room : Nat) :
    (run steps ⟨written, some room⟩).value =
      ⟨written.toList ++ (steps.flatMap Step.octets).take room,
        if (steps.flatMap Step.octets).length ≤ room then none
        else some (.stream .noRoom)⟩ := by
  induction steps generalizing written room with
  | nil => simp [run]
  | cons step rest ih =>
    cases step with
    | put piece =>
      rw [value_run_put, List.flatMap_cons, Step.octets, List.length_append, List.take_append]
      by_cases hfits : piece.length ≤ room
      · have hrest : piece.length + (rest.flatMap Step.octets).length ≤ room ↔
            (rest.flatMap Step.octets).length ≤ room - piece.length := by omega
        simp only [if_pos hfits, ih (completes_put.mp h), List.take_of_length_le hfits, hrest,
          Array.toList_appendList, List.append_assoc]
      · have hlong : ¬piece.length + (rest.flatMap Step.octets).length ≤ room := by omega
        rw [if_neg hfits, if_neg hlong, Nat.sub_eq_zero_of_le (Nat.le_of_not_le hfits),
          List.take_zero, List.append_nil]
    | note notice =>
      have hrest : Completes rest := fun later hlater => h later (List.mem_cons_of_mem _ hlater)
      exact ih hrest written room
    | fail error => exact absurd h not_completes_fail

/-! ## Reports -/

/-- No step reports anything. -/
def Quiet (steps : List Step) : Prop := ∀ notice, Step.note notice ∉ steps

@[simp] theorem quiet_nil : Quiet [] := fun _ => List.not_mem_nil

@[simp] theorem quiet_put {piece : List UInt8} {steps : List Step} :
    Quiet (.put piece :: steps) ↔ Quiet steps := by
  simp [Quiet]

@[simp] theorem not_quiet_note {notice : Notice} {steps : List Step} :
    ¬Quiet (.note notice :: steps) := fun h => h notice List.mem_cons_self

@[simp] theorem quiet_append {front back : List Step} :
    Quiet (front ++ back) ↔ Quiet front ∧ Quiet back := by
  simp [Quiet, forall_and]

theorem notices_run_of_quiet {steps : List Step} (h : Quiet steps) (sink : Sink) :
    (run steps sink).notices = [] := by
  induction steps generalizing sink with
  | nil => rfl
  | cons step rest ih =>
    cases step with
    | put piece =>
      rw [run]
      split
      · exact ih (quiet_put.mp h) _
      · rfl
    | note notice => exact absurd h not_quiet_note
    | fail error => rfl

/-- What is reported before any octet is reported whatever room there is. -/
theorem notices_run_note {steps : List Step} (h : Quiet steps) (notice : Notice) (sink : Sink) :
    (run (.note notice :: steps) sink).notices = [notice] := by
  rw [run, Logged.notices_bind, Logged.notices_note, notices_run_of_quiet h]
  rfl

end Symtab.Output
