import Symtab.Proofs.Text.Lines

/-!
# How a text is cut, said without cutting it

Octets are cut behind their line feeds, and a line into its longest runs of characters that do
not separate.  `Cut` and `Runs` say of given pieces that they are these; they go through the text
from the front and name no function that does the cutting.

Main statements: `lines_eq_iff` and `fields_eq_iff`, by which the functions find the pieces that
are meant, and there are no others.
-/

set_option autoImplicit false

namespace Symtab.Text.Lines

variable {octets : List UInt8} {cut : List (List UInt8)} {isSeparator : Char → Bool}
  {chars : List Char} {runs : List (List Char)}

/-! ## Lines -/

/-- Octets are cut into these lines.  A carriage return directly before a line feed is no part of
    a line, any other one is. -/
inductive Cut : List UInt8 → List (List UInt8) → Prop where
  | nil : Cut [] []
  /-- What is behind the last line feed is a line if it is anything. -/
  | last {line : List UInt8} (hne : line ≠ []) (h : lineFeed ∉ line) : Cut line [line]
  | feed {line rest : List UInt8} {lines : List (List UInt8)} (h : lineFeed ∉ line)
      (hend : line.getLast? ≠ some carriageReturn) (hrest : Cut rest lines) :
      Cut (line ++ lineFeed :: rest) (line :: lines)
  | returnAndFeed {line rest : List UInt8} {lines : List (List UInt8)} (h : lineFeed ∉ line)
      (hrest : Cut rest lines) :
      Cut (line ++ carriageReturn :: lineFeed :: rest) (line :: lines)

theorem lines_of_not_mem (hne : octets ≠ []) (h : lineFeed ∉ octets) :
    lines octets = [octets] := by
  have hsplit : octets.splitOn lineFeed = [octets] := by
    refine List.splitOnP_eq_singleton fun octet hmem => ?_
    rw [beq_eq_false_iff_ne]
    exact fun heq => h (heq ▸ hmem)
  rw [lines, hsplit, ofPieces, if_neg (by simpa using hne)]

theorem Cut.lines_eq (h : Cut octets cut) : lines octets = cut := by
  induction h with
  | nil => exact lines_nil
  | last hne h => exact lines_of_not_mem hne h
  | feed h hend _ ih => rw [lines_append h, ih, chomp, if_neg hend]
  | @returnAndFeed line rest _ h _ ih =>
    have hfree : lineFeed ∉ line ++ [carriageReturn] := by
      rw [List.mem_append, List.mem_singleton, not_or]
      exact ⟨h, by decide⟩
    have hjoin : line ++ carriageReturn :: lineFeed :: rest =
        (line ++ [carriageReturn]) ++ lineFeed :: rest := by simp
    rw [hjoin, lines_append hfree, ih, chomp, if_pos List.getLast?_concat, List.dropLast_concat]

/-- Whatever the octets are, they are cut somehow. -/
theorem exists_cut (octets : List UInt8) : ∃ cut, Cut octets cut := by
  induction hlength : octets.length using Nat.strongRecOn generalizing octets with
  | ind length ih =>
    by_cases hmem : lineFeed ∈ octets
    · obtain ⟨line, rest, rfl, hfree⟩ := List.eq_append_cons_of_mem hmem
      have hshorter : rest.length < length := by
        rw [← hlength, List.length_append, List.length_cons]
        omega
      obtain ⟨cut, hrest⟩ := ih rest.length hshorter rest rfl
      by_cases hend : line.getLast? = some carriageReturn
      · obtain ⟨front, rfl⟩ := List.getLast?_eq_some_iff.mp hend
        refine ⟨front :: cut, ?_⟩
        rw [List.append_assoc]
        exact .returnAndFeed (fun hfront => hfree (List.mem_append_left _ hfront)) hrest
      · exact ⟨line :: cut, .feed hfree hend hrest⟩
    · by_cases hne : octets = []
      · subst hne
        exact ⟨[], .nil⟩
      · exact ⟨[octets], .last hne hmem⟩

/-- **The lines of octets** are what they are cut into. -/
theorem lines_eq_iff : lines octets = cut ↔ Cut octets cut := by
  constructor
  · rintro rfl
    obtain ⟨cut, hcut⟩ := exists_cut octets
    rwa [hcut.lines_eq]
  · exact Cut.lines_eq

/-! ## Fields -/

/-- The longest runs of characters that do not separate, in order. -/
inductive Runs (isSeparator : Char → Bool) : List Char → List (List Char) → Prop where
  | nil : Runs isSeparator [] []
  | separator {c : Char} {rest : List Char} {runs : List (List Char)}
      (hc : isSeparator c = true) (h : Runs isSeparator rest runs) :
      Runs isSeparator (c :: rest) runs
  | run {run rest : List Char} {runs : List (List Char)} (hne : run ≠ [])
      (hrun : ∀ c ∈ run, isSeparator c = false)
      (hend : ∀ c ∈ rest.head?, isSeparator c = true) (h : Runs isSeparator rest runs) :
      Runs isSeparator (run ++ rest) (run :: runs)

/-- The pieces between separators that are not empty. -/
def pieces (isSeparator : Char → Bool) (chars : List Char) : List (List Char) :=
  (chars.splitOnP isSeparator).filter fun piece => !piece.isEmpty

theorem pieces_separator {c : Char} (hc : isSeparator c = true) (rest : List Char) :
    pieces isSeparator (c :: rest) = pieces isSeparator rest := by
  rw [pieces, List.splitOnP_cons_eq_if_modifyHead, if_pos hc]
  rfl

theorem Runs.pieces_eq (h : Runs isSeparator chars runs) : pieces isSeparator chars = runs := by
  induction h with
  | nil => rfl
  | separator hc _ ih => rw [pieces_separator hc, ih]
  | @run run rest runs hne hrun hend _ ih =>
    cases rest with
    | nil =>
      rw [← ih, List.append_nil, pieces, List.splitOnP_eq_singleton hrun]
      simp [pieces, hne]
    | cons c rest =>
      have hc := hend c rfl
      rw [pieces_separator hc] at ih
      rw [pieces, List.splitOnP_append_cons_of_forall_mem hrun c hc, ← ih,
        List.filter_cons_of_pos (by simpa using hne), pieces]

/-- Whatever the characters are, they have such runs. -/
theorem exists_runs (isSeparator : Char → Bool) (chars : List Char) :
    ∃ runs, Runs isSeparator chars runs := by
  induction hlength : chars.length using Nat.strongRecOn generalizing chars with
  | ind length ih =>
    cases chars with
    | nil => exact ⟨[], .nil⟩
    | cons c rest =>
      rw [List.length_cons] at hlength
      by_cases hc : isSeparator c = true
      · obtain ⟨runs, hruns⟩ := ih rest.length (by omega) rest rfl
        exact ⟨runs, .separator hc hruns⟩
      · -- the run goes on to the first separator behind the character
        let run := c :: rest.takeWhile fun other => !isSeparator other
        let behind := rest.dropWhile fun other => !isSeparator other
        have hbehind : behind.length < length := by
          have := (List.dropWhile_sublist (fun other => !isSeparator other) (l := rest)).length_le
          show (rest.dropWhile _).length < length
          omega
        obtain ⟨runs, hruns⟩ := ih behind.length hbehind behind rfl
        have hjoin : c :: rest = run ++ behind := by
          show c :: rest = c :: (rest.takeWhile _ ++ rest.dropWhile _)
          rw [List.takeWhile_append_dropWhile]
        refine ⟨run :: runs, hjoin ▸ .run (List.cons_ne_nil _ _) ?_ ?_ hruns⟩
        · intro other hmem
          rcases List.mem_cons.mp hmem with rfl | hmem
          · exact Bool.eq_false_iff.mpr hc
          · simpa using List.all_eq_true.mp List.all_takeWhile other hmem
        · intro other hother
          have hfirst := List.head?_dropWhile_not (fun other => !isSeparator other) rest
          rw [Option.mem_def.mp hother] at hfirst
          simpa using hfirst

theorem pieces_eq_iff : pieces isSeparator chars = runs ↔ Runs isSeparator chars runs := by
  constructor
  · rintro rfl
    obtain ⟨runs, hruns⟩ := exists_runs isSeparator chars
    rwa [hruns.pieces_eq]
  · exact Runs.pieces_eq

/-- **The fields of a line** are its longest runs of characters that do not separate. -/
theorem fields_eq_iff {line : String} {found : List String} :
    fields isSeparator line = found ↔
      Runs isSeparator line.toList (found.map String.toList) := by
  have hfields : fields isSeparator line = (pieces isSeparator line.toList).map String.ofList := rfl
  rw [← pieces_eq_iff, hfields]
  constructor
  · rintro rfl
    have hinverse : String.toList ∘ String.ofList = id := funext fun _ => String.toList_ofList
    rw [List.map_map, hinverse, List.map_id]
  · intro h
    have hinverse : String.ofList ∘ String.toList = id := funext fun _ => String.ofList_toList
    rw [h, List.map_map, hinverse, List.map_id]

end Symtab.Text.Lines
