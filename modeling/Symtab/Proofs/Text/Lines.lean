import Symtab.Text.Lines

/-!
# Cutting what was put together

Lines that were each ended by a line feed are cut apart again, and so are the two fields of a
line with one separator between them.  In the other direction, a field that was cut out of a line
is not empty and has no separator (`mem_fields`).
-/

set_option autoImplicit false

namespace Symtab.Text.Lines

variable {body rest : List UInt8} {isSeparator : Char → Bool} {symbol field line : String}

/-! ## Lines -/

theorem lines_nil : lines [] = [] := by
  rw [lines, List.splitOn_nil]
  rfl

theorem lines_append (h : lineFeed ∉ body) (rest : List UInt8) :
    lines (body ++ lineFeed :: rest) = chomp body :: lines rest := by
  rw [lines, List.splitOn_append_cons_self_of_not_mem h, lines]
  cases hpieces : rest.splitOn lineFeed with
  | nil => exact absurd hpieces (List.splitOn_ne_nil _ _)
  | cons piece pieces => rfl

theorem chomp_eq_self {front : List UInt8} (hne : body ≠ []) (h : carriageReturn ∉ body) :
    chomp (front ++ body) = front ++ body := by
  rw [chomp, if_neg]
  rw [List.getLast?_append, List.getLast?_eq_some_getLast hne, Option.some_or]
  intro hlast
  exact h (Option.some.inj hlast ▸ List.getLast_mem hne)

/-! ## Fields -/

theorem not_isSeparator_of_mem_splitOnP {chars piece : List Char}
    (hpiece : piece ∈ chars.splitOnP isSeparator) : ∀ c ∈ piece, isSeparator c = false := by
  induction chars generalizing piece with
  | nil =>
    rw [List.splitOnP_nil, List.mem_singleton] at hpiece
    subst hpiece
    exact fun c hc => absurd hc List.not_mem_nil
  | cons first chars ih =>
    rw [List.splitOnP_cons_eq_if_modifyHead] at hpiece
    split at hpiece
    next =>
      rcases List.mem_cons.mp hpiece with rfl | hpiece
      · exact fun c hc => absurd hc List.not_mem_nil
      · exact ih hpiece
    next hfirst =>
      -- the first piece of the rest is longer by a character that does not separate
      obtain ⟨head, pieces, hpieces⟩ :=
        List.exists_cons_of_ne_nil (List.splitOnP_ne_nil isSeparator chars)
      rw [hpieces] at ih
      rw [hpieces, List.modifyHead_cons] at hpiece
      rcases List.mem_cons.mp hpiece with rfl | hpiece
      · intro c hc
        rcases List.mem_cons.mp hc with rfl | hc
        · exact Bool.eq_false_iff.mpr hfirst
        · exact ih List.mem_cons_self c hc
      · exact ih (List.mem_cons_of_mem _ hpiece)

/-- **What is cut out of a line** is not empty and has no separator. -/
theorem mem_fields (h : field ∈ fields isSeparator line) :
    field ≠ "" ∧ ∀ c ∈ field.toList, isSeparator c = false := by
  obtain ⟨piece, hpiece, rfl⟩ := List.mem_map.mp h
  obtain ⟨hpiece, hne⟩ := List.mem_filter.mp hpiece
  refine ⟨?_, ?_⟩
  · rintro heq
    rw [← String.toList_eq_nil_iff, String.toList_ofList] at heq
    simp [heq] at hne
  · rw [String.toList_ofList]
    exact not_isSeparator_of_mem_splitOnP hpiece

/-- **Two fields with one separator between them** are cut apart. -/
theorem fields_pair {separator : Char} (hseparator : isSeparator separator = true)
    (hsymbol : symbol ≠ "") (hsymbol' : ∀ c ∈ symbol.toList, isSeparator c = false)
    (hfield : field ≠ "") (hfield' : ∀ c ∈ field.toList, isSeparator c = false) :
    fields isSeparator (symbol ++ String.singleton separator ++ field) = [symbol, field] := by
  have hpieces : (symbol ++ String.singleton separator ++ field).toList.splitOnP isSeparator =
      [symbol.toList, field.toList] := by
    rw [String.toList_append, String.toList_append, String.toList_singleton, List.append_assoc,
      List.singleton_append, List.splitOnP_append_cons_of_forall_mem hsymbol' _ hseparator,
      List.splitOnP_eq_singleton hfield']
  rw [fields, hpieces]
  simp [hsymbol, hfield]

end Symtab.Text.Lines
