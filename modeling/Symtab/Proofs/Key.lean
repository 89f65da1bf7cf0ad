import Mathlib.Algebra.Group.Nat.Defs
import Symtab.Key

/-!
# Keys as numbers

The keys from zero on are the positions below 2^63, in the same order, and every key is told by
its decimal text.  Other texts denote keys, too: which ones is said by `Text.Decimal.Denotes`.
The other half of this file is what becomes of the available key when a key is added or removed.
-/

set_option autoImplicit false

namespace Symtab

namespace Text.Decimal

/-- What a text denotes: digits, at least one, with a sign in front or without one. -/
inductive Denotes : List Char → Int → Prop where
  | unsigned {digits : List Char} (hne : digits ≠ []) (h : ∀ c ∈ digits, c.isDigit = true) :
      Denotes digits (Nat.ofDigitChars 10 digits 0)
  | plus {digits : List Char} (hne : digits ≠ []) (h : ∀ c ∈ digits, c.isDigit = true) :
      Denotes ('+' :: digits) (Nat.ofDigitChars 10 digits 0)
  | minus {digits : List Char} (hne : digits ≠ []) (h : ∀ c ∈ digits, c.isDigit = true) :
      Denotes ('-' :: digits) (-(Nat.ofDigitChars 10 digits 0 : Int))

variable {digits : List Char} {number : Int}

theorem ofDigits?_eq_some_iff {n : Nat} :
    ofDigits? digits = some n ↔
      (digits ≠ [] ∧ ∀ c ∈ digits, c.isDigit = true) ∧ Nat.ofDigitChars 10 digits 0 = n := by
  rw [ofDigits?, Option.ite_none_right_eq_some, Option.some.injEq, List.all_eq_true]

/-- **A text is read as the number that it denotes**, and is refused if it denotes none. -/
theorem parse?_eq_some_iff {chars : List Char} :
    parse? chars = some number ↔ Denotes chars number := by
  constructor
  · intro h
    unfold parse? at h
    split at h
    all_goals
      simp only [bind_pure_comp, Option.map_eq_map, Option.map_map] at h
      obtain ⟨n, hdigits, rfl⟩ := Option.map_eq_some_iff.mp h
      obtain ⟨⟨hne, hall⟩, rfl⟩ := ofDigits?_eq_some_iff.mp hdigits
    · exact .minus hne hall
    · exact .plus hne hall
    · exact .unsigned hne hall
  · intro h
    cases h with
    | plus hne hall =>
      rw [parse?, ofDigits?_eq_some_iff.mpr ⟨⟨hne, hall⟩, rfl⟩]
      rfl
    | minus hne hall =>
      rw [parse?, ofDigits?_eq_some_iff.mpr ⟨⟨hne, hall⟩, rfl⟩]
      rfl
    | unsigned hne hall =>
      obtain ⟨c, rest, rfl⟩ := List.exists_cons_of_ne_nil hne
      rw [parse?_of_isDigit (hall c List.mem_cons_self),
        ofDigits?_eq_some_iff.mpr ⟨⟨hne, hall⟩, rfl⟩]
      rfl

end Text.Decimal

namespace Key

variable {key : Key} {position : Nat}

/-! ## Keys and positions -/

theorem ofPosition_toNatClampNeg (h : 0 ≤ key) : ofPosition key.toNatClampNeg = key :=
  Int64.ofNat_toNatClampNeg key h

theorem toNatClampNeg_ofPosition (h : position < 2 ^ 63) :
    (ofPosition position).toNatClampNeg = position :=
  Int64.toNatClampNeg_ofNat_of_lt h

theorem toInt_ofPosition (h : position < 2 ^ 63) : (ofPosition position).toInt = position :=
  Int64.toInt_ofNat_of_lt h

theorem ofPosition_nonneg (h : position < 2 ^ 63) : 0 ≤ ofPosition position := by
  rw [Int64.le_iff_toInt_le, toInt_ofPosition h, Int64.toInt_zero]
  exact Int.natCast_nonneg position

theorem ofPosition_inj {other : Nat} (h : position < 2 ^ 63) (h' : other < 2 ^ 63) :
    ofPosition position = ofPosition other ↔ position = other := by
  constructor
  · intro heq
    rw [← toNatClampNeg_ofPosition h, heq, toNatClampNeg_ofPosition h']
  · exact fun heq => heq ▸ rfl

/-! ## Texts of keys -/

theorem isDigit_or_minus_of_mem_render {c : Char} (hc : c ∈ key.render.toList) :
    c.isDigit = true ∨ c = '-' := by
  rw [render, Text.Decimal.render, String.toList_ofList] at hc
  have hdigit : ∀ {n : Nat}, c ∈ Nat.toDigits 10 n → c.isDigit = true := fun hmem =>
    Nat.isDigit_of_mem_toDigits (by decide) (by decide) hmem
  cases hnumber : key.toInt with
  | ofNat n =>
    rw [hnumber, Text.Decimal.chars] at hc
    exact Or.inl (hdigit hc)
  | negSucc n =>
    rw [hnumber, Text.Decimal.chars] at hc
    rcases List.mem_cons.mp hc with rfl | hc
    · exact Or.inr rfl
    · exact Or.inl (hdigit hc)

theorem render_ne_empty (key : Key) : key.render ≠ "" := by
  rw [Ne, ← String.toList_eq_nil_iff, render, Text.Decimal.render, String.toList_ofList]
  cases key.toInt with
  | ofNat n => exact Nat.toDigits_ne_nil
  | negSucc n => exact List.cons_ne_nil _ _

/-- **Reading the text of a key gives the key back.** -/
theorem parse?_render (key : Key) : parse? key.render = some key := by
  have hrange : Int64.minValue.toInt ≤ key.toInt ∧ key.toInt ≤ Int64.maxValue.toInt :=
    ⟨Int64.le_toInt key, Int64.toInt_le key⟩
  rw [parse?, render, Text.Decimal.render, String.toList_ofList, Text.Decimal.parse?_chars,
    Option.bind_eq_bind, Option.bind_some, if_pos hrange, Int64.ofInt_toInt]

/-- **The key that a text denotes** is the number that it denotes. -/
theorem parse?_eq_some_iff {text : String} :
    parse? text = some key ↔ Text.Decimal.Denotes text.toList key.toInt := by
  rw [← Text.Decimal.parse?_eq_some_iff, parse?, Option.bind_eq_bind, Option.bind_eq_some_iff]
  constructor
  · rintro ⟨number, hnumber, h⟩
    obtain ⟨⟨hlow, hhigh⟩, hkey⟩ := Option.ite_none_right_eq_some.mp h
    rw [hnumber, ← Option.some.inj hkey, Int64.toInt_ofInt_of_le hlow]
    exact Int.lt_add_one_of_le hhigh
  · intro hnumber
    refine ⟨key.toInt, hnumber, ?_⟩
    rw [if_pos ⟨Int64.le_toInt key, Int64.toInt_le key⟩, Int64.ofInt_toInt]

/-! ## The next key -/

/-- The next key is the next number, and the greatest key is its own next one. -/
theorem toInt_succ (key : Key) : key.succ.toInt = min (key.toInt + 1) greatest.toInt := by
  have hle : key.toInt ≤ greatest.toInt := Int64.toInt_le key
  have hmax : greatest.toInt = 2 ^ 63 - 1 := by decide
  have hmin := Int64.le_toInt key
  unfold succ next?
  by_cases h : key = greatest
  · subst h
    decide
  · have hne := mt Int64.toInt_inj.mp h
    rw [if_neg h, Option.getD_some, Int64.toInt_add, Int.bmod_eq_of_le]
    · show key.toInt + 1 = _
      omega
    · show _ ≤ key.toInt + 1
      omega
    · show key.toInt + 1 < _
      omega

theorem next?_eq_some_iff {other : Key} :
    key.next? = some other ↔ key ≠ greatest ∧ key.succ = other := by
  unfold succ next?
  split
  next heq => simp [heq]
  next hne => simp [hne]

theorem succ_greatest : greatest.succ = greatest := rfl

theorem le_greatest (key : Key) : key ≤ greatest :=
  Int64.le_iff_toInt_le.mpr (Int64.toInt_le key)

/-- Nothing is between a key and the next one. -/
theorem succ_le_iff {other : Key} (h : key ≠ greatest) : key.succ ≤ other ↔ key < other := by
  have hle := Int64.le_iff_toInt_le.mp (le_greatest key)
  have hne := mt Int64.toInt_inj.mp h
  rw [Int64.le_iff_toInt_le, Int64.lt_iff_toInt_lt, toInt_succ]
  omega

theorem lt_succ_iff {other : Key} (h : key ≠ greatest) : other < key.succ ↔ other ≤ key := by
  have hle := Int64.le_iff_toInt_le.mp (le_greatest key)
  have hne := mt Int64.toInt_inj.mp h
  rw [Int64.le_iff_toInt_le, Int64.lt_iff_toInt_lt, toInt_succ]
  omega

theorem le_succ (key : Key) : key ≤ key.succ := by
  by_cases h : key = greatest
  · subst h
    exact Int64.le_rfl
  · exact Int64.le_of_lt ((succ_le_iff h).mp Int64.le_rfl)

theorem max_eq_left {other : Key} (h : other ≤ key) : max key other = key := by
  show (if key ≤ other then other else key) = key
  split
  next hle => exact Int64.le_antisymm h hle
  next => rfl

/-! ## The key to hand out next -/

/-- The available key after a key was added. -/
def afterAdding (available key : Key) : Key :=
  if available ≤ key then key.succ else available

theorem afterAdding_eq_max (available key : Key) :
    available.afterAdding key = max available key.succ := by
  have hsucc := toInt_succ key
  have hle := Int64.le_iff_toInt_le.mp (le_greatest key)
  show _ = if available ≤ key.succ then key.succ else available
  unfold afterAdding
  by_cases h : available ≤ key
  · rw [if_pos h, if_pos]
    rw [Int64.le_iff_toInt_le] at h ⊢
    omega
  · rw [if_neg h]
    split
    next hsucc' =>
      rw [Int64.le_iff_toInt_le] at h hsucc'
      exact Int64.toInt_inj.mp (by omega)
    next => rfl

theorem le_afterAdding (available key : Key) : available ≤ available.afterAdding key := by
  unfold afterAdding
  split
  next h => exact Int64.le_trans h (le_succ key)
  next => exact Int64.le_rfl

theorem succ_le_afterAdding (available key : Key) : key.succ ≤ available.afterAdding key := by
  unfold afterAdding
  split
  next => exact Int64.le_rfl
  next h =>
    by_cases hkey : key = greatest
    · subst hkey
      exact absurd (le_greatest available) h
    · exact (succ_le_iff hkey).mpr (Int64.not_le.mp h)

/-- The available key after a key was removed. -/
def afterRemoving (available key : Key) : Key :=
  if key.next? = some available then key else available

/-- **The available key after a key was added and removed again**: the key itself, unless the
    available key was farther past it than the next one. -/
theorem afterRemoving_afterAdding (available key : Key) :
    (available.afterAdding key).afterRemoving key =
      if available ≤ key.succ then key else available := by
  unfold afterAdding afterRemoving
  by_cases hle : available ≤ key
  · rw [if_pos hle, if_pos (Int64.le_trans hle (le_succ key))]
    by_cases hkey : key = greatest
    · subst hkey
      rfl
    · rw [if_pos (next?_eq_some_iff.mpr ⟨hkey, rfl⟩)]
  · rw [if_neg hle]
    have hlt : key < available := Int64.not_le.mp hle
    have hkey : key ≠ greatest := by
      rintro rfl
      exact hle (le_greatest available)
    have hnext : key.next? = some available ↔ available ≤ key.succ := by
      rw [next?_eq_some_iff, and_iff_right hkey]
      constructor
      · rintro rfl
        exact Int64.le_rfl
      · exact fun hsucc => Int64.le_antisymm ((succ_le_iff hkey).mpr hlt) hsucc
    simp only [hnext]

/-- Only the reserved key could bring an available key below zero. -/
theorem nonneg_afterRemoving {available key : Key} (h : 0 ≤ available) (hkey : key ≠ noSymbol) :
    0 ≤ available.afterRemoving key := by
  unfold afterRemoving
  split
  next hnext =>
    obtain ⟨-, hsucc⟩ := next?_eq_some_iff.mp hnext
    have hne := mt Int64.toInt_inj.mp hkey
    have hle := toInt_succ key
    rw [hsucc] at hle
    rw [Int64.le_iff_toInt_le] at h ⊢
    show (0 : Int) ≤ key.toInt
    have hzero : (0 : Int) ≤ available.toInt := h
    have hne' : key.toInt ≠ -1 := hne
    omega
  next => exact h

end Key
end Symtab
