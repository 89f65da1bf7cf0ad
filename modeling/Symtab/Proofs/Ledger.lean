import Mathlib.Data.List.Nodup
import Mathlib.Data.List.Perm.Basic
import Symtab.Proofs.Key

/-!
# Ledgers

A ledger is what a table means: a list of symbols with their keys, in storage order, beside a
name and the key to hand out next.  It has no index and no key map; every lookup goes through
the list, and every change is one edit of it.  So a ledger says at a glance what a table has to
answer, and that a table does answer so is the subject of `Symtab.Proofs.Table.Soundness`.

`Ledger.Distinct` is what all rests on: no symbol and no key twice, and no reserved key.  Under
it searching the list and being in the list are the same (`Distinct.find?_eq_some_iff`,
`Distinct.keyOf?_eq_some_iff`), and sorting the list leaves no two keys equal.
-/

set_option autoImplicit false

namespace Symtab

/-- A list of bindings with a name and the key to hand out next. -/
structure Ledger where
  name : String
  bindings : List (String × Key)
  available : Key
deriving DecidableEq, Repr

namespace Ledger

variable {ledger : Ledger} {symbol : String} {key : Key} {position : Nat}

/-! ## Lookups -/

def symbols (ledger : Ledger) : List String := ledger.bindings.map Prod.fst

def keys (ledger : Ledger) : List Key := ledger.bindings.map Prod.snd

def find? (ledger : Ledger) (key : Key) : Option String :=
  (ledger.bindings.find? (·.2 = key)).map Prod.fst

def keyOf? (ledger : Ledger) (symbol : String) : Option Key :=
  (ledger.bindings.find? (·.1 = symbol)).map Prod.snd

def nthKey? (ledger : Ledger) (position : Nat) : Option Key := ledger.keys[position]?

def ascending (ledger : Ledger) : List (Key × String) :=
  (ledger.bindings.map Prod.swap).mergeSort fun first second => first.1 ≤ second.1

/-! ## Changes -/

def append (ledger : Ledger) (symbol : String) (key : Key) : Ledger :=
  { ledger with
    bindings := ledger.bindings ++ [(symbol, key)]
    available := ledger.available.afterAdding key }

/-- Puts bindings behind the others, in order. -/
def extend (ledger : Ledger) (bindings : List (String × Key)) : Ledger :=
  bindings.foldl (fun ledger binding => ledger.append binding.1 binding.2) ledger

/-- Adds a symbol under a key: not under the reserved key, not when the symbol is there, which
    answers its key, and not under a key that is there. -/
def addWithKey (ledger : Ledger) (symbol : String) (key : Key) : Key × Ledger :=
  if key = Key.noSymbol then (Key.noSymbol, ledger)
  else
    match ledger.keyOf? symbol with
    | some existing => (existing, ledger)
    | none =>
      if key ∈ ledger.keys then (Key.noSymbol, ledger) else (key, ledger.append symbol key)

def add (ledger : Ledger) (symbol : String) : Key × Ledger :=
  ledger.addWithKey symbol ledger.available

def addAll (ledger : Ledger) (symbols : List String) : Ledger :=
  symbols.foldl (fun ledger symbol => (ledger.add symbol).2) ledger

/-- Erases the binding of a key, and answers whether there was one. -/
def remove (ledger : Ledger) (key : Key) : Bool × Ledger :=
  if key ∈ ledger.keys then
    (true,
      { ledger with
        bindings := ledger.bindings.filter (·.2 ≠ key)
        available := ledger.available.afterRemoving key })
  else (false, ledger)

def rename (ledger : Ledger) (name : String) : Ledger := { ledger with name }

theorem name_extend (ledger : Ledger) (bindings : List (String × Key)) :
    (ledger.extend bindings).name = ledger.name := by
  induction bindings generalizing ledger with
  | nil => rfl
  | cons binding rest ih => exact ih (ledger.append binding.1 binding.2)

theorem bindings_extend (ledger : Ledger) (bindings : List (String × Key)) :
    (ledger.extend bindings).bindings = ledger.bindings ++ bindings := by
  induction bindings generalizing ledger with
  | nil => exact (List.append_nil _).symm
  | cons binding rest ih =>
    show ((ledger.append binding.1 binding.2).extend rest).bindings = _
    rw [ih, append, List.append_assoc]
    rfl

theorem extend_concat (ledger : Ledger) (bindings : List (String × Key)) (binding : String × Key) :
    ledger.extend (bindings ++ [binding]) =
      (ledger.extend bindings).append binding.1 binding.2 := by
  rw [extend, List.foldl_concat, extend]

/-- The available key is past every key that was put behind the others. -/
theorem available_extend (ledger : Ledger) (bindings : List (String × Key)) :
    (ledger.extend bindings).available =
      bindings.foldl (fun available binding => max available binding.2.succ) ledger.available := by
  induction bindings generalizing ledger with
  | nil => rfl
  | cons binding rest ih =>
    rw [List.foldl_cons, ← Key.afterAdding_eq_max]
    exact ih (ledger.append binding.1 binding.2)

theorem available_extend_of_le {bindings : List (String × Key)}
    (h : ∀ binding ∈ bindings, binding.2.succ ≤ ledger.available) :
    (ledger.extend bindings).available = ledger.available := by
  rw [available_extend]
  generalize ledger.available = available at h ⊢
  induction bindings with
  | nil => rfl
  | cons binding rest ih =>
    have hfirst := h binding List.mem_cons_self
    rw [List.foldl_cons, Key.max_eq_left hfirst]
    exact ih fun other hmem => h other (List.mem_cons_of_mem _ hmem)

/-! ## No symbol and no key twice -/

/-- The bindings are a correspondence between symbols and keys. -/
structure Distinct (ledger : Ledger) : Prop where
  symbols : ledger.symbols.Nodup
  keys : ledger.keys.Nodup
  reserved : Key.noSymbol ∉ ledger.keys

/-- In a list without repetitions of a field, searching for the field finds exactly the items
    that have it. -/
theorem find?_field_eq_some_iff {α β : Type} [DecidableEq β] {list : List α} {field : α → β}
    {item : α} {value : β} (h : (list.map field).Nodup) :
    list.find? (field · = value) = some item ↔ item ∈ list ∧ field item = value := by
  constructor
  · intro hfind
    exact ⟨List.mem_of_find?_eq_some hfind, by simpa using List.find?_some hfind⟩
  · intro hboth
    obtain ⟨hmem, rfl⟩ := hboth
    cases hfind : list.find? (field · = field item) with
    | none => exact absurd (List.find?_eq_none.mp hfind item hmem) (by simp)
    | some other =>
      have hother := List.mem_of_find?_eq_some hfind
      have hfield : field other = field item := by simpa using List.find?_some hfind
      rw [List.inj_on_of_nodup_map h hother hmem hfield]

theorem Distinct.find?_eq_some_iff (h : Distinct ledger) :
    ledger.find? key = some symbol ↔ (symbol, key) ∈ ledger.bindings := by
  rw [find?, Option.map_eq_some_iff]
  constructor
  · intro hex
    obtain ⟨⟨other, _⟩, hfind, rfl⟩ := hex
    obtain ⟨hmem, rfl⟩ := (find?_field_eq_some_iff h.keys).mp hfind
    exact hmem
  · intro hmem
    exact ⟨_, (find?_field_eq_some_iff h.keys).mpr ⟨hmem, rfl⟩, rfl⟩

theorem Distinct.keyOf?_eq_some_iff (h : Distinct ledger) :
    ledger.keyOf? symbol = some key ↔ (symbol, key) ∈ ledger.bindings := by
  rw [keyOf?, Option.map_eq_some_iff]
  constructor
  · intro hex
    obtain ⟨⟨_, other⟩, hfind, rfl⟩ := hex
    obtain ⟨hmem, rfl⟩ := (find?_field_eq_some_iff h.symbols).mp hfind
    exact hmem
  · intro hmem
    exact ⟨_, (find?_field_eq_some_iff h.symbols).mpr ⟨hmem, rfl⟩, rfl⟩

theorem keyOf?_eq_none_iff : ledger.keyOf? symbol = none ↔ symbol ∉ ledger.symbols := by
  rw [keyOf?, Option.map_eq_none_iff, List.find?_eq_none, symbols, List.mem_map]
  constructor
  · intro hnone hex
    obtain ⟨binding, hmem, rfl⟩ := hex
    exact absurd (hnone binding hmem) (by simp)
  · intro hnot binding hmem heq
    exact hnot ⟨binding, hmem, by simpa using heq⟩

theorem find?_eq_none_iff : ledger.find? key = none ↔ key ∉ ledger.keys := by
  rw [find?, Option.map_eq_none_iff, List.find?_eq_none, keys, List.mem_map]
  constructor
  · intro hnone hex
    obtain ⟨binding, hmem, rfl⟩ := hex
    exact absurd (hnone binding hmem) (by simp)
  · intro hnot binding hmem heq
    exact hnot ⟨binding, hmem, by simpa using heq⟩

/-- Adding what is not there puts it behind the others. -/
theorem addWithKey_absent (hsymbol : symbol ∉ ledger.symbols) (hkey : key ∉ ledger.keys)
    (hreserved : key ≠ Key.noSymbol) :
    ledger.addWithKey symbol key = (key, ledger.append symbol key) := by
  simp only [addWithKey, if_neg hreserved, keyOf?_eq_none_iff.mpr hsymbol, if_neg hkey]

theorem addWithKey_reserved (ledger : Ledger) (symbol : String) :
    ledger.addWithKey symbol Key.noSymbol = (Key.noSymbol, ledger) := rfl

theorem addWithKey_present {existing : Key} (h : ledger.keyOf? symbol = some existing)
    (hreserved : key ≠ Key.noSymbol) : ledger.addWithKey symbol key = (existing, ledger) := by
  simp only [addWithKey, if_neg hreserved, h]

theorem addWithKey_taken (hsymbol : symbol ∉ ledger.symbols) (hkey : key ∈ ledger.keys) :
    ledger.addWithKey symbol key = (Key.noSymbol, ledger) := by
  simp only [addWithKey, keyOf?_eq_none_iff.mpr hsymbol, if_pos hkey, ite_self]

/-- Adding either changes nothing or puts the binding behind the others. -/
theorem addWithKey_cases (ledger : Ledger) (symbol : String) (key : Key) :
    (ledger.addWithKey symbol key).2 = ledger ∨
      key ≠ Key.noSymbol ∧ (ledger.addWithKey symbol key).2 = ledger.append symbol key := by
  unfold addWithKey
  split
  · exact Or.inl rfl
  next hreserved =>
    split
    · exact Or.inl rfl
    split
    · exact Or.inl rfl
    · exact Or.inr ⟨hreserved, rfl⟩

theorem keys_append (ledger : Ledger) (symbol : String) (key : Key) :
    (ledger.append symbol key).keys = ledger.keys ++ [key] := by
  simp [Ledger.keys, append]

theorem mem_keys_remove {other : Key} :
    other ∈ (ledger.remove key).2.keys ↔ other ∈ ledger.keys ∧ other ≠ key := by
  unfold remove
  split
  next hmem =>
    simp only [keys, List.mem_map, List.mem_filter, decide_eq_true_eq]
    constructor
    · rintro ⟨binding, ⟨hbinding, hne⟩, rfl⟩
      exact ⟨⟨binding, hbinding, rfl⟩, hne⟩
    · rintro ⟨⟨binding, hbinding, rfl⟩, hne⟩
      exact ⟨binding, ⟨hbinding, hne⟩, rfl⟩
  next hmem =>
    constructor
    · intro hother
      exact ⟨hother, fun heq => hmem (heq ▸ hother)⟩
    · exact And.left

/-- Nothing is left out for a key that is not there. -/
theorem filter_ne_eq_self (hkey : key ∉ ledger.keys) :
    ledger.bindings.filter (·.2 ≠ key) = ledger.bindings := by
  refine List.filter_eq_self.mpr fun binding hbinding => decide_eq_true ?_
  rintro rfl
  exact hkey (List.mem_map_of_mem hbinding)

theorem bindings_remove (ledger : Ledger) (key : Key) :
    (ledger.remove key).2.bindings = ledger.bindings.filter fun binding => binding.2 ∉ [key] := by
  simp only [List.mem_singleton]
  unfold remove
  split
  next => rfl
  next hnot => exact (filter_ne_eq_self hnot).symm

/-- The order of the bindings does not matter. -/
theorem Distinct.of_perm {other : Ledger} (h : Distinct ledger)
    (hperm : other.bindings.Perm ledger.bindings) : Distinct other where
  symbols := (hperm.map Prod.fst).nodup_iff.mpr h.symbols
  keys := (hperm.map Prod.snd).nodup_iff.mpr h.keys
  reserved := fun hmem => h.reserved ((hperm.map Prod.snd).mem_iff.mp hmem)

/-- What comes behind is not there before. -/
theorem Distinct.absent_of_extend {rest : List (String × Key)}
    (h : Distinct (ledger.extend ((symbol, key) :: rest))) :
    symbol ∉ ledger.symbols ∧ key ∉ ledger.keys ∧ key ≠ Key.noSymbol := by
  obtain ⟨hsymbols, hkeys, hreserved⟩ := h
  rw [Ledger.symbols, bindings_extend, List.map_append] at hsymbols
  rw [Ledger.keys, bindings_extend, List.map_append] at hkeys hreserved
  have hfirst : symbol ∈ ((symbol, key) :: rest).map Prod.fst := List.mem_cons_self
  have hsecond : key ∈ ((symbol, key) :: rest).map Prod.snd := List.mem_cons_self
  refine ⟨?_, ?_, ?_⟩
  · intro hmem
    exact (List.nodup_append.mp hsymbols).2.2 symbol hmem symbol hfirst rfl
  · intro hmem
    exact (List.nodup_append.mp hkeys).2.2 key hmem key hsecond rfl
  · intro heq
    exact hreserved (List.mem_append_right _ (heq ▸ hsecond))

/-! ## The order of the keys -/

theorem ascending_perm (ledger : Ledger) :
    ledger.ascending.Perm (ledger.bindings.map Prod.swap) :=
  List.mergeSort_perm ..

theorem mem_ascending_iff : (key, symbol) ∈ ledger.ascending ↔ (symbol, key) ∈ ledger.bindings := by
  rw [ledger.ascending_perm.mem_iff, List.mem_map]
  constructor
  · intro hex
    obtain ⟨⟨_, _⟩, hmem, heq⟩ := hex
    obtain ⟨rfl, rfl⟩ := Prod.mk.inj heq
    exact hmem
  · intro hmem
    exact ⟨_, hmem, rfl⟩

/-- Sorting keys without repetitions leaves no equal neighbours. -/
theorem Distinct.ascending_strict (h : Distinct ledger) :
    ledger.ascending.Pairwise fun first second => first.1 < second.1 := by
  have hle : ledger.ascending.Pairwise fun first second => first.1 ≤ second.1 := by
    refine (List.pairwise_mergeSort ?_ ?_ _).imp fun h => of_decide_eq_true h
    · intro first second third h h'
      exact decide_eq_true (Int64.le_trans (of_decide_eq_true h) (of_decide_eq_true h'))
    · intro first second
      simpa using Int64.le_total first.1 second.1
  have hne : ledger.ascending.Pairwise fun first second => first.1 ≠ second.1 := by
    rw [← List.pairwise_map (f := Prod.fst) (R := fun first second => first ≠ second)]
    have hkeys : (ledger.ascending.map Prod.fst).Perm ledger.keys := by
      refine (ledger.ascending_perm.map Prod.fst).trans ?_
      rw [List.map_map, Ledger.keys]
      rfl
    exact hkeys.nodup_iff.mpr h.keys
  exact (hle.and hne).imp fun h => Int64.lt_of_le_of_ne h.1 h.2

/-- Two lists in strictly ascending order with the same members are the same. -/
theorem eq_of_ascending {first second : List (Key × String)}
    (hfirst : first.Pairwise fun a b => a.1 < b.1) (hsecond : second.Pairwise fun a b => a.1 < b.1)
    (hmem : ∀ pair, pair ∈ first ↔ pair ∈ second) : first = second := by
  have hnodup : ∀ {list : List (Key × String)}, (list.Pairwise fun a b => a.1 < b.1) →
      list.Nodup := by
    intro list hlist
    refine hlist.imp ?_
    intro a _ hlt heq
    subst heq
    exact Int64.lt_irrefl hlt
  refine List.Perm.eq_of_pairwise ?_ hfirst hsecond
    ((List.perm_ext_iff_of_nodup (hnodup hfirst) (hnodup hsecond)).mpr hmem)
  intro a b _ _ hlt hgt
  exact absurd (Int64.lt_trans hlt hgt) Int64.lt_irrefl

end Ledger
end Symtab
