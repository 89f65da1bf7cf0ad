import Mathlib.Data.List.ReduceOption
import Symtab.Proofs.Index.Soundness

/-!
# Loops over the buckets end

The searches of an index go through at most as many buckets as there are, and are astray if that
is not enough.  A loop that looks at one bucket after the other, and does not count them, has no
such way out: where every bucket is to be passed it goes round for ever.  `Ends` is such a loop,
and says after how many steps it ends, and at which bucket.

Main statements: `Sound.loopsEnd`, by which the loops of an index end before they have been round,
and where the counted searches end; and `Filled.occupied_perm`, by which the buckets lead to each
position once, so that all others are empty.
-/

set_option autoImplicit false

namespace Symtab.Index

variable {hash : Hash} {index : Index hash} {buckets : Array (Option Nat)} {symbols : List String}
  {symbol : String} {mask bucket last fuel count : Nat}

/-! ## Loops without a bound -/

/-- From this bucket on, a loop goes to the next bucket as long as the one it is at is to be passed;
    it ends after so many steps, at this other bucket. -/
inductive Ends (mask : Nat) (passed : Nat → Prop) : Nat → Nat → Nat → Prop where
  | here {bucket : Nat} (h : ¬passed bucket) : Ends mask passed bucket 0 bucket
  | further {bucket steps last : Nat} (h : passed bucket)
      (rest : Ends mask passed (after mask bucket) steps last) :
      Ends mask passed bucket (steps + 1) last

/-- A search for a symbol passes a bucket that leads to another symbol. -/
def Passes (index : Index hash) (symbol : String) (bucket : Nat) : Prop :=
  ∃ position stored, index.buckets[bucket]? = some (some position) ∧
    index.symbols[position]? = some stored ∧ stored ≠ symbol

/-- What a search answers at the bucket where it ends. -/
def verdict (index : Index hash) (bucket : Nat) : Probe :=
  match index.buckets[bucket]? with
  | none => .astray
  | some none => .vacant bucket
  | some (some position) => .present position

/-- A search for a place passes a bucket that leads to a symbol. -/
def Occupied (buckets : Array (Option Nat)) (bucket : Nat) : Prop :=
  ∃ position, buckets[bucket]? = some (some position)

/-- A search that is not astray ends as the loop does, with a step to spare. -/
theorem exists_ends_of_probeFrom (hprobe : index.probeFrom symbol fuel bucket ≠ .astray) :
    ∃ steps < fuel, ∃ last, Ends index.mask (index.Passes symbol) bucket steps last ∧
      index.probeFrom symbol fuel bucket = index.verdict last := by
  induction fuel generalizing bucket with
  | zero => exact absurd rfl hprobe
  | succ fuel ih =>
    rw [probeFrom] at hprobe ⊢
    cases hbucket : index.buckets[bucket]? with
    | none =>
      rw [hbucket] at hprobe
      exact absurd rfl hprobe
    | some led =>
      cases led with
      | none =>
        refine ⟨0, Nat.succ_pos fuel, bucket, .here ?_, by rw [verdict, hbucket]⟩
        rintro ⟨position, stored, hled, -⟩
        rw [hbucket] at hled
        cases hled
      | some position =>
        simp only [hbucket] at hprobe
        cases hsymbol : index.symbols[position]? with
        | none =>
          rw [hsymbol] at hprobe
          exact absurd rfl hprobe
        | some stored =>
          simp only [hsymbol] at hprobe ⊢
          by_cases heq : stored = symbol
          · rw [if_pos heq]
            refine ⟨0, Nat.succ_pos fuel, bucket, .here ?_, by rw [verdict, hbucket]⟩
            rintro ⟨other, stored', hled, hstored', hne⟩
            obtain rfl : position = other := by simpa [hbucket] using hled
            rw [hsymbol] at hstored'
            exact hne (Option.some.inj hstored' ▸ heq)
          · rw [if_neg heq] at hprobe ⊢
            obtain ⟨steps, hsteps, last, hends, hverdict⟩ := ih hprobe
            exact ⟨steps + 1, Nat.succ_lt_succ hsteps, last,
              .further ⟨position, stored, hbucket, hsymbol, heq⟩ hends, hverdict⟩

/-- A place that is found is where the loop ends. -/
theorem exists_ends_of_vacancy? (hfound : vacancy? buckets mask fuel bucket = some last) :
    ∃ steps < fuel, Ends mask (Occupied buckets) bucket steps last := by
  induction fuel generalizing bucket with
  | zero => cases hfound
  | succ fuel ih =>
    rw [vacancy?] at hfound
    cases hbucket : buckets[bucket]? with
    | none =>
      rw [hbucket] at hfound
      cases hfound
    | some led =>
      cases led with
      | none =>
        simp only [hbucket] at hfound
        obtain rfl := Option.some.inj hfound
        refine ⟨0, Nat.succ_pos fuel, .here ?_⟩
        rintro ⟨position, hled⟩
        rw [hbucket] at hled
        cases hled
      | some position =>
        simp only [hbucket] at hfound
        obtain ⟨steps, hsteps, hends⟩ := ih hfound
        exact ⟨steps + 1, Nat.succ_lt_succ hsteps, .further ⟨position, hbucket⟩ hends⟩

/-! ## Searching -/

/-- Whatever symbol is searched for, the loop ends before it has been round, and the answer is what
    it ends at. -/
def SearchesEnd (index : Index hash) : Prop :=
  ∀ symbol, ∃ steps < index.bucketCount, ∃ last,
    Ends index.mask (index.Passes symbol) (home hash index.mask symbol) steps last ∧
      index.probe symbol = index.verdict last

theorem Sound.probe_ne_astray (h : Sound index) (symbol : String) :
    index.probe symbol ≠ .astray := by
  by_cases hmem : symbol ∈ index.toList
  · obtain ⟨position, hat⟩ := List.mem_iff_getElem?.mp hmem
    rw [h.probe_of_getElem? hat]
    exact Probe.noConfusion
  · obtain ⟨bucket, hprobe, -⟩ := h.probe_of_not_mem hmem
    rw [hprobe]
    exact Probe.noConfusion

theorem Sound.searchesEnd (h : Sound index) : index.SearchesEnd := fun symbol =>
  exists_ends_of_probeFrom (h.probe_ne_astray symbol)

/-! ## Filling buckets -/

/-- Where so many buckets are filled anew, the loop ends for each symbol before it has been round,
    and the symbol gets the bucket at which it ends. -/
def FillingEnds (hash : Hash) (count : Nat) (symbols : List String) : Prop :=
  ∀ front symbol back, symbols = front ++ symbol :: back →
    ∃ steps < count, ∃ last,
      Ends (count - 1) (Occupied (bucketsOf hash count front.toArray))
        (home hash (count - 1) symbol) steps last ∧
      bucketsOf hash count (front ++ [symbol]).toArray =
        (bucketsOf hash count front.toArray).setIfInBounds last (some front.length)

theorem fillingEnds (hash : Hash) (hcount : Doubled count) (room : symbols.length ≤ count) :
    FillingEnds hash count symbols := by
  rintro front symbol back rfl
  rw [List.length_append, List.length_cons] at room
  have hsize := size_bucketsOf hash count front
  have hfilled : Filled hash (bucketsOf hash count front.toArray) front :=
    filled_bucketsOf hcount (by omega)
  obtain ⟨last, hlast⟩ := hfilled.exists_vacates (by omega) (hash symbol).toNat
  have hfound := hlast.vacancy?_eq (hsize.symm ▸ hcount)
  rw [hsize, ← home_eq hcount] at hfound
  obtain ⟨steps, hsteps, hends⟩ := exists_ends_of_vacancy? hfound
  refine ⟨steps, hsteps, last, hends, ?_⟩
  rw [bucketsOf_append, settle, hsize, hfound]

/-- The loops over the buckets of an index, in whatever it does next, end before they have been
    round. -/
structure LoopsEnd (index : Index hash) : Prop where
  find : index.SearchesEnd
  /-- An insertion searches when the buckets have grown, if they have to. -/
  insert : index.grow.value.SearchesEnd
  grow : FillingEnds hash (index.bucketCount * 2) index.toList
  remove : ∀ position, FillingEnds hash index.bucketCount (index.toList.eraseIdx position)

/-- **The loops over the buckets end.** -/
theorem Sound.loopsEnd (h : Sound index) : index.LoopsEnd where
  find := h.searchesEnd
  insert := h.grow_eq.1.searchesEnd
  grow := by
    have hroom := h.room
    rw [← bucketCount] at hroom
    exact fillingEnds hash h.doubled.double (by omega)
  remove := by
    intro position
    have hroom := h.room
    rw [← bucketCount] at hroom
    have hle := (index.toList.eraseIdx_sublist position).length_le
    exact fillingEnds hash h.doubled (by omega)

/-! ## Occupied and empty buckets -/

/-- **The buckets lead to each position once**, in some order. -/
theorem Filled.occupied_perm (h : Filled hash buckets symbols) :
    buckets.toList.reduceOption.Perm (List.range symbols.length) := by
  refine (List.perm_ext_iff_of_nodup ?_ List.nodup_range).mpr fun position => ?_
  · rw [List.reduceOption, List.Nodup, List.pairwise_filterMap, List.pairwise_iff_getElem]
    intro bucket other hbucket hother hlt position hled position' hled'
    rintro rfl
    refine Nat.ne_of_lt hlt (h.single bucket other position ?_ ?_)
    · rw [← Array.getElem?_toList, List.getElem?_eq_getElem hbucket]
      exact congrArg some hled
    · rw [← Array.getElem?_toList, List.getElem?_eq_getElem hother]
      exact congrArg some hled'
  · rw [List.reduceOption_mem_iff, List.mem_range, List.mem_iff_getElem?]
    simp only [Array.getElem?_toList]
    constructor
    · rintro ⟨bucket, hled⟩
      exact h.bounded bucket position hled
    · intro hlt
      obtain ⟨steps, -, hled, -⟩ := h.reached position _ (List.getElem?_eq_getElem hlt)
      exact ⟨_, hled⟩

/-- A bucket is empty or leads to one of the positions. -/
theorem Filled.length_add_count_none (h : Filled hash buckets symbols) :
    symbols.length + buckets.count none = buckets.size := by
  have hlength : buckets.toList.reduceOption.length = symbols.length := by
    rw [h.occupied_perm.length_eq, List.length_range]
  have hempty : buckets.count none = (buckets.toList.filter Option.isNone).length := by
    rw [← Array.count_toList, List.count_eq_length_filter]
    simp only [Option.beq_none]
  rw [hempty, ← hlength, ← List.length_eq_reduceOption_length_add_filter_none,
    Array.length_toList]

end Symtab.Index
