import Symtab.Proofs.Index.Loops
import Symtab.Proofs.Index.Runs

/-!
# How many buckets an index has

An index doubles its buckets when an insertion finds three quarters of them filled, whether or not
the symbol is new, and never gives a bucket back.  So the number of buckets does not depend on the
symbols that are there, but on how many there were when an insertion started: on the greatest such
number so far (`peak`).

Main statement: `buckets_follow_peak`.  The buckets are the fewest of which the peak leaves more
than a quarter empty, and each doubling on the way was reported; what is there now is never more
than what the peak made room for, so that every loop over the buckets ends.
-/

set_option autoImplicit false

namespace Symtab.Index

variable {hash : Hash} {index : Index hash} {size most doublings : Nat}

/-! ## Requests one after the other -/

/-- Serves requests in order, and keeps what is reported; the responses are left out. -/
def serveAll (index : Index hash) : List Request → Logged (Index hash)
  | [] => pure index
  | request :: rest => do
    let served ← index.serve request
    served.2.serveAll rest

/-- How many symbols there are when an insertion starts; no other request makes room. -/
def demand (index : Index hash) : Request → Nat
  | .insert _ => index.size
  | _ => 0

/-- The greatest number of symbols at which an insertion starts. -/
def peak : Index hash → List Request → Nat
  | _, [] => 0
  | index, request :: rest => max (index.demand request) (peak (index.serve request).value.2 rest)

/-! ## Doublings -/

/-- So many doublings are the fewest by which this number of symbols fills less than three quarters
    of the buckets. -/
structure Fewest (most doublings : Nat) : Prop where
  spare : 4 * most < 3 * (initialBuckets * 2 ^ doublings)
  least : ∀ fewer < doublings, 3 * (initialBuckets * 2 ^ fewer) ≤ 4 * most

theorem fewest_zero : Fewest 0 0 where
  spare := by decide
  least := fun _ hfewer => absurd hfewer (Nat.not_lt_zero _)

theorem initialBuckets_mul_two_pow_succ (doublings : Nat) :
    initialBuckets * 2 ^ (doublings + 1) = initialBuckets * 2 ^ doublings * 2 := by
  rw [Nat.pow_succ, Nat.mul_assoc]

/-- As long as the symbols fill less than three quarters, no more doublings are needed. -/
theorem Fewest.stay (h : Fewest most doublings)
    (hspare : 4 * size < 3 * (initialBuckets * 2 ^ doublings)) :
    Fewest (max most size) doublings where
  spare := by
    have := h.spare
    omega
  least := by
    intro fewer hfewer
    have := h.least fewer hfewer
    omega

/-- When they fill three quarters and no more, it is one doubling that is needed. -/
theorem Fewest.double (h : Fewest most doublings)
    (hload : 4 * size ≤ 3 * (initialBuckets * 2 ^ doublings))
    (hcrowded : 3 * (initialBuckets * 2 ^ doublings) ≤ 4 * size) :
    Fewest (max most size) (doublings + 1) where
  spare := by
    have hpos : 0 < initialBuckets * 2 ^ doublings := Nat.mul_pos (by decide) (Nat.two_pow_pos _)
    have hspare := h.spare
    rw [initialBuckets_mul_two_pow_succ]
    omega
  least := by
    intro fewer hfewer
    have hpow : initialBuckets * 2 ^ fewer ≤ initialBuckets * 2 ^ doublings :=
      Nat.mul_le_mul_left _ (Nat.pow_le_pow_right (by decide) (Nat.le_of_lt_succ hfewer))
    omega

/-! ## The peak -/

/-- The report of a doubling, when there were so many before. -/
def doubling (doublings : Nat) : Notice :=
  .growing (initialBuckets * 2 ^ doublings) (initialBuckets * 2 ^ (doublings + 1))

/-- Growing makes room for the symbols that are there, with one doubling at most. -/
theorem Roll.grow_doublings {roll : Roll} (hcount : roll.buckets = initialBuckets * 2 ^ doublings)
    (hload : 4 * roll.symbols.length ≤ 3 * roll.buckets) (hfewest : Fewest most doublings) :
    ∃ more, roll.grow.value.buckets = initialBuckets * 2 ^ (doublings + more) ∧
      Fewest (max most roll.symbols.length) (doublings + more) ∧
      roll.grow.notices = (List.range' doublings more).map doubling := by
  rw [hcount] at hload
  unfold grow
  split
  next hcrowded =>
    have hdouble : roll.buckets * 2 = initialBuckets * 2 ^ (doublings + 1) := by
      rw [initialBuckets_mul_two_pow_succ, hcount]
    refine ⟨1, hdouble, hfewest.double hload (by omega), ?_⟩
    rw [hdouble, hcount]
    rfl
  next hroomy => exact ⟨0, hcount, hfewest.stay (by omega), rfl⟩

/-- **A request makes room for its demand.** -/
theorem Sound.serve_doublings (h : Sound index)
    (hcount : index.bucketCount = initialBuckets * 2 ^ doublings) (hfewest : Fewest most doublings)
    (request : Request) :
    ∃ more, (index.serve request).value.2.bucketCount = initialBuckets * 2 ^ (doublings + more) ∧
      Fewest (max most (index.demand request)) (doublings + more) ∧
      (index.serve request).notices = (List.range' doublings more).map doubling := by
  obtain ⟨-, hserve⟩ := h.serve request
  have hbuckets : (index.serve request).value.2.bucketCount =
      (index.roll.serve request).value.2.buckets := by
    rw [← hserve]
    rfl
  have hnotices : (index.serve request).notices = (index.roll.serve request).notices := by
    rw [← hserve, Logged.notices_map]
  rw [hbuckets, hnotices]
  -- an insertion is the only request that grows the buckets, and the only one with a demand
  have hkept : index.roll.buckets = initialBuckets * 2 ^ (doublings + 0) ∧
      Fewest (max most 0) (doublings + 0) := ⟨hcount, by rwa [Nat.max_zero]⟩
  cases request with
  | insert symbol =>
    have hload : 4 * index.roll.symbols.length ≤ 3 * index.roll.buckets := by
      have hload : index.size * 4 ≤ index.bucketCount * 3 := h.load
      show 4 * index.size ≤ 3 * index.bucketCount
      omega
    obtain ⟨more, hcount', hfewest', hnotices'⟩ := Roll.grow_doublings hcount hload hfewest
    refine ⟨more, hcount', hfewest', ?_⟩
    rw [← hnotices', Roll.serve, Logged.notices_bind]
    exact List.append_nil _
  | find symbol => exact ⟨0, hkept.1, hkept.2, rfl⟩
  | get position => exact ⟨0, hkept.1, hkept.2, rfl⟩
  | remove position => exact ⟨0, hkept.1, hkept.2, rfl⟩
  | shrink => exact ⟨0, hkept.1, hkept.2, rfl⟩
  | walk steps => exact ⟨0, hkept.1, hkept.2, rfl⟩

/-- **And requests make room for the greatest of theirs.** -/
theorem Sound.serveAll_doublings (h : Sound index)
    (hcount : index.bucketCount = initialBuckets * 2 ^ doublings) (hfewest : Fewest most doublings)
    (requests : List Request) :
    Sound (index.serveAll requests).value ∧ ∃ more,
      (index.serveAll requests).value.bucketCount = initialBuckets * 2 ^ (doublings + more) ∧
      Fewest (max most (index.peak requests)) (doublings + more) ∧
      (index.serveAll requests).notices = (List.range' doublings more).map doubling := by
  induction requests generalizing index most doublings with
  | nil => exact ⟨h, 0, hcount, by rwa [peak, Nat.max_zero], rfl⟩
  | cons request requests ih =>
    obtain ⟨first, hcount', hfewest', hnotices⟩ := h.serve_doublings hcount hfewest request
    obtain ⟨hsound, more, hcount'', hfewest'', hnotices'⟩ :=
      ih (h.serve request).1 hcount' hfewest'
    rw [serveAll, Logged.value_bind, Logged.notices_bind]
    refine ⟨hsound, first + more, ?_, ?_, ?_⟩
    · rw [← Nat.add_assoc]
      exact hcount''
    · rw [peak, ← Nat.max_assoc, ← Nat.add_assoc]
      exact hfewest''
    · rw [hnotices, hnotices', ← List.map_append, List.range'_append_1]

/-- **How many buckets an index has.**  Whatever an index that starts empty is asked for, and
    whatever the hash function, the mask goes with the buckets, which are as many as the fewest
    doublings give of which the peak leaves more than a quarter empty; each of these doublings was
    reported, in order.  So at most three quarters of the buckets are occupied, by each position
    once, at least a quarter is empty, and every loop over them ends before it has been round. -/
theorem buckets_follow_peak (hash : Hash) (requests : List Request) :
    let outcome := (empty : Index hash).serveAll requests
    let index := outcome.value
    index.mask + 1 = index.bucketCount ∧
      (∃ doublings, index.bucketCount = initialBuckets * 2 ^ doublings ∧
        Fewest ((empty : Index hash).peak requests) doublings ∧
        outcome.notices = (List.range doublings).map doubling) ∧
      4 * index.size ≤ 3 * index.bucketCount ∧
      index.buckets.toList.reduceOption.Perm (List.range index.size) ∧
      index.bucketCount ≤ 4 * index.buckets.count none ∧
      index.LoopsEnd := by
  intro outcome index
  have hcount : (empty : Index hash).bucketCount = initialBuckets * 2 ^ 0 := rfl
  obtain ⟨h, doublings, hcount, hfewest, hnotices⟩ :=
    (sound_empty : Sound (empty : Index hash)).serveAll_doublings hcount fewest_zero requests
  have hsound : index.Sound := h
  have hmask := hsound.mask_eq
  have hpos := hsound.doubled.pos
  have hload := hsound.load
  have hempty := hsound.filled.length_add_count_none
  rw [length_toList, ← bucketCount] at hempty
  rw [Nat.zero_add] at hcount hfewest
  rw [Nat.zero_max] at hfewest
  rw [← List.range_eq_range'] at hnotices
  refine ⟨?_, ⟨doublings, hcount, hfewest, hnotices⟩, ?_, hsound.filled.occupied_perm, ?_,
    hsound.loopsEnd⟩
  · omega
  · omega
  · omega

/-- Inserting a symbol that is there doubles the buckets, too, and removing one does not give them
    back. -/
example :
    let symbols := ["a", "b", "c", "d", "e", "f", "g", "h", "i", "j", "k", "l"]
    let requests : List Request := symbols.map .insert ++ [.insert "a", .remove 0]
    (((empty : Index (Hash.constant 5)).serveAll requests).value.roll,
        (empty : Index (Hash.constant 5)).peak requests) =
      (⟨symbols.tail, 32⟩, 12) := by
  cbv

end Symtab.Index
