import Symtab.Index.Walk
import Symtab.Proofs.Index.Soundness

/-!
# Indexes in use

Indexes are asked for symbols and positions, changed, walked through, copied and put back, any
number of them side by side and in any order.  What comes of it at each turn is a `Stage`: the
response, what was reported, and what is in use then.

A `Roll` is what an index means in this: a list of symbols, and how many buckets there are.  It
says what to respond by searching the list (`Request.onList`), has no bucket and knows of no hash
function; its number of buckets counts only towards the next growth.

Main statement: `play_refines_rolls`, an index in use is a roll in use, turn by turn, whatever the
hash function.
-/

set_option autoImplicit false

namespace Symtab.Index

variable {hash : Hash} {index : Index hash} {symbol : String} {position : Nat}

/-! ## Requests -/

/-- What an index is asked for, or to do. -/
inductive Request where
  | insert (symbol : String)
  | find (symbol : String)
  | get (position : Nat)
  | remove (position : Nat)
  | shrink
  /-- Takes so many steps through the symbols. -/
  | walk (steps : Nat)
deriving DecidableEq, Repr

inductive Response where
  | inserted (position : Nat) (isNew : Bool)
  | position (found : Option Nat)
  | symbol (found : Option String)
  | walked (symbols : List (Option String))
  | done
  /-- There is no index in the slot. -/
  | vacant
deriving DecidableEq, Repr

def serve (index : Index hash) : Request → Logged (Response × Index hash)
  | .insert symbol => do
    let inserted ← index.insert symbol
    pure (.inserted inserted.position inserted.isNew, inserted.index)
  | .find symbol => pure (.position (index.find? symbol), index)
  | .get position => pure (.symbol (index.get? position), index)
  | .remove position =>
    match index.remove position with
    | some (symbol, rest) => pure (.symbol (some symbol), rest)
    | none => pure (.symbol none, index)
  | .shrink => pure (.done, index.shrink)
  | .walk steps => pure (.walked (index.walk.take steps).1, index)

/-- What a plain list responds, and what becomes of it. -/
def Request.onList (list : List String) : Request → Response × List String
  | .insert symbol =>
    match list.idxOf? symbol with
    | some position => (.inserted position false, list)
    | none => (.inserted list.length true, list ++ [symbol])
  | .find symbol => (.position (list.idxOf? symbol), list)
  | .get position => (.symbol list[position]?, list)
  | .remove position => (.symbol list[position]?, list.eraseIdx position)
  | .shrink => (.done, list)
  | .walk steps => (.walked ((List.range steps).map (list[·]?)), list)

/-! ## Rolls -/

/-- A list of symbols, and how many buckets there are for it. -/
@[ext]
structure Roll where
  symbols : List String
  buckets : Nat
deriving DecidableEq, Repr

namespace Roll

def empty : Roll := ⟨[], initialBuckets⟩

/-- Doubles the buckets if the symbols fill three quarters of them. -/
def grow (roll : Roll) : Logged Roll :=
  if roll.buckets * 3 ≤ roll.symbols.length * 4 then do
    Logged.note (.growing roll.buckets (roll.buckets * 2))
    pure { roll with buckets := roll.buckets * 2 }
  else
    pure roll

/-- Makes room, if a symbol may be inserted, and leaves the rest to the list. -/
def serve (roll : Roll) (request : Request) : Logged (Response × Roll) := do
  let roll ← match request with
    | .insert _ => roll.grow
    | _ => pure roll
  let (response, symbols) := request.onList roll.symbols
  pure (response, { roll with symbols })

end Roll

def roll (index : Index hash) : Roll := ⟨index.toList, index.bucketCount⟩

/-! ## One request -/

theorem Sound.find?_eq (h : Sound index) (symbol : String) :
    index.find? symbol = index.toList.idxOf? symbol := by
  refine Option.ext fun position => ?_
  rw [h.find?_eq_some_iff, Places.idxOf?_eq_some_iff h.nodup]

theorem Walk.take_eq (walk : Walk) (count : Nat) :
    (walk.take count).1 = (List.range count).map (walk.rest[·]?) := by
  induction count generalizing walk with
  | zero => rfl
  | succ count ih =>
    rw [take, List.range_succ_eq_map, List.map_cons, List.map_map]
    simp only [ih, next, List.getElem?_tail, List.head?_eq_getElem?]
    rfl

theorem roll_build {count : Nat} (symbols : List String) :
    (build count symbols.toArray : Index hash).roll = ⟨symbols, count⟩ := by
  rw [roll, bucketCount, build, size_bucketsOf]
  rfl

theorem roll_grow (index : Index hash) : roll <$> index.grow = index.roll.grow := by
  unfold grow Roll.grow
  by_cases hcrowded : index.isCrowded
  · have hroll : index.roll.buckets * 3 ≤ index.roll.symbols.length * 4 := by
      rw [isCrowded, decide_eq_true_eq] at hcrowded
      exact hcrowded
    rw [if_pos hcrowded, if_pos hroll]
    refine Logged.ext ?_ rfl
    exact roll_build index.toList
  · have hroll : ¬index.roll.buckets * 3 ≤ index.roll.symbols.length * 4 := by
      rw [isCrowded, decide_eq_true_eq] at hcrowded
      exact hcrowded
    rw [if_neg hcrowded, if_neg hroll]
    rfl

/-- Only growing is reported, and only growing changes the number of buckets. -/
theorem insert_grow (index : Index hash) (symbol : String) :
    (index.insert symbol).notices = index.grow.notices ∧
      (index.insert symbol).value.index.bucketCount = index.grow.value.bucketCount := by
  unfold insert
  rw [Logged.notices_bind, Logged.value_bind]
  split
  · simp
  · simp [place, bucketCount]
  · simp

/-- **An insertion responds as the list does**, and changes the symbols as it does. -/
theorem Sound.insert_onList (h : Sound index) (symbol : String) :
    Sound (index.insert symbol).value.index ∧
      (.inserted (index.insert symbol).value.position (index.insert symbol).value.isNew,
          (index.insert symbol).value.index.toList) =
        (Request.insert symbol).onList index.toList := by
  rw [Request.onList]
  by_cases hmem : symbol ∈ index.toList
  · obtain ⟨position, hat⟩ := List.mem_iff_getElem?.mp hmem
    obtain ⟨hposition, hnew, hsound, hlist⟩ := h.insert_present hat
    rw [(Places.idxOf?_eq_some_iff h.nodup).mpr hat, hposition, hnew, hlist]
    exact ⟨hsound, rfl⟩
  · obtain ⟨hposition, hnew, hsound, hlist⟩ := h.insert_absent hmem
    rw [List.idxOf?_eq_none_iff.mpr hmem, hposition, hnew, hlist]
    exact ⟨hsound, rfl⟩

theorem Sound.serve_insert (h : Sound index) (symbol : String) :
    Prod.map id roll <$> index.serve (.insert symbol) = index.roll.serve (.insert symbol) := by
  obtain ⟨-, honList⟩ := h.insert_onList symbol
  obtain ⟨-, hlist, -⟩ := h.grow_eq
  obtain ⟨hnotices, hbuckets⟩ := index.insert_grow symbol
  have hgrow := index.roll_grow
  have hgrown : index.roll.grow.value = ⟨index.toList, index.grow.value.bucketCount⟩ := by
    rw [← hgrow, ← hlist]
    rfl
  refine Logged.ext ?_ ?_
  · simp only [Roll.serve, Logged.value_bind, hgrown, ← honList, ← hbuckets]
    rfl
  · simp only [Roll.serve, Index.serve, Logged.notices_map, Logged.notices_bind, hnotices, ← hgrow,
      Logged.notices_pure]

/-- **An index serves a request as its roll does**, whatever the hash function. -/
theorem Sound.serve (h : Sound index) (request : Request) :
    Sound (index.serve request).value.2 ∧
      Prod.map id roll <$> index.serve request = index.roll.serve request := by
  cases request with
  | insert symbol => exact ⟨(h.insert_onList symbol).1, h.serve_insert symbol⟩
  | find symbol =>
    refine ⟨h, ?_⟩
    rw [Index.serve, h.find?_eq]
    rfl
  | get position =>
    refine ⟨h, ?_⟩
    rw [Index.serve, get?_eq]
    rfl
  | remove position =>
    rw [Index.serve]
    cases hat : index.toList[position]? with
    | none =>
      have hout := List.getElem?_eq_none_iff.mp hat
      rw [remove_eq_none position hout]
      refine ⟨h, Logged.ext ?_ rfl⟩
      show _ = (Response.symbol index.toList[position]?,
        (⟨index.toList.eraseIdx position, index.bucketCount⟩ : Roll))
      rw [hat, List.eraseIdx_of_length_le hout]
      rfl
    | some symbol =>
      obtain ⟨rest, hremove, hsound, hlist, hbuckets⟩ := h.remove_eq hat
      rw [hremove]
      refine ⟨hsound, Logged.ext ?_ rfl⟩
      show (Response.symbol (some symbol), rest.roll) = (Response.symbol index.toList[position]?,
        (⟨index.toList.eraseIdx position, index.bucketCount⟩ : Roll))
      rw [hat, roll, hlist, hbuckets]
  | shrink => exact ⟨h, rfl⟩
  | walk steps =>
    refine ⟨h, ?_⟩
    rw [Index.serve, Walk.take_eq]
    rfl

/-! ## Turns -/

/-- What is done with the indexes in use, which stand in slots. -/
inductive Turn where
  | ask (slot : Nat) (request : Request)
  /-- Puts a copy of an index into a new slot. -/
  | clone (slot : Nat)
  /-- Puts a copy of one index in the place of another. -/
  | restore (slot source : Nat)
deriving DecidableEq, Repr

/-- What comes of a turn. -/
structure Stage (α : Type) where
  response : Response
  notices : List Notice
  slots : List α
deriving DecidableEq, Repr

variable {α β : Type}

def Stage.map (f : α → β) : Stage α → Stage β
  | ⟨response, notices, slots⟩ => ⟨response, notices, slots.map f⟩

/-- Takes a turn with indexes, or what stands for them, that are served so. -/
def turn (serve : α → Request → Logged (Response × α)) (slots : List α) : Turn → Stage α
  | .ask slot request =>
    match slots[slot]? with
    | some index =>
      let served := serve index request
      ⟨served.value.1, served.notices, slots.set slot served.value.2⟩
    | none => ⟨.vacant, [], slots⟩
  | .clone slot =>
    match slots[slot]? with
    | some index => ⟨.done, [], slots ++ [index]⟩
    | none => ⟨.vacant, [], slots⟩
  | .restore slot source =>
    match slots[slot]?, slots[source]? with
    | some _, some index => ⟨.done, [], slots.set slot index⟩
    | _, _ => ⟨.vacant, [], slots⟩

/-- Takes turns in order, and collects what comes of each. -/
def play (serve : α → Request → Logged (Response × α)) : List α → List Turn → List (Stage α)
  | _, [] => []
  | slots, next :: rest => turn serve slots next :: play serve (turn serve slots next).slots rest

section Refinement

variable {P : α → Prop} {f : α → β} {first : α → Request → Logged (Response × α)}
  {second : β → Request → Logged (Response × β)} {slots : List α}

/-- What serves a request as its image does takes a turn as its image does. -/
theorem turn_map (hserve : ∀ index request, P index → P (first index request).value.2 ∧
      Prod.map id f <$> first index request = second (f index) request)
    (h : ∀ index ∈ slots, P index) (next : Turn) :
    (∀ index ∈ (turn first slots next).slots, P index) ∧
      (turn first slots next).map f = turn second (slots.map f) next := by
  have hset : ∀ slot index, P index → ∀ other ∈ slots.set slot index, P other := by
    intro slot index hindex other hmem
    cases List.mem_or_eq_of_mem_set hmem with
    | inl hmem => exact h other hmem
    | inr heq => exact heq ▸ hindex
  cases next with
  | ask slot request =>
    rw [turn, turn, List.getElem?_map]
    cases hat : slots[slot]? with
    | none => exact ⟨h, rfl⟩
    | some index =>
      obtain ⟨hkept, hserved⟩ := hserve index request (h index (List.mem_of_getElem? hat))
      refine ⟨hset slot _ hkept, ?_⟩
      simp only [Option.map_some, ← hserved, Logged.value_map, Logged.notices_map, Stage.map,
        List.map_set, Prod.map_fst, Prod.map_snd, id_eq]
  | clone slot =>
    rw [turn, turn, List.getElem?_map]
    cases hat : slots[slot]? with
    | none => exact ⟨h, rfl⟩
    | some index =>
      refine ⟨?_, by simp [Stage.map]⟩
      intro other hmem
      rw [List.mem_append, List.mem_singleton] at hmem
      cases hmem with
      | inl hmem => exact h other hmem
      | inr heq => exact heq ▸ h index (List.mem_of_getElem? hat)
  | restore slot source =>
    rw [turn, turn, List.getElem?_map, List.getElem?_map]
    cases slots[slot]? with
    | none => exact ⟨h, rfl⟩
    | some _ =>
      cases hat : slots[source]? with
      | none => exact ⟨h, rfl⟩
      | some index =>
        refine ⟨hset slot index (h index (List.mem_of_getElem? hat)), ?_⟩
        simp [Stage.map, List.map_set]

/-- **And so it does turn by turn.** -/
theorem play_map (hserve : ∀ index request, P index → P (first index request).value.2 ∧
      Prod.map id f <$> first index request = second (f index) request)
    (h : ∀ index ∈ slots, P index) (turns : List Turn) :
    (∀ stage ∈ play first slots turns, ∀ index ∈ stage.slots, P index) ∧
      (play first slots turns).map (Stage.map f) = play second (slots.map f) turns := by
  induction turns generalizing slots with
  | nil => exact ⟨fun stage hmem => absurd hmem List.not_mem_nil, rfl⟩
  | cons next rest ih =>
    obtain ⟨hkept, hstage⟩ := turn_map hserve h next
    obtain ⟨hall, hrest⟩ := ih hkept
    refine ⟨?_, ?_⟩
    · intro stage hmem
      cases List.mem_cons.mp hmem with
      | inl heq => exact heq ▸ hkept
      | inr hmem => exact hall stage hmem
    · rw [play, play, List.map_cons, hrest, ← hstage]
      rfl

end Refinement

/-- **An index is a list of symbols.**  Whatever is done with indexes that start empty, whatever
    the hash function, they respond at each turn as plain lists do, which hold the same symbols
    and none of them twice.  Growth and its reports, too, depend on the number of symbols alone; so
    two hash functions cannot be told apart. -/
theorem play_refines_rolls (turns : List Turn) :
    (∀ hash : Hash, (play serve [(empty : Index hash)] turns).map (Stage.map roll) =
        play Roll.serve [Roll.empty] turns) ∧
    (∀ hash : Hash, ∀ stage ∈ play serve [(empty : Index hash)] turns,
      ∀ index ∈ stage.slots, index.toList.Nodup) ∧
    ∀ left right : Hash,
      (play serve [(empty : Index left)] turns).map (Stage.map roll) =
        (play serve [(empty : Index right)] turns).map (Stage.map roll) := by
  have hplay : ∀ hash : Hash,
      (∀ stage ∈ play serve [(empty : Index hash)] turns, ∀ index ∈ stage.slots, Sound index) ∧
        (play serve [(empty : Index hash)] turns).map (Stage.map roll) =
          play Roll.serve [Roll.empty] turns := by
    intro hash
    refine play_map (fun index request h => Sound.serve h request) ?_ turns
    intro index hmem
    rw [List.mem_singleton.mp hmem]
    exact sound_empty
  refine ⟨fun hash => (hplay hash).2, ?_, ?_⟩
  · intro hash stage hstage index hindex
    exact ((hplay hash).1 stage hstage index hindex).nodup
  · intro left right
    rw [(hplay left).2, (hplay right).2]

/-- A copy keeps the symbol that was removed from the first, and in its place. -/
example :
    (play Roll.serve [Roll.empty] [.ask 0 (.insert "a"), .ask 0 (.insert "b"), .clone 0,
      .ask 0 (.remove 0), .ask 0 (.find "b"), .ask 1 (.find "b")]).map Stage.response =
    [.inserted 0 true, .inserted 1 true, .done, .symbol (some "a"), .position (some 0),
      .position (some 1)] := by
  decide

end Symtab.Index
