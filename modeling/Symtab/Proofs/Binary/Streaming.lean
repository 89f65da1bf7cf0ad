import Symtab.Proofs.Binary.RoundTrip

/-!
# Reading from a stream

A reader takes the octets that it needs from the front, and what is behind them has no part in what
it answers.  So there are three ways for it to go: it takes octets, it finds a fault in octets that
are there, or it comes to their end (`Reader.Streaming`).  Only the last can become another one when
more octets arrive.

Sequences of such readers are such readers, and reading a table is one of them
(`streaming_readBinary`).  Main statements: `Reachable.truncated_writing`, a table that was cut when
it was written is found to be cut when it is read; and `Table.reading_in_sequence`, tables that are
written one behind the other are read one behind the other.
-/

set_option autoImplicit false

namespace Symtab

/-- The octets came to an end inside of a number or a string. -/
def Error.AtEnd (error : Error) : Prop :=
  error = .stream .cutInNumber ∨ error = .stream .cutInString

namespace Binary

variable {α β : Type} {error : Error}

namespace Reader

/-! ## Readers of streams -/

/-- What is behind the octets that a reader takes has no part in what it answers. -/
structure Streaming (reader : Reader α) : Prop where
  /-- What was taken is taken in the same way before other octets. -/
  taken : ∀ {octets rest answer}, reader octets = .ok (answer, rest) →
    ∃ front, octets = front ++ rest ∧ ∀ other, reader (front ++ other) = .ok (answer, other)
  /-- A fault is found also when more octets are behind it. -/
  fault : ∀ {octets error}, reader octets = .error error →
    error.AtEnd ∨ ∀ more, reader (octets ++ more) = .error error

theorem streaming_pure (answer : α) : Streaming (pure answer : Reader α) where
  taken := by
    intro octets rest other h
    obtain ⟨rfl, rfl⟩ := Prod.mk.inj (Except.ok.inj h)
    exact ⟨[], rfl, fun _ => rfl⟩
  fault := fun h => by cases h

theorem streaming_throw (error : Error) : Streaming (throw error : Reader α) where
  taken := fun h => by cases h
  fault := by
    intro octets other h
    obtain rfl := Except.error.inj h
    exact Or.inr fun _ => rfl

theorem streaming_take (count : Nat) {fault : StreamFault} (hend : (Error.stream fault).AtEnd) :
    Streaming (take count fault) where
  taken := by
    intro octets rest front h
    obtain ⟨hlength, rfl⟩ := take_eq_ok_iff.mp h
    exact ⟨front, rfl, fun other => take_append hlength other fault⟩
  fault := by
    intro octets error h
    obtain ⟨-, rfl⟩ := take_eq_error_iff.mp h
    exact Or.inl hend

/-- **Sequences of streaming readers are streaming.** -/
theorem Streaming.bind {first : Reader α} {after : α → Reader β} (hfirst : Streaming first)
    (hafter : ∀ answer, Streaming (after answer)) : Streaming (first >>= after) where
  taken := by
    intro octets rest answer h
    obtain ⟨read, between, hread, hanswer⟩ := bind_eq_ok_iff.mp h
    obtain ⟨front, rfl, hfront⟩ := hfirst.taken hread
    obtain ⟨middle, rfl, hmiddle⟩ := (hafter read).taken hanswer
    refine ⟨front ++ middle, (List.append_assoc ..).symm, fun other => ?_⟩
    rw [List.append_assoc, bind_of_ok (hfront _), hmiddle]
  fault := by
    intro octets error h
    obtain hread | ⟨read, between, hread, herror⟩ := bind_eq_error_iff.mp h
    · exact (hfirst.fault hread).imp_right fun hmore more => bind_eq_error_of_first (hmore more)
    · obtain ⟨front, rfl, hfront⟩ := hfirst.taken hread
      refine ((hafter read).fault herror).imp_right fun hmore more => ?_
      rw [List.append_assoc, bind_of_ok (hfront _), hmore]

theorem Streaming.refuse {P : Prop} [Decidable P] {next : Reader α} (h : Streaming next)
    (error : Error) : Streaming (if P then throw error else next) := by
  split
  · exact streaming_throw error
  · exact h

/-- **What is cut is found to be cut**: octets of which nothing was left over cannot be read without
    the last ones. -/
theorem Streaming.of_cut {reader : Reader α} {front back : List UInt8} {answer : α}
    (h : Streaming reader) (hread : reader (front ++ back) = .ok (answer, [])) (hback : back ≠ []) :
    ∃ error, reader front = .error error ∧ error.AtEnd := by
  cases hfront : reader front with
  | ok read =>
    obtain ⟨early, rest⟩ := read
    obtain ⟨used, rfl, hused⟩ := h.taken hfront
    rw [List.append_assoc, hused] at hread
    obtain ⟨-, hrest⟩ := Prod.mk.inj (Except.ok.inj hread)
    exact absurd (List.append_eq_nil_iff.mp hrest).2 hback
  | error error =>
    refine ⟨error, rfl, (h.fault hfront).resolve_right fun hmore => ?_⟩
    rw [hmore back] at hread
    cases hread

/-! ## The parts of the format -/

theorem streaming_int32 : Streaming int32 :=
  (streaming_take 4 (Or.inl rfl)).bind fun _ => streaming_pure _

theorem streaming_int64 : Streaming int64 :=
  (streaming_take 8 (Or.inl rfl)).bind fun _ => streaming_pure _

theorem streaming_decoded (front : List UInt8) : Streaming (decoded front) := by
  unfold decoded
  split
  · exact streaming_pure _
  · exact streaming_throw _

theorem streaming_string : Streaming string := by
  rw [string_eq]
  refine streaming_int32.bind fun length => Streaming.refuse ?_ _
  exact (streaming_take _ (Or.inr rfl)).bind streaming_decoded

theorem streaming_record : Streaming record := by
  rw [record_eq]
  refine streaming_string.bind fun symbol => streaming_int64.bind fun key => ?_
  exact (streaming_pure _).refuse _

theorem streaming_header : Streaming header := by
  rw [header_eq]
  refine streaming_int32.bind fun found => Streaming.refuse ?_ _
  refine streaming_string.bind fun name => streaming_int64.bind fun available => ?_
  exact streaming_int64.bind fun count => (streaming_pure _).refuse _

end Reader

/-! ## Replays as readers -/

variable {hash : Hash}

open Reader

/-- The replay of so many records into a table, as a reader. -/
def replaying : Nat → Table hash → Reader (Table hash)
  | 0, table => pure table
  | count + 1, table => do
    let binding ← record
    let outcome := (table.addWithKey binding.1 binding.2).value
    if outcome.1 = Key.noSymbol then throw (.duplicateKey table.name binding.1 binding.2)
    else replaying count outcome.2

theorem streaming_replaying (count : Nat) (table : Table hash) :
    Streaming (replaying count table) := by
  induction count generalizing table with
  | zero => exact streaming_pure table
  | succ count ih => exact streaming_record.bind fun binding => (ih _).refuse _

theorem replaying_eq (count : Nat) (replay : Replay hash) :
    replaying count replay.table replay.rest =
      match (Replay.run count replay).value with
      | (_, some error) => .error error
      | (last, none) => .ok (last.table, last.rest) := by
  induction count generalizing replay with
  | zero => rfl
  | succ count ih =>
    rw [replaying, Replay.value_run_succ, Replay.step]
    cases hrecord : record replay.rest with
    | error error => rw [bind_eq_error_of_first hrecord]; rfl
    | ok read =>
      obtain ⟨binding, rest⟩ := read
      rw [bind_of_ok hrecord]
      simp only [Replay.value_add]
      split
      · rfl
      · exact ih ⟨_, rest, replay.completed + 1⟩

end Binary

namespace Table

open Binary Reader

variable {hash : Hash}

/-- Reading a table is a sequence of readers. -/
theorem value_readBinary_eq (octets : List UInt8) :
    (readBinary octets : Logged (Except Error (Table hash × List UInt8))).value =
      (header >>= fun head => replaying head.count (Replay.start head []).table) octets := by
  cases hheader : header octets with
  | error error =>
    rw [readBinary, hheader, bind_eq_error_of_first hheader]
    rfl
  | ok read =>
    obtain ⟨head, rest⟩ := read
    rw [value_readBinary hheader, bind_of_ok hheader]
    exact (replaying_eq head.count (Replay.start head rest)).symm

/-- **What is behind a table has no part in how it is read.** -/
theorem streaming_readBinary (hash : Hash) : Streaming fun octets =>
    (readBinary octets : Logged (Except Error (Table hash × List UInt8))).value := by
  rw [funext value_readBinary_eq]
  exact streaming_header.bind fun head => streaming_replaying head.count _

end Table

/-! ## Writing with a limit -/

variable {left right : Hash}

/-- **A table that was cut when it was written.**  A buffer of any size takes as much of a table as
    there is room for, and the writing succeeds exactly if that is all of it.  Whatever else the
    buffer holds is not read as a table, and not taken for faulty: its end is missing. -/
theorem Reachable.truncated_writing {table : Table left} (h : Reachable table)
    (hencodable : table.Encodable) (right : Hash) :
    ∃ octets, table.toBytes = .ok octets ∧
      (∀ limit, (table.writeBinary (.bounded limit)).value =
        ⟨octets.take limit, if octets.length ≤ limit then none else some (.stream .noRoom)⟩) ∧
      (table.size < 2 ^ 63 → ∀ limit < octets.length, ∃ error,
        (Table.ofBytes (octets.take limit) : Logged (Except Error (Table right))).value =
          .error error ∧ error.AtEnd) := by
  have hsound := h.sound
  have hledger := hsound.encodable_iff.mp hencodable
  refine ⟨_, hsound.toBytes_eq_ok_iff.mpr ⟨hledger, rfl⟩, ?_, ?_⟩
  · intro limit
    rw [← hsound.octets_binarySteps hledger]
    exact Output.value_run_bounded (hsound.completes_binarySteps.mpr hledger) #[] limit
  · intro hsize limit hlimit
    rw [hsound.size_eq] at hsize
    have hread : ∃ copy : Table right, _ :=
      Table.readBinary_octets hsound.distinct hledger hsize []
    obtain ⟨copy, hread, -⟩ := hread
    rw [List.append_nil, ← List.take_append_drop limit table.ledger.octets] at hread
    have hback : table.ledger.octets.drop limit ≠ [] := by
      rw [Ne, List.drop_eq_nil_iff]
      omega
    obtain ⟨error, hcut, hend⟩ := (Table.streaming_readBinary right).of_cut hread hback
    exact ⟨error, Table.ofBytes_eq_error_iff.mpr hcut, hend⟩

/-- A cut inside of a character. -/
theorem truncated_writing_of_character :
    let filled : Table (Hash.constant 0) := .ofBindings "mots" [("\u00e9", 0), ("", -7), ("c", 1)]
    let table := (filled.remove (-7)).value.2
    Reachable table ∧ table.Encodable ∧ table.size < 2 ^ 63 ∧
      ∃ octets, table.toBytes = .ok octets ∧ 33 < octets.length ∧
        (table.writeBinary (.bounded 33)).value = ⟨octets.take 33, some (.stream .noRoom)⟩ ∧
        ∃ error, (Table.ofBytes (octets.take 33) :
          Logged (Except Error (Table Hash.mixed))).value = .error error ∧ error.AtEnd := by
  intro filled table
  have hfilled : Reachable filled := reachable_ofBindings ..
  have h : Reachable table := hfilled.remove (-7)
  have hledger : table.ledger = ⟨"mots", [("\u00e9", 0), ("c", 1)], 2⟩ := by
    rw [(hfilled.sound.remove (-7)).2.2]
    rfl
  have hencodable : table.Encodable := by
    rw [h.sound.encodable_iff, hledger]
    decide
  have hsize : table.size < 2 ^ 63 := by
    rw [h.sound.size_eq, hledger]
    decide
  obtain ⟨octets, hwritten, hlimit, hcut⟩ := h.truncated_writing hencodable Hash.mixed
  have hlong : 33 < octets.length := by
    rw [← (h.sound.toBytes_eq_ok_iff.mp hwritten).2, hledger]
    decide
  refine ⟨h, hencodable, hsize, octets, hwritten, hlong, ?_, hcut hsize 33 hlong⟩
  rw [hlimit, if_neg (Nat.not_le.mpr hlong)]

/-! ## One table behind the other -/

namespace Table

open Binary

/-- Reads so many tables, one behind the other, each with what it leaves. -/
def readMany (hash : Hash) : Nat → List UInt8 → Except Error (List (Table hash × List UInt8))
  | 0, _ => .ok []
  | count + 1, octets => do
    let (table, rest) ← (readBinary octets).value
    let others ← readMany hash count rest
    pure ((table, rest) :: others)

/-- What was written is read with the same contents, and what is behind it is left. -/
theorem Sound.exists_copy_before {table : Table left} (h : Sound table)
    (hencodable : table.Encodable) (hsize : table.size < 2 ^ 63) (right : Hash) :
    ∃ piece, table.toBytes = .ok piece ∧ ∀ behind, ∃ copy : Table right,
      (readBinary (piece ++ behind)).value = .ok (copy, behind) ∧ table.SameContents copy := by
  have hledger := h.encodable_iff.mp hencodable
  rw [h.size_eq] at hsize
  refine ⟨_, h.toBytes_eq_ok_iff.mpr ⟨hledger, rfl⟩, fun behind => ?_⟩
  have hread : ∃ copy : Table right, _ := readBinary_octets h.distinct hledger hsize behind
  obtain ⟨copy, hread, hcopy, -, hcopied⟩ := hread
  have hname : copy.ledger.name = table.name := by
    rw [hcopied, Ledger.name_extend]
    rfl
  have hbindings : copy.ledger.bindings = table.ledger.bindings := by
    rw [hcopied, Ledger.bindings_extend]
    rfl
  exact ⟨copy, hread, h.sameContents hcopy hname hbindings⟩

/-- **The format says itself where a table ends.**  Tables that are written one behind the other are
    read in this order, each with its contents, and each leaves exactly those behind it and what
    else is there.  Whatever octets are read as a table, any others could stand behind those that
    it took. -/
theorem reading_in_sequence (right : Hash) :
    (∀ tables : List (Σ left : Hash, Table left),
      (∀ written ∈ tables,
        Reachable written.2 ∧ written.2.Encodable ∧ written.2.size < 2 ^ 63) →
      ∃ pieces, tables.mapM (fun written => written.2.toBytes) = .ok pieces ∧
        ∀ behind, ∃ copies, readMany right tables.length (pieces.flatten ++ behind) = .ok copies ∧
          copies.length = tables.length ∧
          ∀ place written, tables[place]? = some written → ∃ copy,
            copies[place]? = some (copy, (pieces.drop (place + 1)).flatten ++ behind) ∧
              written.2.SameContents copy) ∧
    ∀ (octets rest : List UInt8) (table : Table right),
      (readBinary octets).value = .ok (table, rest) →
        ∃ front, octets = front ++ rest ∧
          ∀ other, (readBinary (front ++ other)).value = .ok (table, other) := by
  refine ⟨?_, fun octets rest table h => (streaming_readBinary right).taken h⟩
  intro tables h
  -- by induction on the tables, each of which leaves the octets of those behind it
  induction tables with
  | nil => exact ⟨[], rfl, fun behind => ⟨[], rfl, rfl, fun place written hat => by cases hat⟩⟩
  | cons written tables ih =>
    obtain ⟨hreachable, hencodable, hsize⟩ := h written List.mem_cons_self
    obtain ⟨piece, hwritten, hcopy⟩ :=
      hreachable.sound.exists_copy_before hencodable hsize right
    obtain ⟨pieces, hpieces, hread⟩ := ih fun other hmem => h other (List.mem_cons_of_mem _ hmem)
    refine ⟨piece :: pieces, ?_, fun behind => ?_⟩
    · rw [List.mapM_cons, hwritten, hpieces]
      rfl
    obtain ⟨copy, hfirst, hsame⟩ := hcopy (pieces.flatten ++ behind)
    obtain ⟨copies, hrest, hlength, hplaces⟩ := hread behind
    refine ⟨(copy, pieces.flatten ++ behind) :: copies, ?_, congrArg Nat.succ hlength, ?_⟩
    · rw [List.length_cons, readMany, List.flatten_cons, List.append_assoc, hfirst]
      show (readMany right tables.length (pieces.flatten ++ behind) >>= _) = _
      rw [hrest]
      rfl
    · intro place other hat
      cases place with
      | zero =>
        obtain rfl := Option.some.inj hat
        exact ⟨copy, rfl, hsame⟩
      | succ place => exact hplaces place other hat

/-- Two tables with different hash functions, the first without a name, and an octet that belongs to
    neither; and a table of which a record was passed over. -/
theorem reading_in_sequence_of_two :
    let first : Table (Hash.constant 0) := .ofBindings "" [("a", 3), ("", 0)]
    let second : Table Hash.mixed := .ofBindings "more" [("a", -5)]
    let tables : List (Σ left : Hash, Table left) := [⟨_, first⟩, ⟨_, second⟩]
    let document : Document := ⟨"words", 7, [("a", 0), ("a", 9), ("b", 1)]⟩
    (∀ written ∈ tables,
        Reachable written.2 ∧ written.2.Encodable ∧ written.2.size < 2 ^ 63) ∧
      (∃ pieces copies, tables.mapM (fun written => written.2.toBytes) = .ok pieces ∧
        readMany (Hash.constant 7) 2 (pieces.flatten ++ [255]) = .ok copies ∧
        (∃ copy, copies[0]? = some (copy, (pieces.drop 1).flatten ++ [255]) ∧
          first.SameContents copy) ∧
        ∃ copy, copies[1]? = some (copy, (pieces.drop 2).flatten ++ [255]) ∧
          second.SameContents copy) ∧
      ∃ table : Table (Hash.constant 7),
        (readBinary (document.octets ++ [255])).value = .ok (table, [255]) ∧
        ∃ front, document.octets ++ [255] = front ++ [255] ∧
          ∀ other, (readBinary (front ++ other)).value = .ok (table, other) := by
  intro first second tables document
  have hfirst : Reachable first := reachable_ofBindings ..
  have hsecond : Reachable second := reachable_ofBindings ..
  have hledger : first.ledger = ⟨"", [("a", 3), ("", 0)], 4⟩ := by rfl
  have hledger' : second.ledger = ⟨"more", [("a", -5)], 0⟩ := by rfl
  have htables : ∀ written ∈ tables,
      Reachable written.2 ∧ written.2.Encodable ∧ written.2.size < 2 ^ 63 := by
    intro written hmem
    simp only [tables, List.mem_cons, List.not_mem_nil, or_false] at hmem
    rcases hmem with rfl | rfl
    · rw [hfirst.sound.encodable_iff, hfirst.sound.size_eq, hledger]
      exact ⟨hfirst, by decide, by decide⟩
    · rw [hsecond.sound.encodable_iff, hsecond.sound.size_eq, hledger']
      exact ⟨hsecond, by decide, by decide⟩
  have hvalid : document.Valid := ⟨by decide, by decide, by decide⟩
  obtain ⟨hsequence, hbehind⟩ := reading_in_sequence (Hash.constant 7)
  obtain ⟨pieces, hpieces, hread⟩ := hsequence tables htables
  obtain ⟨copies, hcopies, -, hplaces⟩ := hread [255]
  obtain ⟨table, htable, -⟩ := readBinary_document hvalid [255]
  exact ⟨htables, ⟨pieces, copies, hpieces, hcopies, hplaces 0 _ rfl, hplaces 1 _ rfl⟩,
    table, htable, hbehind _ _ table htable⟩

end Table

end Symtab
