import Symtab.Proofs.Session

/-!
# Digests in sessions

A table keeps its digests from the first question on, and takes them along into every copy;
adding and removing drop them, and all other changes leave them where they are.

What is kept is only read to answer for digests, and then it is what would be computed.  So all
that a session replies is what it would reply without what it keeps (`Session.step_forget`), and
questions for digests change nothing else (`Session.forget_step_of_asks`).

Main statement: `Session.digests_current`.
-/

set_option autoImplicit false

namespace Symtab

/-- Two options with the same image hold nothing, or two values with the same image. -/
theorem map_eq_map_cases {α β : Type} {f : α → β} {first second : Option α}
    (h : first.map f = second.map f) :
    (first = none ∧ second = none) ∨
      ∃ a b, first = some a ∧ second = some b ∧ f a = f b := by
  cases first with
  | none =>
    cases second with
    | none => exact Or.inl ⟨rfl, rfl⟩
    | some b => cases h
  | some a =>
    cases second with
    | none => cases h
    | some b => exact Or.inr ⟨a, b, rfl, rfl, Option.some.inj h⟩

/-! ## Tables -/

namespace Table

variable {hash : Hash}

/-- The table without the digests that it keeps. -/
def forget (table : Table hash) : Table hash := { table with cache := none }

@[simp] theorem forget_forget (table : Table hash) : table.forget.forget = table.forget := rfl

@[simp] theorem forget_remember (table : Table hash) : table.remember.forget = table.forget := rfl

theorem addWithKey_forget (table : Table hash) (symbol : String) (key : Key) :
    (table.forget.addWithKey symbol key).value.1 = (table.addWithKey symbol key).value.1 ∧
      (table.forget.addWithKey symbol key).value.2 =
        (table.addWithKey symbol key).value.2.forget := by
  have hindex : table.forget.index = table.index := rfl
  have hkeys : table.forget.keys = table.keys := rfl
  have hfind : table.forget.find? key = table.find? key := rfl
  unfold addWithKey
  rw [hindex, hkeys, hfind]
  split
  · exact ⟨rfl, rfl⟩
  split
  · simp only
    split
    all_goals exact ⟨rfl, rfl⟩
  split
  all_goals exact ⟨rfl, rfl⟩

theorem addAll_forget (table : Table hash) (symbols : List String) :
    (table.forget.addAll symbols).value.2 = (table.addAll symbols).value.2.forget := by
  induction symbols generalizing table with
  | nil => rfl
  | cons symbol rest ih =>
    obtain ⟨-, hadded⟩ := table.addWithKey_forget symbol table.availableKey
    show ((table.forget.add symbol).value.2.addAll rest).value.2 = _
    rw [add, show table.forget.availableKey = table.availableKey from rfl, hadded]
    exact ih _

theorem remove_forget (table : Table hash) (key : Key) :
    (table.forget.remove key).value.1 = (table.remove key).value.1 ∧
      (table.forget.remove key).value.2 = (table.remove key).value.2.forget := by
  have hindex : table.forget.index = table.index := rfl
  have hkeys : table.forget.keys = table.keys := rfl
  unfold remove
  rw [hindex, hkeys]
  split
  all_goals exact ⟨rfl, rfl⟩

theorem apply_forget (table : Table hash) (change : Change) :
    (change.apply table.forget).value.1 = (change.apply table).value.1 ∧
      (change.apply table.forget).value.2.forget = (change.apply table).value.2.forget := by
  cases change with
  | add symbol =>
    obtain ⟨hanswer, hadded⟩ := table.addWithKey_forget symbol table.availableKey
    refine ⟨congrArg Answer.key hanswer, ?_⟩
    show (table.forget.addWithKey symbol table.availableKey).value.2.forget = _
    rw [hadded]
    rfl
  | addWithKey symbol key =>
    obtain ⟨hanswer, hadded⟩ := table.addWithKey_forget symbol key
    refine ⟨congrArg Answer.key hanswer, ?_⟩
    show (table.forget.addWithKey symbol key).value.2.forget = _
    rw [hadded]
    rfl
  | remove key =>
    obtain ⟨hanswer, hremoved⟩ := table.remove_forget key
    refine ⟨congrArg Answer.removed hanswer, ?_⟩
    show (table.forget.remove key).value.2.forget = _
    rw [hremoved]
    rfl
  | merge source =>
    refine ⟨rfl, ?_⟩
    show (table.forget.addAll (source.pairs.map Prod.snd)).value.2.forget = _
    rw [addAll_forget]
    rfl
  | rename name => exact ⟨rfl, rfl⟩
  | shrink => exact ⟨rfl, rfl⟩
  | copy => exact ⟨rfl, rfl⟩
  | refreeze => exact ⟨rfl, rfl⟩
  | digest =>
    refine ⟨rfl, ?_⟩
    show table.forget.remember.forget = table.remember.forget
    rw [forget_remember, forget_remember, forget_forget]

/-- The digests of a sound table do not come from what it keeps. -/
theorem Sound.checksums_forget {table : Table hash} (h : table.Sound) :
    table.forget.checksums = table.checksums := by
  rw [h.checksums_eq]
  rfl

theorem Sound.compatible_forget {left right : Hash} {a : Table left} {b : Table right}
    (ha : a.Sound) (hb : b.Sound) (policy : Policy) :
    compatible (some a.forget) (some b.forget) policy = compatible (some a) (some b) policy := by
  unfold compatible
  cases policy.check with
  | false => rfl
  | true =>
    simp only [ha.checksums_forget, hb.checksums_forget]
    rfl

end Table

/-! ## Sessions -/

/-- What is asked for digests, be it to compare them. -/
def Act.Asks : Act → Prop
  | .content _ | .labeled _ | .compare .. => True
  | _ => False

namespace Held

def forget : Held → Held
  | .owned table => .owned table.forget
  | .frozen kept => .frozen ⟨kept.table.forget⟩

@[simp] theorem forget_forget (held : Held) : held.forget.forget = held.forget := by
  cases held <;> rfl

@[simp] theorem forget_remember (held : Held) : held.remember.forget = held.forget := by
  cases held <;> rfl

/-- Two outcomes are the same but for what is kept. -/
def Alike (first second : Option (Reply × Held)) : Prop :=
  first.map (Prod.map id forget) = second.map (Prod.map id forget)

theorem change_forget (held : Held) (change : Change) :
    Alike (held.forget.change change) (held.change change) := by
  cases held with
  | owned table =>
    obtain ⟨hanswer, hnext⟩ := table.apply_forget change
    show some (Reply.changed (change.apply table.forget).value.1,
      owned (change.apply table.forget).value.2.forget) = _
    rw [hanswer, hnext]
    rfl
  | frozen kept => rfl

/-- What is merged is not read off what it keeps. -/
theorem change_merge_forget (held source : Held) :
    held.change (.merge source.forget.table) = held.change (.merge source.table) := by
  cases source <;> rfl

theorem freeze_forget (held : Held) : Alike held.forget.freeze held.freeze := by
  cases held <;> rfl

theorem look_forget (held : Held) : Alike held.forget.look held.look := by
  cases held <;> rfl

theorem checksums_forget {held : Held} (h : Reachable held.table) :
    held.forget.table.checksums = held.table.checksums := by
  cases held with
  | owned table => exact h.sound.checksums_forget
  | frozen kept => exact h.sound.checksums_forget

theorem ask_forget {held : Held} (h : Reachable held.table) (digest : Checksums → Digest) :
    Alike (held.forget.ask digest) (held.ask digest) := by
  unfold ask
  rw [checksums_forget h]
  simp [Alike]

theorem compatible_forget {a b : Held} (ha : Reachable a.table) (hb : Reachable b.table)
    (policy : Policy) :
    compatible (some a.forget.table) (some b.forget.table) policy =
      compatible (some a.table) (some b.table) policy := by
  cases a <;> cases b <;> exact ha.sound.compatible_forget hb.sound policy

theorem clone_forget (held : Held) : held.forget.clone.map forget = held.clone.map forget := by
  cases held <;> rfl

theorem thaw_forget (held : Held) : held.forget.thaw.map forget = held.thaw.map forget := by
  cases held <;> rfl

end Held

namespace Session

variable {session : Session} {slot : Nat} {held : Held} {act : Act}

def forget (session : Session) : Session := session.map Held.forget

/-- Two outcomes are the same but for what is kept. -/
def Alike (first second : Reply × Session) : Prop :=
  first.1 = second.1 ∧ forget first.2 = forget second.2

@[simp] theorem forget_forget (session : Session) : forget (forget session) = forget session := by
  simp [forget]

theorem forget_append (session : Session) (held : Held) :
    forget (session ++ [held]) = forget session ++ [held.forget] := by
  simp [forget]

theorem forget_set (session : Session) (slot : Nat) (held : Held) :
    forget (List.set session slot held) = List.set (forget session) slot held.forget :=
  List.map_set

theorem getElem?_forget (session : Session) (slot : Nat) :
    (forget session)[slot]? = session[slot]?.map Held.forget :=
  List.getElem?_map

@[simp] theorem forget_modify (session : Session) (slot : Nat) :
    forget (session.modify slot Held.remember) = forget session := by
  apply List.ext_getElem?
  intro place
  rw [getElem?_forget, getElem?_forget, List.getElem?_modify]
  cases session[place]? with
  | none => rfl
  | some held =>
    by_cases h : slot = place
    · simp [h]
    · simp [h]

theorem make_forget {hash : Hash} (session : Session) (made : Except Error (Table hash)) :
    Alike ((forget session).make made) (session.make made) := by
  cases made with
  | ok table => simp [Alike, make, forget_append]
  | error error => simp [Alike, make]

/-- An act on one table replies and leaves the same in a session without what it keeps, if it does
    so for each table that can come about. -/
theorem update_forget {act : Held → Option (Reply × Held)} (h : Live session) (slot : Nat)
    (hact : ∀ held, Reachable held.table → Held.Alike (act held.forget) (act held)) :
    Alike ((forget session).update slot act) (session.update slot act) := by
  unfold update
  rw [getElem?_forget]
  cases hat : session[slot]? with
  | none => exact ⟨rfl, forget_forget session⟩
  | some held =>
    rw [Option.map_some, Option.bind_some, Option.bind_some]
    -- the act is impossible for both tables, or possible for both with the same reply
    rcases map_eq_map_cases (hact held (h.get hat)) with
      ⟨hfirst, hsecond⟩ | ⟨first, second, hfirst, hsecond, heq⟩
    · rw [hfirst, hsecond]
      exact ⟨rfl, forget_forget session⟩
    · obtain ⟨hreply, hheld⟩ := Prod.mk.inj heq
      rw [hfirst, hsecond]
      refine ⟨hreply, ?_⟩
      simp only [forget_set, forget_forget, hheld]

theorem derive_forget {copy : Held → Option Held} (session : Session) (slot : Nat)
    (hcopy : ∀ held, (copy held.forget).map Held.forget = (copy held).map Held.forget) :
    Alike ((forget session).derive slot copy) (session.derive slot copy) := by
  unfold derive
  rw [getElem?_forget]
  cases session[slot]? with
  | none => exact ⟨rfl, forget_forget session⟩
  | some held =>
    rw [Option.map_some, Option.bind_some, Option.bind_some]
    rcases map_eq_map_cases (hcopy held) with
      ⟨hfirst, hsecond⟩ | ⟨first, second, hfirst, hsecond, heq⟩
    · rw [hfirst, hsecond]
      exact ⟨rfl, forget_forget session⟩
    · rw [hfirst, hsecond]
      refine ⟨rfl, ?_⟩
      simp only [forget_append, forget_forget, heq]

theorem change_forget (h : Live session) (slot : Nat) (change : Change) :
    Alike ((forget session).update slot (Held.change change))
      (session.update slot (Held.change change)) :=
  update_forget h slot fun held _ => held.change_forget change

theorem merge_forget (h : Live session) (slot source : Nat) :
    Alike ((forget session).merge slot source) (session.merge slot source) := by
  unfold merge
  rw [getElem?_forget]
  cases session[source]? with
  | none => exact ⟨rfl, forget_forget session⟩
  | some held =>
    have hsame : Held.change (.merge held.forget.table) = Held.change (.merge held.table) :=
      funext fun other => other.change_merge_forget held
    simp only [Option.map_some, hsame]
    exact change_forget h slot _

theorem compare_forget (h : Live session) (left right : Nat) (policy : Policy) :
    Alike ((forget session).compare left right policy) (session.compare left right policy) := by
  unfold compare
  rw [getElem?_forget, getElem?_forget]
  cases hleft : session[left]? with
  | none => exact ⟨rfl, forget_forget session⟩
  | some a =>
    cases hright : session[right]? with
    | none => exact ⟨rfl, forget_forget session⟩
    | some b =>
      simp only [Option.map_some, Held.compatible_forget (h.get hleft) (h.get hright)]
      refine ⟨rfl, ?_⟩
      cases policy.check with
      | true => simp
      | false => exact forget_forget session

/-- **What a session replies does not depend on what it keeps.** -/
theorem step_forget (h : Live session) (act : Act) :
    Alike ((forget session).step act) (session.step act) := by
  cases act with
  | new hash name => exact make_forget session _
  | readBinary hash octets => exact make_forget session _
  | readText hash octets source options => exact make_forget session _
  | add slot symbol => exact change_forget h slot _
  | addWithKey slot symbol key => exact change_forget h slot _
  | remove slot key => exact change_forget h slot _
  | merge slot source => exact merge_forget h slot source
  | rename slot name => exact change_forget h slot _
  | shrink slot => exact change_forget h slot _
  | clone slot => exact derive_forget session slot Held.clone_forget
  | freeze slot => exact update_forget h slot fun held _ => held.freeze_forget
  | thaw slot => exact derive_forget session slot Held.thaw_forget
  | look slot => exact update_forget h slot fun held _ => held.look_forget
  | content slot => exact update_forget h slot fun _ hheld => Held.ask_forget hheld _
  | labeled slot => exact update_forget h slot fun _ hheld => Held.ask_forget hheld _
  | compare left right policy => exact compare_forget h left right policy

/-- Sessions that differ only in what they keep reply the same all the way. -/
theorem run_eq_of_forget {first second : Session} (hfirst : Live first) (hsecond : Live second)
    (h : forget first = forget second) (acts : List Act) :
    (run first acts).1 = (run second acts).1 := by
  induction acts generalizing first second with
  | nil => rfl
  | cons act rest ih =>
    obtain ⟨hreply, hnext⟩ := step_forget hfirst act
    obtain ⟨hreply', hnext'⟩ := step_forget hsecond act
    rw [h] at hreply hnext
    have hrest := ih (hfirst.step act) (hsecond.step act) (hnext.symm.trans hnext')
    rw [run, run, hrest, ← hreply, hreply']

/-- A question for digests changes nothing but what is kept. -/
theorem forget_step_of_asks (session : Session) (hasks : act.Asks) :
    forget (session.step act).2 = forget session := by
  have hask : ∀ slot digest, forget (session.update slot (Held.ask digest)).2 = forget session := by
    intro slot digest
    unfold update
    cases hat : session[slot]? with
    | none => rfl
    | some held =>
      rw [Option.bind_some, Held.ask, forget_set, Held.forget_remember, ← forget_set]
      obtain ⟨hlt, rfl⟩ := List.getElem?_eq_some_iff.mp hat
      rw [List.set_getElem_self]
  cases act with
  | content slot => exact hask slot Checksums.content
  | labeled slot => exact hask slot Checksums.labeled
  | compare left right policy =>
    show forget (session.compare left right policy).2 = forget session
    unfold compare
    split
    next =>
      cases policy.check with
      | true => simp
      | false => rfl
    next => rfl
  | _ => cases hasks

/-- **What is kept is never out of date.**  Whatever was done in a session, the digests that a
    table keeps are those of its bindings.  So asking for a digest answers what would be computed,
    and whoever asks in between leaves all later replies as they are. -/
theorem digests_current (acts : List Act) :
    let session := (run [] acts).2
    (∀ held ∈ session, Reachable held.table ∧
      ∀ sums, held.table.cache = some sums → sums = held.table.computeChecksums) ∧
    (∀ slot held, session[slot]? = some held →
      (session.step (.content slot)).1 = .digest held.table.computeChecksums.content ∧
        (session.step (.labeled slot)).1 = .digest held.table.computeChecksums.labeled) ∧
    ∀ question : Act, question.Asks → ∀ later,
      (run (session.step question).2 later).1 = (run session later).1 := by
  intro session
  have hlive : Live session := Live.run (fun held hmem => absurd hmem List.not_mem_nil) acts
  refine ⟨?_, ?_, ?_⟩
  · intro held hmem
    exact ⟨hlive held hmem, (hlive held hmem).sound.cache⟩
  · intro slot held hat
    have hanswer : ∀ digest, (session.update slot (Held.ask digest)).1 =
        .digest (digest held.table.computeChecksums) := by
      intro digest
      rw [update, hat, Option.bind_some, Held.ask, (hlive.get hat).sound.checksums_eq]
    exact ⟨hanswer Checksums.content, hanswer Checksums.labeled⟩
  · intro question hasks later
    exact run_eq_of_forget (hlive.step question) hlive (session.forget_step_of_asks hasks) later

/-- A copy takes the kept digests along, and they are right for both tables. -/
theorem digests_current_of_copy :
    let acts : List Act := [.new (Hash.constant 0) "words", .addWithKey 0 "a" 7, .content 0,
      .clone 0, .freeze 0, .rename 1 "copy"]
    let session := (run [] acts).2
    ∃ frozen copy : Held, session[0]? = some frozen ∧ session[1]? = some copy ∧
      frozen.table.cache = some frozen.table.computeChecksums ∧
      copy.table.cache = some copy.table.computeChecksums ∧
      (session.step (.labeled 1)).1 = .digest copy.table.computeChecksums.labeled ∧
      (run (session.step (.labeled 1)).2 [.remove 1 7, .content 1]).1 =
        (run session [.remove 1 7, .content 1]).1 := by
  intro acts session
  obtain ⟨hcurrent, hanswer, hlater⟩ := digests_current acts
  have hkept : ∀ held ∈ session, held.table.cache.isSome = true →
      held.table.cache = some held.table.computeChecksums := by
    intro held hmem hsome
    obtain ⟨sums, hsums⟩ := Option.isSome_iff_exists.mp hsome
    rw [hsums, (hcurrent held hmem).2 sums hsums]
  refine ⟨_, _, rfl, rfl, ?_, ?_, ?_, ?_⟩
  · exact hkept _ (List.mem_of_getElem? (i := 0) rfl) rfl
  · exact hkept _ (List.mem_of_getElem? (i := 1) rfl) rfl
  · exact (hanswer 1 _ rfl).2
  · exact hlater (.labeled 1) trivial _

end Session
end Symtab
