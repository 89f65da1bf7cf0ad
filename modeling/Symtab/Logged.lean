import Symtab.Notice

/-!
# Answers with notices

An operation that may report something answers a `Logged` value: the answer itself and the
notices in the order in which they arose.  Operations compose with `do`; the notices of the
first come before those of the second.

Main statements: `value_bind` and `notices_bind`, which say what each half of a composed
operation is.  By the first, an answer can be studied without its notices.
-/

set_option autoImplicit false

namespace Symtab

/-- An answer and what was reported on the way to it. -/
@[ext]
structure Logged (α : Type) where
  value : α
  notices : List Notice
deriving Repr

namespace Logged

variable {α β : Type}

instance : Monad Logged where
  pure a := ⟨a, []⟩
  bind
    | ⟨value, earlier⟩, rest =>
      match rest value with
      | ⟨result, later⟩ => ⟨result, earlier ++ later⟩

def note (notice : Notice) : Logged Unit :=
  ⟨(), [notice]⟩

@[simp] theorem value_pure (a : α) : (pure a : Logged α).value = a := rfl

@[simp] theorem notices_pure (a : α) : (pure a : Logged α).notices = [] := rfl

@[simp] theorem value_bind (first : Logged α) (rest : α → Logged β) :
    (first >>= rest).value = (rest first.value).value := rfl

@[simp] theorem notices_bind (first : Logged α) (rest : α → Logged β) :
    (first >>= rest).notices = first.notices ++ (rest first.value).notices := rfl

@[simp] theorem value_map (f : α → β) (first : Logged α) :
    (f <$> first).value = f first.value := rfl

@[simp] theorem notices_map (f : α → β) (first : Logged α) :
    (f <$> first).notices = first.notices :=
  List.append_nil _

@[simp] theorem notices_note (notice : Notice) : (note notice).notices = [notice] := rfl

instance : LawfulMonad Logged :=
  LawfulMonad.mk' Logged
    (fun _ => Logged.ext rfl (List.append_nil _))
    (fun _ _ => rfl)
    (fun _ _ _ => Logged.ext rfl (List.append_assoc ..))

end Logged
end Symtab
