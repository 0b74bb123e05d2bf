/-! # Deep recursion

Programs nest as deeply as their authors like, and the functions that walk them recurse as deeply.  A
recursion with a depth counter can hand every few hundred levels over to a fresh stack; `relay_eq` says
that the value is the same. -/

namespace Lox

/-- The value of `f`, computed on a stack of its own. -/
def onFreshStack {α : Type} (f : Unit → α) : α := (Task.spawn f Task.Priority.dedicated).get

/-- The value of `f`, computed on a stack of its own when `level` is a multiple of `stride`. -/
@[inline] def relay {α : Type} (stride level : Nat) (f : Unit → α) : α :=
  if level % stride = 0 then onFreshStack f else f ()

theorem onFreshStack_eq {α : Type} (f : Unit → α) : onFreshStack f = f () := rfl

@[simp] theorem relay_eq {α : Type} (stride level : Nat) (f : Unit → α) :
    relay stride level f = f () := by
  unfold relay
  split <;> rfl

end Lox
