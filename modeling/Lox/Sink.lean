import Lox.Diagnostic

/-! # Output

A sink takes bytes until its room is used up; a write that does not fit is taken in part.  What a sink
holds is passed on when it is flushed, which may fail as well. -/

namespace Lox

/-- Where a program's output goes. -/
structure Sink where
  /-- The bytes taken so far. -/
  taken : ByteArray
  /-- How many more bytes there is room for, if there is a bound. -/
  room : Option Nat
  /-- Does passing the bytes on fail? -/
  flushFails : Bool

namespace Sink

/-- A sink with nothing in it. -/
def fresh (room : Option Nat) (flushFails : Bool) : Sink := ⟨.empty, room, flushFails⟩

/-- A sink that never fails. -/
def unlimited : Sink := fresh none false

/-- Writes bytes: all of them, or those that fit, and then there is no room left. -/
def write (s : Sink) (bytes : ByteArray) : Option SinkFault × Sink :=
  match s.room with
  | none => (none, { s with taken := s.taken ++ bytes })
  | some room =>
    if bytes.size ≤ room then
      (none, { s with taken := s.taken ++ bytes, room := some (room - bytes.size) })
    else
      (some .full, { s with taken := s.taken ++ bytes.extract 0 room, room := some 0 })

/-- A sink takes the bytes that fit, and refuses exactly when some do not. -/
theorem write_of_room (s : Sink) {room : Nat} (h : s.room = some room) (bytes : ByteArray) :
    (s.write bytes).2.taken = s.taken ++ bytes.extract 0 (min room bytes.size) ∧
      ((s.write bytes).1 = none ↔ bytes.size ≤ room) := by
  unfold write
  rw [h]
  by_cases hr : bytes.size ≤ room
  · rw [Nat.min_eq_right hr]
    simp [hr]
  · rw [Nat.min_eq_left (Nat.le_of_not_le hr)]
    simp [hr]

/-- Passes on what was taken. -/
def flush (s : Sink) : Option SinkFault := if s.flushFails then some .closed else none

end Sink

end Lox
