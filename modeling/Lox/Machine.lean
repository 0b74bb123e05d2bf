import Std.Data.HashMap
import Lox.Heap
import Lox.Resolution
import Lox.Sink

/-! # The machine

The state of a running program and the steps that read and change it.  A step ends normally, or leaves
by one of five exits, and keeps the state in either case.  The scope chain and the number of open calls
are part of the state: `within` puts another chain in place for the length of one action, `deeper` counts
one more call, and `enter` changes the chain until it is changed back. -/

namespace Lox

/-- How uses of names find their binding. -/
inductive Lookup where
  /-- In the frame at the resolved distance, or among the globals when there is none. -/
  | byDistance
  /-- By search outward along the scope chain. -/
  | bySearch
  deriving DecidableEq, Repr

/-- What a run is given besides the program. -/
structure Settings where
  /-- How many calls may be open at once, if there is a bound. -/
  callLimit : Option Nat
  lookup : Lookup
  /-- The time in microseconds at each reading of the clock. -/
  clock : Nat → Nat
  /-- How deep evaluation may nest, and how often a loop may run. -/
  fuel : Nat

/-- The default settings: 16384 open calls, look-up by distance, a clock that advances by one with each
reading, and more fuel than a run can use. -/
def Settings.standard : Settings where
  callLimit := some 16384
  lookup := .byDistance
  clock reading := 1700000000000000 + reading
  fuel := 1 <<< 48

/-- The state of a running program. -/
structure Machine where
  heap : Heap
  /-- The scope chain of the current place. -/
  env : Env
  /-- The distances of all resolved uses of names. -/
  distances : Std.HashMap NodeId Nat
  /-- How many calls are open. -/
  depth : Nat
  sink : Sink
  /-- How often the clock has been read. -/
  readings : Nat

/-- A machine before its first program: the globals hold `clock`. -/
def Machine.start (sink : Sink) : Machine where
  heap := Heap.empty.define globalFrame "clock" .clock
  env := [globalFrame]
  distances := ∅
  depth := 0
  sink := sink
  readings := 0

/-- The ways to leave an action before its end. -/
inductive Exit where
  /-- A `return` on its way to the call it belongs to. -/
  | returned (value : Value)
  /-- A fault of the program. -/
  | failed (e : RuntimeError)
  /-- Output was refused. -/
  | refused (fault : SinkFault)
  /-- A breach of what resolution guarantees. -/
  | inconsistent (breach : Inconsistency)
  /-- The fuel ran out. -/
  | exhausted

/-- What a program does: reads and changes the machine, and ends normally or by an exit. -/
abbrev Action := EStateM Exit Machine

namespace Action

variable {α : Type}

/-- Leaves with a fault at a line. -/
def fail (fault : RuntimeFault) (line : Nat) : Action α := throw (.failed ⟨fault, line⟩)

/-- Leaves with a breach, if there is one. -/
def sound : Except Inconsistency α → Action α
  | .ok a => pure a
  | .error breach => throw (.inconsistent breach)

/-! ### Brackets -/

/-- Runs an action in another scope chain. -/
def within (env : Env) (action : Action α) : Action α := fun m =>
  let saved := m.env
  match action { m with env := env } with
  | .ok a m => .ok a { m with env := saved }
  | .error e m => .error e { m with env := saved }

/-- Runs an action as one more open call: counts up before it, and down after it. -/
def deeper (action : Action α) : Action α := fun m =>
  match action { m with depth := m.depth + 1 } with
  | .ok a m => .ok a { m with depth := m.depth - 1 }
  | .error e m => .error e { m with depth := m.depth - 1 }

/-- Makes another scope chain the current one. -/
def enter (env : Env) : Action Unit := modify fun m => { m with env := env }

/-- Runs the body of a function: the value of the `return` that leaves it, or `nil`. -/
def returning (body : Action Unit) : Action Value := fun m =>
  match body m with
  | .ok () m => .ok .nil m
  | .error (.returned value) m => .ok value m
  | .error e m => .error e m

/-! ### The heap -/

/-- Changes the heap. -/
def modifyHeap (f : Heap → Heap) : Action Unit := fun m =>
  let ⟨heap, env, distances, depth, sink, readings⟩ := m
  .ok () ⟨f heap, env, distances, depth, sink, readings⟩

/-- Changes the heap and takes a result from the change. -/
def updateHeap (f : Heap → α × Heap) : Action α := fun m =>
  let ⟨heap, env, distances, depth, sink, readings⟩ := m
  let (a, heap) := f heap
  .ok a ⟨heap, env, distances, depth, sink, readings⟩

/-- Binds a name in the innermost frame. -/
def define (name : String) (value : Value) : Action Unit := do
  match (← get).env with
  | frame :: _ => modifyHeap (·.define frame name value)
  | [] => pure ()

/-- Adds a frame with given bindings inside a chain. -/
def nest (slots : Slots) (env : Env) : Action Env := do
  let frame ← updateHeap (·.newFrame slots)
  return frame :: env

/-- The value of a function, told apart from all others. -/
def newFunction (closure : Closure) : Action Value := do
  return .function (← updateHeap Heap.newId) closure

/-! ### Names -/

/-- The distance of a use of a name, if it is local. -/
def distance? (id : NodeId) : Action (Option Nat) := return (← get).distances[id]?

/-- The value of a name by search along a chain. -/
def searchIn (env : Env) (name : Lexeme) : Action Value := do
  match (← get).heap.search env name.text with
  | some value => return value
  | none => fail (.undefinedVariable name.text) name.line

/-- Assigns to a name by search along a chain. -/
def assignIn (env : Env) (name : Lexeme) (value : Value) : Action Unit := do
  match (← get).heap.findFrame? env name.text with
  | some frame => modifyHeap (·.define frame name.text value)
  | none => fail (.undefinedVariable name.text) name.line

/-- The value in the frame at a distance. -/
def valueAt (distance : Nat) (name : String) : Action Value := do
  let m ← get
  sound (m.heap.getAt m.env distance name)

/-- Assigns to a name in the frame at a distance. -/
def assignAt (distance : Nat) (name : String) (value : Value) : Action Unit := do
  let m ← get
  let frame ← sound (m.heap.bindingFrameAt m.env distance name)
  modifyHeap (·.define frame name value)

/-- The value of a use of a name. -/
def read (lookup : Lookup) (ref : Reference NodeId) : Action Value := do
  match lookup with
  | .bySearch => searchIn (← get).env ref.name
  | .byDistance =>
    match ← distance? ref.id with
    | some distance => valueAt distance ref.name.text
    | none => searchIn [globalFrame] ref.name

/-- Gives the name of a use a new value. -/
def write (lookup : Lookup) (ref : Reference NodeId) (value : Value) : Action Unit := do
  match lookup with
  | .bySearch => assignIn (← get).env ref.name value
  | .byDistance =>
    match ← distance? ref.id with
    | some distance => assignAt distance ref.name.text value
    | none => assignIn [globalFrame] ref.name value

/-- The instance in the frame just inside the one at a distance; inside the innermost frame there is
none. -/
def instanceInside : (distance : Nat) → Action Value
  | 0 => throw (.inconsistent .misplacedSuper)
  | inner + 1 => valueAt inner "this"

/-- The superclass and the instance that a use of `super` stands for.  The instance is bound in the
frame just inside the one that binds the superclass. -/
def readSuper (lookup : Lookup) (ref : Reference NodeId) (method : Lexeme) : Action (Value × Value) := do
  match lookup with
  | .bySearch =>
    let superclass ← searchIn (← get).env ref.name
    return (superclass, ← searchIn (← get).env { ref.name with text := "this" })
  | .byDistance =>
    match ← distance? ref.id with
    | some distance => return (← valueAt distance "super", ← instanceInside distance)
    | none => throw (.inconsistent (.unresolvedSuper method.line))

/-! ### Output and the clock -/

/-- Writes a value on a line of its own. -/
def printLine (value : Value) : Action Unit := fun m =>
  let ⟨heap, env, distances, depth, sink, readings⟩ := m
  match sink.write (value.text ++ "\n").toUTF8 with
  | (none, sink) => .ok () ⟨heap, env, distances, depth, sink, readings⟩
  | (some fault, sink) => .error (.refused fault) ⟨heap, env, distances, depth, sink, readings⟩

/-- Reads the clock, in seconds. -/
def readClock (clock : Nat → Nat) : Action Value := fun m =>
  .ok (.number (Float.ofNat (clock m.readings) / 1000000)) { m with readings := m.readings + 1 }

end Action

end Lox
