import Lox.Value

/-! # Frames and instances

The heap holds the scope frames and the fields of instances.  A name can be looked up in two ways: by
search, outward along a scope chain to the first frame that binds it, or in the one frame at a given
distance.  An assignment replaces the value of a name that is bound; it never adds one. -/

namespace Lox

/-- Names with their values, no name twice. -/
abbrev Slots := List (String × Value)

namespace Slots

/-- Binds a name, replacing what it was bound to. -/
def define (slots : Slots) (name : String) (value : Value) : Slots :=
  match slots with
  | [] => [(name, value)]
  | (n, v) :: rest => if n = name then (n, value) :: rest else (n, v) :: define rest name value

theorem lookup_define_self (slots : Slots) (name : String) (value : Value) :
    (slots.define name value).lookup name = some value := by
  fun_induction define slots name value with
  | case1 => simp
  | case2 v rest => simp
  | case3 n v rest hn ih => simp [List.lookup_cons, beq_false_of_ne (Ne.symm hn), ih]

theorem lookup_define_of_ne (slots : Slots) {name other : String} (value : Value)
    (h : other ≠ name) : (slots.define name value).lookup other = slots.lookup other := by
  fun_induction define slots name value with
  | case1 => simp [List.lookup_cons, beq_false_of_ne h]
  | case2 v rest => simp [List.lookup_cons, beq_false_of_ne h]
  | case3 n v rest hn ih => simp [List.lookup_cons, ih]

/-- Is a name bound? -/
def binds (slots : Slots) (name : String) : Bool := (slots.lookup name).isSome

end Slots

/-- The frames, the fields of the instances, and the next number for a function or class. -/
structure Heap where
  frames : Array Slots
  fields : Array Slots
  nextId : Nat

/-- A breach of what resolution guarantees: a fault of the interpreter, not of the program. -/
inductive Inconsistency where
  /-- The frame at a resolved distance does not bind the name. -/
  | unbound (name : String) (distance : Nat)
  /-- The scope chain is shorter than a resolved distance. -/
  | chainEnds (distance hops : Nat)
  /-- A use of a superclass has no distance. -/
  | unresolvedSuper (line : Nat)
  /-- The frames of a method do not hold a class and an instance. -/
  | misplacedSuper
  deriving DecidableEq, Repr

/-- The wording of a breach. -/
def Inconsistency.message (i : Inconsistency) : String :=
  "internal error: entered unreachable code: " ++
    match i with
    | unbound name distance =>
      "'" ++ name ++ "' not bound at resolved distance " ++ toString distance
    | chainEnds distance hops =>
      "resolved distance " ++ toString distance ++ " but scope chain ends after " ++ toString hops ++
        " hop(s)"
    | unresolvedSuper line => "'super' at line " ++ toString line ++ " was never resolved"
    | misplacedSuper => "'super'/'this' frames hold a class and an instance"

/-- The number of the frame of globals. -/
def globalFrame : FrameId := 0

namespace Heap

/-- A heap with an empty frame of globals. -/
def empty : Heap := ⟨#[[]], #[], 0⟩

/-- The bindings of a frame. -/
def slots (h : Heap) (frame : FrameId) : Slots := h.frames.getD frame []

/-- Adds a frame with given bindings, and gives its number. -/
def newFrame (h : Heap) (slots : Slots) : FrameId × Heap :=
  (h.frames.size, { h with frames := h.frames.push slots })

/-- Adds an instance without fields, and gives its number. -/
def newInstance (h : Heap) : Nat × Heap :=
  (h.fields.size, { h with fields := h.fields.push [] })

/-- Gives a number that no function or class had before. -/
def newId (h : Heap) : Nat × Heap := (h.nextId, { h with nextId := h.nextId + 1 })

/-- Binds a name in a frame, replacing what it was bound to there. -/
def define (h : Heap) (frame : FrameId) (name : String) (value : Value) : Heap :=
  { h with frames := h.frames.modify frame (·.define name value) }

/-- Does a frame bind a name? -/
def binds (h : Heap) (frame : FrameId) (name : String) : Bool := (h.slots frame).binds name

/-! ### Look-up by search -/

/-- The first frame of a chain that binds a name. -/
def findFrame? (h : Heap) (env : Env) (name : String) : Option FrameId := env.find? (h.binds · name)

/-- The value of a name in the first frame of a chain that binds it. -/
def search (h : Heap) (env : Env) (name : String) : Option Value :=
  env.findSome? fun frame => (h.slots frame).lookup name

/-- Gives a name a new value in the first frame of a chain that binds it. -/
def assignSearch (h : Heap) (env : Env) (name : String) (value : Value) : Option Heap :=
  (h.findFrame? env name).map fun frame => h.define frame name value

/-! ### Look-up by distance -/

/-- The frame at a distance along a chain. -/
def frameAt (env : Env) (distance : Nat) : Except Inconsistency FrameId :=
  match env[distance]? with
  | some frame => .ok frame
  | none => .error (.chainEnds distance (env.length - 1))

/-- The frame at a distance along a chain, which must bind a name. -/
def bindingFrameAt (h : Heap) (env : Env) (distance : Nat) (name : String) :
    Except Inconsistency FrameId := do
  let frame ← frameAt env distance
  if h.binds frame name then .ok frame else .error (.unbound name distance)

/-- The value of a name in the frame at a distance. -/
def getAt (h : Heap) (env : Env) (distance : Nat) (name : String) : Except Inconsistency Value := do
  let frame ← frameAt env distance
  match (h.slots frame).lookup name with
  | some value => .ok value
  | none => .error (.unbound name distance)

/-- Gives a name a new value in the frame at a distance. -/
def assignAt (h : Heap) (env : Env) (distance : Nat) (name : String) (value : Value) :
    Except Inconsistency Heap :=
  (h.bindingFrameAt env distance name).map fun frame => h.define frame name value

/-! ### Fields -/

/-- The value of a field of an instance, if it was ever set. -/
def field? (h : Heap) (object : Nat) (name : String) : Option Value :=
  (h.fields.getD object []).lookup name

/-- Sets a field of an instance. -/
def setField (h : Heap) (object : Nat) (name : String) (value : Value) : Heap :=
  { h with fields := h.fields.modify object (·.define name value) }

end Heap

end Lox
