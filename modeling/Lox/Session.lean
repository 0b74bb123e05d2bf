import Lox.Eval
import Lox.Program

/-! # Sessions

A session runs one source text after another on the same machine: globals, functions and instances of
one run are there in the next.  A text that is rejected changes nothing; a run that fails leaves the
machine ready for the next. -/

namespace Lox

/-- How a step of a session ends. -/
inductive Outcome (α : Type) where
  | done (a : α)
  /-- The text was not accepted, and nothing was run. -/
  | rejected (faults : List Diagnostic)
  /-- The run stopped at a fault of the program or of the output. -/
  | failed (fault : Diagnostic)
  /-- The run stopped at a breach of what resolution guarantees. -/
  | inconsistent (breach : Inconsistency)
  /-- The fuel ran out. -/
  | exhausted

/-- A machine, and the next number for a node of a tree. -/
structure Session where
  machine : Machine
  nextNode : NodeId

namespace Session

/-- A new session that prints to a sink. -/
def start (sink : Sink) : Session := ⟨.start sink, 0⟩

/-- The outcome of an exit that ended a run. -/
def outcomeOf {α : Type} : Exit → Outcome α
  | .failed e => .failed (.runtime e)
  | .refused fault => .failed (.sink fault)
  | .inconsistent breach => .inconsistent breach
  | .returned _ | .exhausted => .exhausted

/-- Passes on what a run printed. -/
def flushed (m : Machine) : Outcome Unit :=
  match m.sink.flush with
  | none => .done ()
  | some fault => .failed (.sink fault)

/-- Runs statements at the top level.  A `return` there ends the run without a fault.  What was printed
is passed on at the end; when the run failed, its own fault is the one reported. -/
def interpret (settings : Settings) (body : List (Stmt NodeId)) (m : Machine) :
    Outcome Unit × Machine :=
  match runAll (exec settings settings.fuel) body m with
  | .ok () m => (flushed m, m)
  | .error (.returned _) m => (flushed m, m)
  | .error e m => (outcomeOf e, m)

/-- Adds the distances of a program to those of the programs before it. -/
def learn (m : Machine) (distances : Distances) : Machine :=
  { m with distances := m.distances.insertMany distances }

/-- Runs a source text. -/
def run (settings : Settings) (s : Session) (source : String) : Outcome Unit × Session :=
  match analyze s.nextNode source with
  | .error faults => (.rejected faults, s)
  | .ok (program, next) =>
    let (outcome, m) := interpret settings program.statements (learn s.machine program.distances)
    (outcome, ⟨m, next⟩)

/-- Evaluates a source text that is one expression. -/
def evaluate (settings : Settings) (s : Session) (source : String) : Outcome Value × Session :=
  match analyzeExpression s.nextNode source with
  | .error faults => (.rejected faults, s)
  | .ok (lone, next) =>
    match eval settings settings.fuel lone.expr (learn s.machine lone.distances) with
    | .ok value m => (.done value, ⟨m, next⟩)
    | .error e m => (outcomeOf e, ⟨m, next⟩)

/-- Runs a source text without resolving its names, so that all of them are looked up among the globals;
faults of the text are passed over. -/
def runUnresolved (settings : Settings) (s : Session) (source : String) : Outcome Unit × Session :=
  match parseProgram (tokensOf (scan source)) with
  | .error faults => (.rejected (faults.map .parse), s)
  | .ok body =>
    let (statements, next) := Stmt.numberAll s.nextNode body
    let (outcome, m) := interpret settings statements s.machine
    (outcome, ⟨m, next⟩)

/-- Gives the session a new sink, and takes what the old one holds. -/
def replaceSink (s : Session) (sink : Sink) : ByteArray × Session :=
  (s.machine.sink.taken, { s with machine := { s.machine with sink := sink } })

end Session

end Lox
