import Lox.Machine
import Lox.Recursion

/-! # Evaluation

The meaning of expressions and statements.  `Expr.evalWith` and `Stmt.execWith` say what one node does,
given the meaning of the nodes inside it and of the function bodies it calls; `eval` and `exec` tie the
knot, with fuel that bounds how deep evaluation nests. -/

namespace Lox

open Lox.Action

/-! ### Operators -/

/-- Applies an operator of one operand. -/
def UnaryOp.apply (op : UnaryOp) (line : Nat) (operand : Value) : Action Value :=
  match op, operand with
  | .not, v => pure (.bool !v.truthy)
  | .negate, .number x => pure (.number (-x))
  | .negate, _ => fail .operandNotNumber line

/-- Applies an operator that wants two numbers. -/
def withNumbers (f : Float → Float → Value) (line : Nat) (left right : Value) : Action Value :=
  match left, right with
  | .number a, .number b => pure (f a b)
  | _, _ => fail .operandsNotNumbers line

/-- The sum of two numbers; any other two values are joined as texts. -/
def Value.plus : Value → Value → Value
  | .number a, .number b => .number (a + b)
  | a, b => .string (a.text ++ b.text)

/-- Applies an operator of two operands. -/
def BinaryOp.apply (op : BinaryOp) (line : Nat) (left right : Value) : Action Value :=
  match op with
  | .equal => pure (.bool (left.equals right))
  | .notEqual => pure (.bool !left.equals right)
  | .add => pure (left.plus right)
  | .subtract => withNumbers (fun a b => .number (a - b)) line left right
  | .multiply => withNumbers (fun a b => .number (a * b)) line left right
  | .divide => withNumbers (fun a b => .number (a / b)) line left right
  | .greater => withNumbers (fun a b => .bool (a > b)) line left right
  | .greaterEqual => withNumbers (fun a b => .bool (a ≥ b)) line left right
  | .less => withNumbers (fun a b => .bool (a < b)) line left right
  | .lessEqual => withNumbers (fun a b => .bool (a ≤ b)) line left right

/-- Does the first operand settle the result? -/
def LogicalOp.settledBy (op : LogicalOp) (left : Value) : Bool :=
  match op with
  | .and => !left.truthy
  | .or => left.truthy

/-! ### Calls -/

/-- Runs statements in order. -/
def runAll (exec : Stmt NodeId → Action Unit) : List (Stmt NodeId) → Action Unit
  | [] => pure ()
  | s :: rest => do
    exec s
    runAll exec rest

/-- The bindings of parameters to arguments, in order. -/
def bindParams (params : List Lexeme) (values : List Value) : Slots :=
  (params.zip values).foldl (fun slots (param, value) => slots.define param.text value) []

/-- Runs a function in a frame of its own inside the chain it was made in; an initializer yields the
instance it is bound to, whatever it returns. -/
def Closure.invoke (exec : Stmt NodeId → Action Unit) (f : Closure) (values : List Value) :
    Action Value := do
  let env ← nest (bindParams f.decl.params values) f.env
  let result ← returning (within env (runAll exec f.decl.body))
  if f.isInitializer then
    let m ← get
    sound (m.heap.getAt f.env 0 "this")
  else return result

/-- A method with one more frame around it, which binds `this`. -/
def Closure.bindTo (object : Value) (f : Closure) : Action Closure := do
  return { f with env := ← nest [("this", object)] f.env }

/-- Makes an instance and runs the nearest initializer on it. -/
def Class.construct (exec : Stmt NodeId → Action Unit) (c : Class) (values : List Value) :
    Action Value := do
  let object := Value.instance_ (← updateHeap Heap.newInstance) c
  if let some initializer := c.find? initializerName then
    let _ ← (← initializer.bindTo object).invoke exec values
  return object

/-- Calls what can be called: the clock, a function, or a class, which makes an instance. -/
def Callable.call (settings : Settings) (exec : Stmt NodeId → Action Unit) (callee : Callable)
    (values : List Value) : Action Value :=
  match callee with
  | .clock => readClock settings.clock
  | .function closure => closure.invoke exec values
  | .cls c => c.construct exec values

/-- Calls a value after checking that it can be called, that the number of arguments is right, and
that not too many calls are open, in this order. -/
def Value.call (settings : Settings) (exec : Stmt NodeId → Action Unit) (value : Value) (line : Nat)
    (values : List Value) : Action Value := do
  match value.callable? with
  | none => fail .notCallable line
  | some callee =>
    if values.length ≠ callee.arity then fail (.arity callee.arity values.length) line
    else if settings.callLimit.any (· ≤ (← get).depth) then fail .stackOverflow line
    else deeper (callee.call settings exec values)

/-! ### Properties -/

/-- Reads a property: a field, or else a method bound to the instance. -/
def Value.property (object : Value) (name : Lexeme) : Action Value := do
  match object with
  | .instance_ id c =>
    match (← get).heap.field? id name.text with
    | some value => return value
    | none =>
      match c.find? name.text with
      | some method => newFunction (← method.bindTo object)
      | none => fail (.undefinedProperty name.text) name.line
  | _ => fail .noProperties name.line

/-- The method that a use of `super` names, bound to the instance. -/
def superMethod (superclass object : Value) (method : Lexeme) : Action Value :=
  match superclass, object with
  | .cls c, .instance_ .. =>
    match c.find? method.text with
    | some found => do newFunction (← found.bindTo object)
    | none => fail (.undefinedProperty method.text) method.line
  | _, _ => throw (.inconsistent .misplacedSuper)

/-! ### Expressions -/

/-- Evaluates expressions from left to right. -/
def evalEach (eval : Expr NodeId → Action Value) : List (Expr NodeId) → Action (List Value)
  | [] => pure []
  | e :: rest => do
    let value ← eval e
    return value :: (← evalEach eval rest)

/-- What an expression does, given the meaning of what is inside it. -/
def Expr.evalWith (settings : Settings) (eval : Expr NodeId → Action Value)
    (exec : Stmt NodeId → Action Unit) : Expr NodeId → Action Value
  | .literal _ value => pure (.ofLiteral value)
  | .group _ inner => eval inner
  | .unary _ op sign operand => do
    op.apply sign.line (← eval operand)
  | .binary _ op sign left right => do
    let a ← eval left
    let b ← eval right
    op.apply sign.line a b
  | .logical _ op _ left right => do
    let a ← eval left
    if op.settledBy a then return a else eval right
  | .name ref => read settings.lookup ref
  | .assign target value => do
    let v ← eval value
    write settings.lookup target v
    return v
  | .call _ callee closing arguments => do
    let f ← eval callee
    let values ← evalEach eval arguments
    f.call settings exec closing.line values
  | .get _ object property => do
    (← eval object).property property
  | .set _ object property value => do
    match ← eval object with
    | .instance_ id _ =>
      let v ← eval value
      modifyHeap (·.setField id property.text v)
      return v
    | _ => fail .noFields property.line
  | .this ref => read settings.lookup ref
  | .super ref method => do
    let (superclass, object) ← readSuper settings.lookup ref method
    superMethod superclass object method

/-! ### Statements -/

/-- Repeats a body while a condition holds, at most `limit` times. -/
def repeatWhile (condition : Action Value) (body : Action Unit) : (limit : Nat) → Action Unit
  | 0 => throw .exhausted
  | limit + 1 => do
    if (← condition).truthy then
      body
      repeatWhile condition body limit

/-- The methods of a class statement as closures in a chain, the last first. -/
def methodTable (methods : List (FunDecl NodeId)) (env : Env) : List (String × Closure) :=
  (methods.map fun decl =>
    (decl.name.text, ⟨decl, env, decl.name.text == initializerName⟩)).reverse

/-- The class that the name of a superclass stands for. -/
def readSuperclass (settings : Settings) (ref : Reference NodeId) : Action Class := do
  match ← read settings.lookup ref with
  | .cls c => return c
  | _ => fail .superclassNotClass ref.name.line

/-- Runs a class statement.  The name is bound before the methods are made, so that they see it; the
methods of a class with a superclass are made inside a frame that binds `super`, which is the innermost
one while they are made. -/
def defineClass (settings : Settings) (name : Lexeme) (superclass : Option (Reference NodeId))
    (methods : List (FunDecl NodeId)) : Action Unit := do
  let parent ← superclass.mapM (readSuperclass settings)
  define name.text .nil
  let enclosing := (← get).env
  if let some c := parent then
    enter (← nest [("super", .cls c)] enclosing)
  let id ← updateHeap Heap.newId
  let own : ClassBody := ⟨id, name.text, methodTable methods (← get).env⟩
  enter enclosing
  define name.text (.cls ⟨own, parent.elim [] Class.bodies⟩)

/-- A class statement without the change of the scope chain: the methods are made in the chain that was
the current one, or in the one inside it. -/
theorem defineClass_eq (settings : Settings) (name : Lexeme) (superclass : Option (Reference NodeId))
    (methods : List (FunDecl NodeId)) : defineClass settings name superclass methods = (do
      let parent ← superclass.mapM (readSuperclass settings)
      define name.text .nil
      let env := (← get).env
      let methodEnv ← match parent with
        | none => pure env
        | some c => nest [("super", .cls c)] env
      let id ← updateHeap Heap.newId
      define name.text (.cls ⟨⟨id, name.text, methodTable methods methodEnv⟩,
        parent.elim [] Class.bodies⟩)) := by
  unfold defineClass
  refine congrArg _ (funext fun parent => congrArg _ (funext fun _ => ?_))
  funext m
  cases parent <;> rfl

/-- The value of an expression that may be absent, which counts as `nil`. -/
def evalOptional (eval : Expr NodeId → Action Value) : Option (Expr NodeId) → Action Value
  | none => pure .nil
  | some e => eval e

/-- What a statement does, given the meaning of what is inside it. -/
def Stmt.execWith (settings : Settings) (eval : Expr NodeId → Action Value)
    (exec : Stmt NodeId → Action Unit) (limit : Nat) : Stmt NodeId → Action Unit
  | .expression value => do
    let _ ← eval value
  | .print value => do
    printLine (← eval value)
  | .var name initializer => do
    define name.text (← evalOptional eval initializer)
  | .block body => do
    let env ← nest [] (← get).env
    within env (runAll exec body)
  | .ite condition yes no => do
    if (← eval condition).truthy then exec yes
    else match no with
      | some no => exec no
      | none => pure ()
  | .while condition body => repeatWhile (eval condition) (exec body) limit
  | .function decl => do
    define decl.name.text (← newFunction ⟨decl, (← get).env, false⟩)
  | .ret _ value => do
    throw (.returned (← evalOptional eval value))
  | .cls name superclass methods => defineClass settings name superclass methods

/-! ### The knot -/

mutual

/-- Evaluates an expression. -/
def eval (settings : Settings) : (fuel : Nat) → Expr NodeId → Action Value
  | 0, _ => throw .exhausted
  | fuel + 1, e => fun m =>
    relay 4096 fuel fun _ => e.evalWith settings (eval settings fuel) (exec settings fuel) m

/-- Runs a statement. -/
def exec (settings : Settings) : (fuel : Nat) → Stmt NodeId → Action Unit
  | 0, _ => throw .exhausted
  | fuel + 1, s => fun m =>
    relay 4096 fuel fun _ => s.execWith settings (eval settings fuel) (exec settings fuel) fuel m

end

theorem eval_succ (settings : Settings) (fuel : Nat) (e : Expr NodeId) :
    eval settings (fuel + 1) e = e.evalWith settings (eval settings fuel) (exec settings fuel) := by
  funext m
  simp [eval]

theorem exec_succ (settings : Settings) (fuel : Nat) (s : Stmt NodeId) :
    exec settings (fuel + 1) s =
      s.execWith settings (eval settings fuel) (exec settings fuel) fuel := by
  funext m
  simp [exec]

end Lox
