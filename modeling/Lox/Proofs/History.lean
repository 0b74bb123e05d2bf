import Lox.Proofs.Restoring

/-! # Histories

Evaluation once more, as a program that keeps a record of what it does: a list of moments, each with the
machine as it was (`History`).  The calls in progress can be read off the record (`inProgress`), and so can
what made each frame.

Recording changes nothing.  That is one instance of a general fact (`Traced.Simulation.evaluation`): a relation
between recorded actions and plain ones that the ways of putting actions together preserve, and that holds of
single steps, holds of evaluation, recorded and plain. -/

namespace Lox

/-! ### Moments -/

/-- What happens at a moment of a run. -/
inductive Happening where
  /-- An expression is about to be evaluated. -/
  | evaluates (e : Expr NodeId)
  /-- A statement is about to be run. -/
  | executes (s : Stmt NodeId)
  /-- A call expression calls what its callee is, with its arguments. -/
  | calls (callee : Callable) (values : List Value) (closing : Lexeme)
  /-- The call that was begun last, of those in progress, has ended. -/
  | leaves
  /-- A function is about to run, in a new frame. -/
  | enters (f : Closure)
  /-- A method is about to be bound to an object, in a new frame. -/
  | binds (method : Closure) (object : Value)
  /-- A class statement has found its superclass, and is about to make the class, in a new frame if there
  is a superclass. -/
  | makes (name : Lexeme) (superclass : Option (Reference NodeId)) (methods : List (FunDecl NodeId))
      (parent : Option Class)
  /-- A value is about to be written. -/
  | prints (value : Value)

/-- A moment of a run: what happens, and the machine just before it. -/
structure Moment where
  machine : Machine
  what : Happening

/-- The frame that will be made next. -/
def Moment.frame (k : Moment) : FrameId := k.machine.heap.frames.size

/-- The moments of a run so far, the latest first. -/
abbrev History := List Moment

/-- What the call expressions in progress call, the innermost first. -/
def inProgress : History → List Callable
  | [] => []
  | ⟨_, .calls callee _ _⟩ :: past => callee :: inProgress past
  | ⟨_, .leaves⟩ :: past => (inProgress past).tail
  | _ :: past => inProgress past

/-- Something holds of every moment and what was before it. -/
def Throughout (P : Moment → History → Prop) : History → Prop
  | [] => True
  | k :: past => P k past ∧ Throughout P past

theorem throughout_iff {P : Moment → History → Prop} {past : History} :
    Throughout P past ↔ ∀ late k early, past = late ++ k :: early → P k early := by
  induction past with
  | nil => exact ⟨fun _ late k early h => by simp at h, fun _ => trivial⟩
  | cons k past ih =>
      rw [Throughout, ih]
      constructor
      · rintro ⟨hk, hrest⟩ late k' early h
        cases late with
        | nil => cases h; exact hk
        | cons l late => cases h; exact hrest late k' early rfl
      · exact fun h => ⟨h [] k past rfl, fun late k' early he => h (k :: late) k' early (congrArg _ he)⟩

/-- What holds throughout a history holds throughout what was before a moment of it. -/
theorem Throughout.before {P : Moment → History → Prop} {late early : History}
    (h : Throughout P (late ++ early)) : Throughout P early := by
  induction late with
  | nil => exact h
  | cons k late ih => exact ih h.2

theorem Throughout.imp {P Q : Moment → History → Prop} (h : ∀ k early, P k early → Q k early) :
    ∀ {past : History}, Throughout P past → Throughout Q past
  | [], _ => trivial
  | _ :: _, hp => ⟨h _ _ hp.1, Throughout.imp h hp.2⟩

/-! ### Recorded actions -/

/-- A machine and its history. -/
structure Recorder where
  machine : Machine
  past : History

/-- An action that keeps a record. -/
abbrev Traced := EStateM Exit Recorder

/-- The result of an action, with its state changed. -/
def mapState {σ τ ε α : Type} (f : σ → τ) : EStateM.Result ε σ α → EStateM.Result ε τ α
  | .ok a s => .ok a (f s)
  | .error e s => .error e (f s)

/-- In another scope chain an action runs as it does, and the chain is put back after it. -/
theorem Action.within_eq {α : Type} (env : Env) (act : Action α) (m : Machine) :
    Action.within env act m = mapState (fun n => { n with env := m.env }) (act { m with env := env }) := by
  unfold Action.within
  dsimp only
  cases act { m with env := env } <;> rfl

theorem Action.deeper_eq {α : Type} (act : Action α) (m : Machine) :
    Action.deeper act m =
      mapState (fun n => { n with depth := n.depth - 1 }) (act { m with depth := m.depth + 1 }) := by
  unfold Action.deeper
  cases act { m with depth := m.depth + 1 } <;> rfl

/-- The state at the end of an action. -/
def endState {σ ε α : Type} : EStateM.Result ε σ α → σ
  | .ok _ s => s
  | .error _ s => s

theorem bind_ok {σ ε α β : Type} {act : EStateM ε σ α} {f : α → EStateM ε σ β} {s t : σ} {a : α}
    (h : act s = .ok a t) : (act >>= f) s = f a t := by
  change EStateM.bind act f s = _
  rw [EStateM.bind, h]

theorem bind_error {σ ε α β : Type} {act : EStateM ε σ α} {f : α → EStateM ε σ β} {s t : σ} {e : ε}
    (h : act s = .error e t) : (act >>= f) s = .error e t := by
  change EStateM.bind act f s = _
  rw [EStateM.bind, h]

namespace Traced

variable {α : Type}

/-- A plain action, of which no record is made. -/
def lift (act : Action α) : Traced α := fun r => mapState (⟨·, r.past⟩) (act r.machine)

/-- Records that something happens. -/
def note (what : Happening) : Traced Unit := fun r => .ok () ⟨r.machine, ⟨r.machine, what⟩ :: r.past⟩

theorem note_bind (what : Happening) (t : Traced α) (r : Recorder) :
    (note what >>= fun _ => t) r = t ⟨r.machine, ⟨r.machine, what⟩ :: r.past⟩ := bind_ok rfl

/-- Runs an action in another scope chain. -/
def within (env : Env) (act : Traced α) : Traced α := fun r =>
  mapState (fun s => ⟨{ s.machine with env := r.machine.env }, s.past⟩)
    (act ⟨{ r.machine with env := env }, r.past⟩)

/-- Runs an action as a call: one more is open, and in progress, for its length. -/
def calling (callee : Callable) (values : List Value) (closing : Lexeme) (act : Traced α) : Traced α := fun r =>
  mapState (fun s => ⟨{ s.machine with depth := s.machine.depth - 1 }, ⟨s.machine, .leaves⟩ :: s.past⟩)
    (act ⟨{ r.machine with depth := r.machine.depth + 1 }, ⟨r.machine, .calls callee values closing⟩ :: r.past⟩)

/-- Runs the body of a function: the value of the `return` that leaves it, or `nil`. -/
def returning (body : Traced Unit) : Traced Value := fun r =>
  match body r with
  | .ok () s => .ok .nil s
  | .error (.returned value) s => .ok value s
  | .error e s => .error e s

/-! ### Calls -/

def runAll (exec : Stmt NodeId → Traced Unit) : List (Stmt NodeId) → Traced Unit
  | [] => return
  | s :: rest => do
    exec s
    runAll exec rest

/-- The instance that an initializer is bound to. -/
def ownInstance (f : Closure) : Action Value := do
  let m ← get
  Action.sound (m.heap.getAt f.env 0 "this")

def invoke (exec : Stmt NodeId → Traced Unit) (f : Closure) (values : List Value) : Traced Value := do
  note (.enters f)
  let env ← lift (Action.nest (bindParams f.decl.params values) f.env)
  let result ← returning (within env (runAll exec f.decl.body))
  if f.isInitializer then lift (ownInstance f) else return result

def bindTo (object : Value) (f : Closure) : Traced Closure := do
  note (.binds f object)
  let env ← lift (Action.nest [("this", object)] f.env)
  return { f with env := env }

def construct (exec : Stmt NodeId → Traced Unit) (c : Class) (values : List Value) : Traced Value := do
  let id ← lift (Action.updateHeap Heap.newInstance)
  match c.find? initializerName with
  | some initializer => do
    let f ← bindTo (.instance_ id c) initializer
    let _ ← invoke exec f values
    return .instance_ id c
  | none => return .instance_ id c

def call (settings : Settings) (exec : Stmt NodeId → Traced Unit) (callee : Callable)
    (values : List Value) : Traced Value :=
  match callee with
  | .clock => lift (Action.readClock settings.clock)
  | .function closure => invoke exec closure values
  | .cls c => construct exec c values

/-- A call, if not too many are open; of the call itself no record is made. -/
def attempted (settings : Settings) (line : Nat) (act : Action α) : Action α := do
  if settings.callLimit.any (· ≤ (← get).depth) then Action.fail .stackOverflow line else Action.deeper act

/-- A call, if not too many are open. -/
def attempt (settings : Settings) (callee : Callable) (values : List Value) (closing : Lexeme)
    (act : Traced α) : Traced α := do
  if settings.callLimit.any (· ≤ (← get).machine.depth) then
    lift (Action.fail .stackOverflow closing.line)
  else calling callee values closing act

section attempt

variable {settings : Settings} {callee : Callable} {values : List Value} {closing : Lexeme} {line : Nat}
  {act : Action α} {t : Traced α}

theorem attempted_full {m : Machine} (h : settings.callLimit.any (· ≤ m.depth) = true) :
    attempted settings line act m = Action.fail .stackOverflow line m := by
  change (if settings.callLimit.any (· ≤ m.depth) then _ else _ : Action α) m = _
  rw [h, if_pos rfl]

theorem attempted_room {m : Machine} (h : settings.callLimit.any (· ≤ m.depth) = false) :
    attempted settings line act m = Action.deeper act m := by
  change (if settings.callLimit.any (· ≤ m.depth) then _ else _ : Action α) m = _
  rw [h, if_neg Bool.false_ne_true]

theorem attempt_full {r : Recorder} (h : settings.callLimit.any (· ≤ r.machine.depth) = true) :
    attempt settings callee values closing t r = lift (Action.fail .stackOverflow closing.line) r := by
  change (if settings.callLimit.any (· ≤ r.machine.depth) then _ else _ : Traced α) r = _
  rw [h, if_pos rfl]

theorem attempt_room {r : Recorder} (h : settings.callLimit.any (· ≤ r.machine.depth) = false) :
    attempt settings callee values closing t r = calling callee values closing t r := by
  change (if settings.callLimit.any (· ≤ r.machine.depth) then _ else _ : Traced α) r = _
  rw [h, if_neg Bool.false_ne_true]

end attempt

def callValue (settings : Settings) (exec : Stmt NodeId → Traced Unit) (value : Value) (closing : Lexeme)
    (values : List Value) : Traced Value :=
  match value.callable? with
  | none => lift (Action.fail .notCallable closing.line)
  | some callee =>
    if values.length ≠ callee.arity then lift (Action.fail (.arity callee.arity values.length) closing.line)
    else attempt settings callee values closing (call settings exec callee values)

/-! ### Expressions -/

/-- The value of a field of an instance, if it was ever set. -/
def fieldOf (id : Nat) (name : Lexeme) : Action (Option Value) := do
  return (← get).heap.field? id name.text

def bound (object : Value) (f : Closure) : Traced Value := do
  let f ← bindTo object f
  lift (Action.newFunction f)

def property (object : Value) (name : Lexeme) : Traced Value := do
  match object with
  | .instance_ id c =>
    match ← lift (fieldOf id name) with
    | some value => return value
    | none =>
      match c.find? name.text with
      | some method => bound object method
      | none => lift (Action.fail (.undefinedProperty name.text) name.line)
  | _ => lift (Action.fail .noProperties name.line)

def superMethod (superclass object : Value) (method : Lexeme) : Traced Value :=
  match superclass, object with
  | .cls c, .instance_ .. =>
    match c.find? method.text with
    | some found => bound object found
    | none => lift (Action.fail (.undefinedProperty method.text) method.line)
  | _, _ => lift (throw (.inconsistent .misplacedSuper))

def evalEach (eval : Expr NodeId → Traced Value) : List (Expr NodeId) → Traced (List Value)
  | [] => return []
  | e :: rest => do
    let value ← eval e
    return value :: (← evalEach eval rest)

def evalWith (settings : Settings) (eval : Expr NodeId → Traced Value) (exec : Stmt NodeId → Traced Unit) :
    Expr NodeId → Traced Value
  | .literal _ value => return .ofLiteral value
  | .group _ inner => eval inner
  | .unary _ op sign operand => do
    lift (op.apply sign.line (← eval operand))
  | .binary _ op sign left right => do
    let a ← eval left
    let b ← eval right
    lift (op.apply sign.line a b)
  | .logical _ op _ left right => do
    let a ← eval left
    if op.settledBy a then return a else eval right
  | .name ref => lift (Action.read settings.lookup ref)
  | .assign target value => do
    let v ← eval value
    lift (Action.write settings.lookup target v)
    return v
  | .call _ callee closing arguments => do
    let f ← eval callee
    let values ← evalEach eval arguments
    callValue settings exec f closing values
  | .get _ object name => do
    property (← eval object) name
  | .set _ object name value => do
    match ← eval object with
    | .instance_ id _ =>
      let v ← eval value
      lift (Action.modifyHeap (·.setField id name.text v))
      return v
    | _ => lift (Action.fail .noFields name.line)
  | .this ref => lift (Action.read settings.lookup ref)
  | .super ref method => do
    let (superclass, object) ← lift (Action.readSuper settings.lookup ref method)
    superMethod superclass object method

/-! ### Statements -/

def repeatWhile (condition : Traced Value) (body : Traced Unit) : (limit : Nat) → Traced Unit
  | 0 => lift (throw .exhausted)
  | limit + 1 => do
    if (← condition).truthy then
      body
      repeatWhile condition body limit

/-- Makes a class in the current chain, and binds its name. -/
def bindClass (name : Lexeme) (methods : List (FunDecl NodeId)) (parent : Option Class) : Action Unit := do
  Action.define name.text .nil
  let env := (← get).env
  let methodEnv ← match parent with
    | none => pure env
    | some c => Action.nest [("super", .cls c)] env
  let id ← Action.updateHeap Heap.newId
  Action.define name.text (.cls ⟨⟨id, name.text, methodTable methods methodEnv⟩, parent.elim [] Class.bodies⟩)

def defineClass (settings : Settings) (name : Lexeme) (superclass : Option (Reference NodeId))
    (methods : List (FunDecl NodeId)) : Traced Unit := do
  let parent ← lift (superclass.mapM (readSuperclass settings))
  note (.makes name superclass methods parent)
  lift (bindClass name methods parent)

def evalOptional (eval : Expr NodeId → Traced Value) : Option (Expr NodeId) → Traced Value
  | none => return .nil
  | some e => eval e

/-- A frame for a block, inside the current chain. -/
def openBlock : Action Env := do Action.nest [] (← get).env

/-- Binds the name of a function to it. -/
def bindFunction (decl : FunDecl NodeId) : Action Unit := do
  Action.define decl.name.text (← Action.newFunction ⟨decl, (← get).env, false⟩)

def print (value : Value) : Traced Unit := do
  note (.prints value)
  lift (Action.printLine value)

theorem print_eq (value : Value) (r : Recorder) :
    print value r = lift (Action.printLine value) ⟨r.machine, ⟨r.machine, .prints value⟩ :: r.past⟩ :=
  note_bind _ _ r

def execWith (settings : Settings) (eval : Expr NodeId → Traced Value) (exec : Stmt NodeId → Traced Unit)
    (limit : Nat) : Stmt NodeId → Traced Unit
  | .expression value => do
    let _ ← eval value
  | .print value => do
    print (← eval value)
  | .var name initializer => do
    lift (Action.define name.text (← evalOptional eval initializer))
  | .block body => do
    within (← lift openBlock) (runAll exec body)
  | .ite condition yes no => do
    if (← eval condition).truthy then exec yes
    else match no with
      | some no => exec no
      | none => return
  | .while condition body => repeatWhile (eval condition) (exec body) limit
  | .function decl => lift (bindFunction decl)
  | .ret _ value => do
    lift (throw (.returned (← evalOptional eval value)))
  | .cls name superclass methods => defineClass settings name superclass methods

mutual

/-- Evaluates an expression, and records what happens. -/
def eval (settings : Settings) : (fuel : Nat) → Expr NodeId → Traced Value
  | 0, _ => lift (throw .exhausted)
  | fuel + 1, e => do
    note (.evaluates e)
    evalWith settings (eval settings fuel) (exec settings fuel) e

/-- Runs a statement, and records what happens. -/
def exec (settings : Settings) : (fuel : Nat) → Stmt NodeId → Traced Unit
  | 0, _ => lift (throw .exhausted)
  | fuel + 1, s => do
    note (.executes s)
    execWith settings (eval settings fuel) (exec settings fuel) fuel s

end

end Traced

/-! ### Quiet actions -/

namespace Action

variable {α β : Type}

/-- An action that neither looks at the sink and the number of open calls nor changes them. -/
def Quiet (act : Action α) : Prop :=
  ∀ (m : Machine) (sink : Sink) (depth : Nat), act (m.seen sink depth) = mapState (·.seen sink depth) (act m)

namespace Quiet

theorem pure (a : α) : (Pure.pure a : Action α).Quiet := fun _ _ _ => rfl

theorem throw (e : Exit) : (MonadExcept.throw e : Action α).Quiet := fun _ _ _ => rfl

theorem bind {act : Action α} {f : α → Action β} (h : act.Quiet) (hf : ∀ a, (f a).Quiet) :
    (act >>= f).Quiet := by
  intro m sink depth
  have hm := h m sink depth
  change EStateM.bind act f _ = mapState _ (EStateM.bind act f m)
  unfold EStateM.bind
  rw [hm]
  cases act m with
  | error e n => rfl
  | ok a n => exact hf a n sink depth

/-- An action that looks at other things than the sink and the number of open calls. -/
theorem get {f : Machine → Action α} (h : ∀ m, (f m).Quiet)
    (hf : ∀ (m : Machine) sink depth, f (m.seen sink depth) = f m) : (MonadState.get >>= f).Quiet := by
  intro m sink depth
  change f (m.seen sink depth) (m.seen sink depth) = mapState _ (f m m)
  rw [hf]
  exact h m m sink depth

theorem modifyHeap (f : Heap → Heap) : (Action.modifyHeap f).Quiet := fun _ _ _ => rfl

theorem updateHeap (f : Heap → α × Heap) : (Action.updateHeap f).Quiet := fun _ _ _ => rfl

theorem readClock (clock : Nat → Nat) : (Action.readClock clock).Quiet := fun _ _ _ => rfl

theorem elementary {act : Action α} (h : act.Elementary) : act.Quiet := by
  induction h with
  | pure a => exact pure a
  | throw _ => exact throw _
  | bind _ _ ih ihf => exact bind ih ihf
  | get _ hf ih => exact get ih hf
  | modifyHeap _ => exact modifyHeap _
  | updateHeap _ => exact updateHeap _
  | readClock clock => exact readClock clock

end Quiet

end Action

open Lox.Action

/-- A step of its own: it restores what it changes, and has to do with neither the sink nor the number of
open calls. -/
structure Action.Single {α : Type} (act : Action α) : Prop where
  restores : act.Restores
  quiet : act.Quiet

theorem Action.Single.elementary {α : Type} {act : Action α} (h : act.Elementary) : act.Single :=
  ⟨.elementary h, .elementary h⟩

namespace Traced

theorem bindClass_elementary (name : Lexeme) (methods : List (FunDecl NodeId)) (parent : Option Class) :
    (bindClass name methods parent).Elementary := by
  refine .bind (.define _ _) fun _ => .get (fun m => ?_) fun _ _ _ => rfl
  cases parent with
  | none => exact .bind (.pure _) fun _ => .bind .newId fun _ => .define _ _
  | some c => exact .bind (.nest _ _) fun _ => .bind .newId fun _ => .define _ _

theorem openBlock_elementary : openBlock.Elementary := .get (fun _ => .nest _ _) fun _ _ _ => rfl

theorem bindFunction_elementary (decl : FunDecl NodeId) : (bindFunction decl).Elementary :=
  .get (fun _ => .bind (.newFunction _) fun _ => .define _ _) fun _ _ _ => rfl

theorem ownInstance_elementary (f : Closure) : (ownInstance f).Elementary :=
  .get (fun _ => .sound _) fun _ _ _ => rfl

theorem fieldOf_elementary (id : Nat) (name : Lexeme) : (fieldOf id name).Elementary :=
  .get (f := fun m => Pure.pure (m.heap.field? id name.text)) (fun _ => .pure _) fun _ _ _ => rfl

end Traced

/-! ### Simulation -/

/-- Does what happens fit the calls in progress?  A function that is entered is the one that is called, or
the initializer of the class that is called. -/
def Happening.Fits (calls : List Callable) : Happening → Prop
  | .enters f => calls.head? = some (.function f) ∨
      ∃ c init env, calls.head? = some (.cls c) ∧ c.find? initializerName = some init ∧
        f = { init with env := env }
  | .evaluates _ | .executes _ | .binds _ _ | .makes _ _ _ _ => True
  | .calls _ _ _ | .leaves | .prints _ => False

namespace Traced

/-- A relation between recorded actions under one setting and plain actions under another, given what is
called at the time, that every way of putting actions together preserves. -/
structure Simulation (S S' : Settings) (rel : List Callable → ∀ {α : Type}, Traced α → Action α → Prop) :
    Prop where
  lookup : S'.lookup = S.lookup
  clock : S'.clock = S.clock
  single {calls} {α : Type} {act : Action α} : act.Single → rel calls (lift act) act
  bind {calls} {α β : Type} {t : Traced α} {act : Action α} {f : α → Traced β} {g : α → Action β} :
    rel calls t act → (∀ a, rel calls (f a) (g a)) → rel calls (t >>= f) (act >>= g)
  note {calls} {α : Type} {what : Happening} {t : Traced α} {act : Action α} :
    what.Fits calls → rel calls t act → rel calls (Traced.note what >>= fun _ => t) act
  within {calls} {α : Type} {t : Traced α} {act : Action α} (env : Env) :
    rel calls t act → rel calls (Traced.within env t) (Action.within env act)
  returning {calls} {t : Traced Unit} {act : Action Unit} :
    rel calls t act → rel calls (Traced.returning t) (Action.returning act)
  attempt {calls} {callee : Callable} {values : List Value} {t : Traced Value} {act : Action Value}
    (closing : Lexeme) : values.length = callee.arity → rel (callee :: calls) t act →
    rel calls (Traced.attempt S callee values closing t) (attempted S' closing.line act)
  print {calls} (value : Value) : rel calls (Traced.print value) (Action.printLine value)

namespace Simulation

variable {S S' : Settings} {rel : List Callable → ∀ {α : Type}, Traced α → Action α → Prop}
  {ev : Expr NodeId → Traced Value} {ev' : Expr NodeId → Action Value} {ex : Stmt NodeId → Traced Unit}
  {ex' : Stmt NodeId → Action Unit} {calls : List Callable}

theorem elementary (h : Simulation S S' rel) {α : Type} {act : Action α} (hact : act.Elementary) :
    rel calls (lift act) act := h.single (.elementary hact)

theorem pure (h : Simulation S S' rel) {α : Type} (a : α) : rel calls (Pure.pure a) (Pure.pure a) :=
  h.elementary (.pure a)

theorem fail (h : Simulation S S' rel) {α : Type} (fault : RuntimeFault) (line : Nat) :
    rel calls (lift (Action.fail fault line : Action α)) (Action.fail fault line) :=
  h.elementary (.fail _ _)

theorem throw (h : Simulation S S' rel) {α : Type} (e : Exit) :
    rel calls (lift (MonadExcept.throw e : Action α)) (MonadExcept.throw e) :=
  h.single ⟨.throw _, .throw _⟩

theorem runAll (h : Simulation S S' rel) (hx : ∀ s, rel calls (ex s) (ex' s)) (body : List (Stmt NodeId)) :
    rel calls (Traced.runAll ex body) (Lox.runAll ex' body) := by
  induction body with
  | nil => exact h.pure ()
  | cons s body ih => exact h.bind (hx s) fun _ => ih

theorem evalEach (h : Simulation S S' rel) (he : ∀ e, rel calls (ev e) (ev' e)) (es : List (Expr NodeId)) :
    rel calls (Traced.evalEach ev es) (Lox.evalEach ev' es) := by
  induction es with
  | nil => exact h.pure []
  | cons e es ih => exact h.bind (he e) fun _ => h.bind ih fun _ => h.pure _

theorem evalOptional (h : Simulation S S' rel) (he : ∀ e, rel calls (ev e) (ev' e)) :
    ∀ e, rel calls (Traced.evalOptional ev e) (Lox.evalOptional ev' e)
  | none => h.pure _
  | some e => he e

theorem invoke (h : Simulation S S' rel) (hx : ∀ s, rel calls (ex s) (ex' s)) {f : Closure}
    (hf : (Happening.enters f).Fits calls) (values : List Value) :
    rel calls (Traced.invoke ex f values) (f.invoke ex' values) := by
  refine h.note hf (h.bind (h.elementary (.nest _ _)) fun env =>
    h.bind (h.returning (h.within env (h.runAll hx _))) fun result => ?_)
  cases f.isInitializer with
  | true => exact h.elementary (ownInstance_elementary f)
  | false => exact h.pure _

/-- A method is bound, and then something is done with it. -/
theorem bindTo (h : Simulation S S' rel) {α : Type} (object : Value) (f : Closure) {k : Closure → Traced α}
    {k' : Closure → Action α} (hk : ∀ env, rel calls (k { f with env := env }) (k' { f with env := env })) :
    rel calls (Traced.bindTo object f >>= k) (f.bindTo object >>= k') := by
  unfold Traced.bindTo Closure.bindTo
  simp only [bind_assoc, pure_bind]
  exact h.note trivial (h.bind (h.elementary (.nest _ _)) hk)

theorem construct (h : Simulation S S' rel) {c : Class} (hx : ∀ s, rel (.cls c :: calls) (ex s) (ex' s))
    (values : List Value) :
    rel (.cls c :: calls) (Traced.construct ex c values) (c.construct ex' values) := by
  unfold Traced.construct Class.construct
  refine h.bind (h.elementary .newInstance) fun id => ?_
  cases hinit : c.find? initializerName with
  | none => exact h.pure _
  | some init =>
      exact h.bindTo _ init fun env => h.bind (h.invoke hx (.inr ⟨c, init, env, rfl, hinit, rfl⟩) _)
        fun _ => h.pure _

theorem call (h : Simulation S S' rel) (hx : ∀ calls s, rel calls (ex s) (ex' s)) (callee : Callable)
    (values : List Value) :
    rel (callee :: calls) (Traced.call S ex callee values) (callee.call S' ex' values) := by
  cases callee with
  | clock =>
      unfold Traced.call Callable.call
      rw [h.clock]
      exact h.elementary (.readClock _)
  | function f => exact h.invoke (hx _) (.inl rfl) values
  | cls c => exact h.construct (hx _) values

theorem callValue (h : Simulation S S' rel) (hx : ∀ calls s, rel calls (ex s) (ex' s)) (value : Value)
    (closing : Lexeme) (values : List Value) :
    rel calls (Traced.callValue S ex value closing values) (value.call S' ex' closing.line values) := by
  unfold Traced.callValue Value.call
  cases value.callable? with
  | none => exact h.fail _ _
  | some callee =>
      dsimp only
      split
      · exact h.fail _ _
      next hn => exact h.attempt closing (not_not.mp hn) (h.call hx callee values)

theorem bound (h : Simulation S S' rel) (object : Value) (f : Closure) :
    rel calls (Traced.bound object f) (f.bindTo object >>= Action.newFunction) :=
  h.bindTo object f fun _ => h.elementary (.newFunction _)

/-- A property that is a field, or else a method, which is bound. -/
theorem property_instance (id : Nat) (c : Class) (name : Lexeme) :
    (Value.instance_ id c).property name = (do
      match ← fieldOf id name with
      | some value => return value
      | none =>
        match c.find? name.text with
        | some method => method.bindTo (.instance_ id c) >>= Action.newFunction
        | none => Action.fail (.undefinedProperty name.text) name.line) := rfl

theorem property (h : Simulation S S' rel) (object : Value) (name : Lexeme) :
    rel calls (Traced.property object name) (object.property name) := by
  cases object with
  | instance_ id c =>
      rw [property_instance]
      refine h.bind (h.elementary (fieldOf_elementary id name)) fun found => ?_
      cases found with
      | some value => exact h.pure _
      | none =>
          dsimp only
          cases c.find? name.text with
          | some method => exact h.bound _ _
          | none => exact h.fail _ _
  | _ => exact h.fail _ _

theorem superMethod (h : Simulation S S' rel) (superclass object : Value) (method : Lexeme) :
    rel calls (Traced.superMethod superclass object method) (Lox.superMethod superclass object method) := by
  cases superclass with
  | cls c =>
      cases object with
      | instance_ id c' =>
          unfold Traced.superMethod Lox.superMethod
          dsimp only
          cases c.find? method.text with
          | some found => exact h.bound _ _
          | none => exact h.fail _ _
      | _ => exact h.throw _
  | _ => exact h.throw _

theorem evalWith (h : Simulation S S' rel) (he : ∀ calls e, rel calls (ev e) (ev' e))
    (hx : ∀ calls s, rel calls (ex s) (ex' s)) (e : Expr NodeId) :
    rel calls (Traced.evalWith S ev ex e) (e.evalWith S' ev' ex') := by
  have hl := h.lookup
  cases e with
  | literal id v => exact h.pure _
  | group id inner => exact he _ inner
  | unary id op sign operand =>
      exact h.bind (he _ _) fun _ => h.elementary (.computes (op.computes _ _))
  | binary id op sign left right =>
      exact h.bind (he _ _) fun _ => h.bind (he _ _) fun _ => h.elementary (.computes (op.computes _ _ _))
  | logical id op sign left right =>
      refine h.bind (he _ _) fun _ => ?_
      split
      · exact h.pure _
      · exact he _ right
  | name ref =>
      unfold Traced.evalWith Expr.evalWith
      rw [hl]
      exact h.elementary (.read _ _)
  | assign target value =>
      unfold Traced.evalWith Expr.evalWith
      rw [hl]
      exact h.bind (he _ _) fun _ => h.bind (h.elementary (.write _ _ _)) fun _ => h.pure _
  | call id callee closing arguments =>
      exact h.bind (he _ _) fun _ => h.bind (h.evalEach (he _) _) fun _ => h.callValue hx _ _ _
  | get id object name => exact h.bind (he _ _) fun _ => h.property _ _
  | set id object name value =>
      refine h.bind (he _ _) fun o => ?_
      cases o with
      | instance_ id c =>
          exact h.bind (he _ _) fun _ => h.bind (h.elementary (.setField _ _ _)) fun _ => h.pure _
      | _ => exact h.fail _ _
  | this ref =>
      unfold Traced.evalWith Expr.evalWith
      rw [hl]
      exact h.elementary (.read _ _)
  | super ref method =>
      unfold Traced.evalWith Expr.evalWith
      rw [hl]
      exact h.bind (h.elementary (.readSuper _ _ _)) fun _ => h.superMethod _ _ _

theorem repeatWhile (h : Simulation S S' rel) {condition : Traced Value} {condition' : Action Value}
    {body : Traced Unit} {body' : Action Unit} (hc : rel calls condition condition')
    (hb : rel calls body body') (limit : Nat) :
    rel calls (Traced.repeatWhile condition body limit) (Lox.repeatWhile condition' body' limit) := by
  induction limit with
  | zero => exact h.throw _
  | succ limit ih =>
      refine h.bind hc fun v => ?_
      split
      · exact h.bind hb fun _ => ih
      · exact h.pure _

theorem defineClass (h : Simulation S S' rel) (name : Lexeme) (superclass : Option (Reference NodeId))
    (methods : List (FunDecl NodeId)) :
    rel calls (Traced.defineClass S name superclass methods) (Lox.defineClass S' name superclass methods) := by
  have hs : readSuperclass S' = readSuperclass S := by
    unfold readSuperclass
    rw [h.lookup]
  rw [defineClass_eq, hs]
  exact h.bind (h.elementary (.superclass S superclass)) fun parent =>
    h.note trivial (h.elementary (bindClass_elementary name methods parent))

theorem execWith (h : Simulation S S' rel) (he : ∀ calls e, rel calls (ev e) (ev' e))
    (hx : ∀ calls s, rel calls (ex s) (ex' s)) (limit : Nat) (s : Stmt NodeId) :
    rel calls (Traced.execWith S ev ex limit s) (s.execWith S' ev' ex' limit) := by
  cases s with
  | expression value => exact h.bind (he _ _) fun _ => h.pure _
  | print value => exact h.bind (he _ _) fun _ => h.print _
  | var name initializer =>
      exact h.bind (h.evalOptional (he _) _) fun _ => h.elementary (.define _ _)
  | block body => exact h.bind (h.elementary openBlock_elementary) fun env => h.within env (h.runAll (hx _) _)
  | ite condition yes no =>
      refine h.bind (he _ _) fun _ => ?_
      split
      · exact hx _ yes
      · cases no with
        | some no => exact hx _ no
        | none => exact h.pure _
  | «while» condition body => exact h.repeatWhile (he _ _) (hx _ _) limit
  | function decl => exact h.elementary (bindFunction_elementary decl)
  | ret keyword value => exact h.bind (h.evalOptional (he _) _) fun _ => h.throw _
  | cls name superclass methods => exact h.defineClass name superclass methods

/-- What relates single steps relates recorded and plain evaluation, however deep they nest. -/
theorem evaluation (h : Simulation S S' rel) (fuel : Nat) :
    (∀ calls e, rel calls (Traced.eval S fuel e) (Lox.eval S' fuel e)) ∧
      ∀ calls s, rel calls (Traced.exec S fuel s) (Lox.exec S' fuel s) := by
  induction fuel with
  | zero => exact ⟨fun _ _ => h.throw _, fun _ _ => h.throw _⟩
  | succ fuel ih =>
      obtain ⟨he, hx⟩ := ih
      refine ⟨fun calls e => ?_, fun calls s => ?_⟩
      · rw [eval_succ]
        exact h.note trivial (h.evalWith he hx e)
      · rw [exec_succ]
        exact h.note trivial (h.execWith he hx fuel s)

end Simulation

/-! ### Invariants -/

/-- What holds of a recorder, given what is called at the time, and is kept by all single steps. -/
structure Invariant (S : Settings) (I : List Callable → Recorder → Prop) : Prop where
  single {calls r} {α : Type} {act : Action α} : act.Single → I calls r → I calls (endState (lift act r))
  note {calls} {r : Recorder} {what : Happening} : what.Fits calls → I calls r →
    I calls ⟨r.machine, ⟨r.machine, what⟩ :: r.past⟩
  env {calls} {r : Recorder} (env : Env) : I calls r → I calls ⟨{ r.machine with env := env }, r.past⟩
  begins {calls} {r : Recorder} {callee : Callable} {values : List Value} (closing : Lexeme) :
    values.length = callee.arity → S.callLimit.any (· ≤ r.machine.depth) = false → I calls r →
    I (callee :: calls)
      ⟨{ r.machine with depth := r.machine.depth + 1 }, ⟨r.machine, .calls callee values closing⟩ :: r.past⟩
  leaves {calls callee} {r : Recorder} : I (callee :: calls) r →
    I calls ⟨{ r.machine with depth := r.machine.depth - 1 }, ⟨r.machine, .leaves⟩ :: r.past⟩
  print {calls r} (value : Value) : I calls r → I calls (endState (Traced.print value r))

/-- Every recorded action keeps an invariant. -/
theorem Invariant.simulation {S : Settings} {I : List Callable → Recorder → Prop} (h : Invariant S I) :
    Simulation S S fun calls _ t _ => ∀ r, I calls r → I calls (endState (t r)) where
  lookup := rfl
  clock := rfl
  single hact _ hr := h.single hact hr
  bind {_ _ _ t _ _ _} ht hf r hr := by
    have hs := ht r hr
    cases hrun : t r with
    | ok a s =>
        rw [bind_ok hrun]
        rw [hrun] at hs
        exact hf a s hs
    | error e s =>
        rw [bind_error hrun]
        rw [hrun] at hs
        exact hs
  note {_ _ what t _} hw ht r hr := by
    rw [note_bind]
    exact ht _ (h.note hw hr)
  within {_ _ t _} env ht r hr := by
    have hs := ht _ (h.env env hr)
    unfold Traced.within
    cases hrun : t ⟨{ r.machine with env := env }, r.past⟩ <;> rw [hrun] at hs <;> exact h.env _ hs
  returning {_ t _} ht r hr := by
    have hs := ht r hr
    unfold Traced.returning
    cases hrun : t r with
    | ok _ s =>
        rw [hrun] at hs
        exact hs
    | error e s =>
        rw [hrun] at hs
        cases e <;> exact hs
  attempt {_ callee values t _} closing hn ht r hr := by
    cases hlimit : S.callLimit.any (· ≤ r.machine.depth) with
    | true =>
        rw [attempt_full hlimit]
        exact h.single (.elementary (.fail _ _)) hr
    | false =>
        rw [attempt_room hlimit]
        have hs := ht _ (h.begins closing hn hlimit hr)
        unfold calling
        cases hrun : t ⟨{ r.machine with depth := r.machine.depth + 1 },
          ⟨r.machine, .calls callee values closing⟩ :: r.past⟩ <;> rw [hrun] at hs <;> exact h.leaves hs
  print value _ hr := h.print value hr

end Traced

end Lox
