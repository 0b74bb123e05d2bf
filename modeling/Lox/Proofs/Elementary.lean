import Lox.Proofs.Operators

/-! # Elementary actions

Between the evaluation of its parts and the runs of its statements, code does to the machine what elementary actions
do: they look at variables, objects and distances, give a variable or a field a value, make a frame or an object, read
the clock, or end in a fault.  None of them leaves by a `return`, and none has to do with the sink or with the number
of open calls.

Every action of the machine that is elementary is shown to be so once (`Action.Elementary`).  What elementary actions
have in common then follows by induction on how they are put together. -/

namespace Lox

/-- A machine with another sink and another number of open calls. -/
def Machine.seen (m : Machine) (sink : Sink) (depth : Nat) : Machine := { m with sink := sink, depth := depth }

namespace Action

/-- An action that is put together from single steps: looks at the machine, changes of the heap in which no frame goes
away, readings of the clock, and exits other than a `return`. -/
inductive Elementary : {α : Type} → Action α → Prop
  | pure {α : Type} (a : α) : Elementary (Pure.pure a : Action α)
  | throw {α : Type} {e : Exit} (h : ∀ v, e ≠ .returned v) : Elementary (MonadExcept.throw e : Action α)
  | bind {α β : Type} {act : Action α} {f : α → Action β} :
      Elementary act → (∀ a, Elementary (f a)) → Elementary (act >>= f)
  /-- Looks at other things than the sink and the number of open calls. -/
  | get {α : Type} {f : Machine → Action α} : (∀ m, Elementary (f m)) →
      (∀ (m : Machine) sink depth, f (m.seen sink depth) = f m) → Elementary (MonadState.get >>= f)
  | modifyHeap {f : Heap → Heap} : (∀ h, h.frames.size ≤ (f h).frames.size) → Elementary (Action.modifyHeap f)
  | updateHeap {α : Type} {f : Heap → α × Heap} :
      (∀ h, h.frames.size ≤ (f h).2.frames.size) → Elementary (Action.updateHeap f)
  | readClock (clock : Nat → Nat) : Elementary (Action.readClock clock)

namespace Elementary

variable {α : Type}

theorem fail (fault : RuntimeFault) (line : Nat) : (Action.fail fault line : Action α).Elementary := throw nofun

theorem sound (r : Except Inconsistency α) : (Action.sound r).Elementary := by
  cases r with
  | ok a => exact pure a
  | error breach => exact throw nofun

theorem computes {act : Action Value} {line : Nat} (h : act.Computes line) : act.Elementary := by
  cases h with
  | value _ => exact pure _
  | fault fault => exact fail fault line

/-! ### The heap -/

theorem newId : (Action.updateHeap Heap.newId).Elementary := updateHeap fun _ => Nat.le_refl _

theorem newInstance : (Action.updateHeap Heap.newInstance).Elementary := updateHeap fun _ => Nat.le_refl _

theorem newFunction (closure : Closure) : (Action.newFunction closure).Elementary := bind newId fun _ => pure _

theorem nest (slots : Slots) (env : Env) : (Action.nest slots env).Elementary :=
  bind (updateHeap fun h => by simp [Heap.newFrame]) fun _ => pure _

theorem setField (id : Nat) (name : String) (value : Value) :
    (Action.modifyHeap (·.setField id name value)).Elementary := modifyHeap fun _ => Nat.le_refl _

theorem defineIn (frame : FrameId) (name : String) (value : Value) :
    (Action.modifyHeap (·.define frame name value)).Elementary :=
  modifyHeap fun _ => Nat.le_of_eq (Array.size_modify ..).symm

theorem define (name : String) (value : Value) : (Action.define name value).Elementary := by
  refine get (fun m => ?_) fun _ _ _ => rfl
  split
  · exact defineIn _ _ _
  · exact pure ()

/-! ### Names -/

theorem distance? (id : NodeId) : (Action.distance? id).Elementary :=
  get (f := fun m => Pure.pure m.distances[id]?) (fun _ => pure _) fun _ _ _ => rfl

theorem searchIn (env : Env) (name : Lexeme) : (Action.searchIn env name).Elementary := by
  refine get (fun m => ?_) fun _ _ _ => rfl
  split
  · exact pure _
  · exact fail _ _

theorem assignIn (env : Env) (name : Lexeme) (value : Value) : (Action.assignIn env name value).Elementary := by
  refine get (fun m => ?_) fun _ _ _ => rfl
  split
  · exact defineIn _ _ _
  · exact fail _ _

theorem valueAt (distance : Nat) (name : String) : (Action.valueAt distance name).Elementary :=
  get (fun _ => sound _) fun _ _ _ => rfl

theorem assignAt (distance : Nat) (name : String) (value : Value) :
    (Action.assignAt distance name value).Elementary :=
  get (fun _ => bind (sound _) fun _ => defineIn _ _ _) fun _ _ _ => rfl

theorem read (look : Lookup) (ref : Reference NodeId) : (Action.read look ref).Elementary := by
  cases look with
  | bySearch => exact get (fun _ => searchIn _ _) fun _ _ _ => rfl
  | byDistance =>
      refine bind (distance? _) fun d => ?_
      cases d with
      | some d => exact valueAt _ _
      | none => exact searchIn _ _

theorem write (look : Lookup) (ref : Reference NodeId) (value : Value) :
    (Action.write look ref value).Elementary := by
  cases look with
  | bySearch => exact get (fun _ => assignIn _ _ _) fun _ _ _ => rfl
  | byDistance =>
      refine bind (distance? _) fun d => ?_
      cases d with
      | some d => exact assignAt _ _ _
      | none => exact assignIn _ _ _

theorem instanceInside (distance : Nat) : (Action.instanceInside distance).Elementary := by
  cases distance with
  | zero => exact throw nofun
  | succ inner => exact valueAt _ _

theorem readSuper (look : Lookup) (ref : Reference NodeId) (method : Lexeme) :
    (Action.readSuper look ref method).Elementary := by
  cases look with
  | bySearch =>
      refine get (fun _ => bind (searchIn _ _) fun _ => ?_) fun _ _ _ => rfl
      exact get (fun _ => bind (searchIn _ _) fun _ => pure _) fun _ _ _ => rfl
  | byDistance =>
      refine bind (distance? _) fun d => ?_
      cases d with
      | some d => exact bind (valueAt _ _) fun _ => bind (instanceInside _) fun _ => pure _
      | none => exact throw nofun

/-! ### Methods and classes -/

theorem bindTo (object : Value) (f : Closure) : (f.bindTo object).Elementary := bind (nest _ _) fun _ => pure _

theorem property (object : Value) (name : Lexeme) : (object.property name).Elementary := by
  unfold Value.property
  split
  · refine get (fun m => ?_) fun _ _ _ => rfl
    split
    · exact pure _
    · split
      · exact bind (bindTo _ _) fun _ => newFunction _
      · exact fail _ _
  · exact fail _ _

theorem superMethod (superclass object : Value) (method : Lexeme) :
    (Lox.superMethod superclass object method).Elementary := by
  unfold Lox.superMethod
  split
  · split
    · exact bind (bindTo _ _) fun _ => newFunction _
    · exact fail _ _
  · exact throw nofun

theorem readSuperclass (settings : Settings) (ref : Reference NodeId) :
    (Lox.readSuperclass settings ref).Elementary := by
  refine bind (read _ _) fun v => ?_
  split
  · exact pure _
  · exact fail _ _

theorem superclass (settings : Settings) (superclass : Option (Reference NodeId)) :
    (superclass.mapM (Lox.readSuperclass settings)).Elementary := by
  cases superclass with
  | none => exact pure _
  | some ref => exact bind (readSuperclass _ ref) fun _ => pure _

/-- A class statement leaves the frame of `super` again before its name is bound to the class. -/
theorem defineClass (settings : Settings) (name : Lexeme) (superclass : Option (Reference NodeId))
    (methods : List (FunDecl NodeId)) : (Lox.defineClass settings name superclass methods).Elementary := by
  rw [defineClass_eq]
  refine bind (Elementary.superclass settings superclass) fun parent => bind (define _ _) fun _ =>
    get (fun m => ?_) fun _ _ _ => rfl
  cases parent with
  | none => exact bind (pure _) fun _ => bind newId fun _ => define _ _
  | some c => exact bind (nest _ _) fun _ => bind newId fun _ => define _ _

end Elementary

end Action

end Lox
