import Lox.Eval

/-! # Operators

Operators see little of their operands: whether a value counts as true, its text, the number that it is, and whether
two values are equal.  From operands that are the same in this they come to the same value, or to the same fault
(`UnaryOp.apply_alike`, `BinaryOp.apply_alike`).  The value is a scalar: what operators compute holds no code and no
objects. -/

namespace Lox

/-! ### Values -/

/-- A value that holds neither code nor objects. -/
inductive Value.Scalar : Value → Prop
  | nil : Scalar .nil
  | bool (b : Bool) : Scalar (.bool b)
  | number (x : Float) : Scalar (.number x)
  | string (s : String) : Scalar (.string s)

theorem Value.scalar_ofLiteral (v : Literal) : (Value.ofLiteral v).Scalar := by cases v <;> constructor

/-- The number that a value is. -/
def Value.number? : Value → Option Float
  | number x => some x
  | _ => none

/-- A value that operators do not tell apart from another one, unless they ask whether two values are equal. -/
structure Value.Resembles (v v' : Value) : Prop where
  truthy : v'.truthy = v.truthy
  text : v'.text = v.text
  number : v'.number? = v.number?

theorem Value.Resembles.refl (v : Value) : v.Resembles v := ⟨rfl, rfl, rfl⟩

/-! ### Computations -/

/-- An action that comes to a scalar, or else is a fault at a line. -/
inductive Action.Computes (line : Nat) : Action Value → Prop
  | value {v : Value} : v.Scalar → Computes line (pure v)
  | fault (fault : RuntimeFault) : Computes line (Action.fail fault line)

/-- Two actions that come to the same scalar, or else are the same fault, each at a line of its own. -/
inductive Action.ComputeAlike (line line' : Nat) : Action Value → Action Value → Prop
  | value {v : Value} : v.Scalar → ComputeAlike line line' (pure v) (pure v)
  | fault (fault : RuntimeFault) : ComputeAlike line line' (Action.fail fault line) (Action.fail fault line')

theorem Action.ComputeAlike.computes {line line' : Nat} {act act' : Action Value}
    (h : Action.ComputeAlike line line' act act') : act.Computes line := by
  cases h with
  | value hv => exact .value hv
  | fault fault => exact .fault fault

section operators

variable {u u' v v' : Value}

theorem negate_eq (line : Nat) (v : Value) : UnaryOp.negate.apply line v =
    v.number?.elim (Action.fail .operandNotNumber line) fun x => pure (.number (-x)) := by
  cases v <;> rfl

theorem withNumbers_eq (f : Float → Float → Value) (line : Nat) (u v : Value) : withNumbers f line u v =
    u.number?.elim (Action.fail .operandsNotNumbers line) fun x =>
      v.number?.elim (Action.fail .operandsNotNumbers line) fun y => pure (f x y) := by
  cases u <;> cases v <;> rfl

theorem Value.plus_eq (u v : Value) : u.plus v =
    u.number?.elim (.string (u.text ++ v.text)) fun x =>
      v.number?.elim (.string (u.text ++ v.text)) fun y => .number (x + y) := by
  cases u <;> cases v <;> rfl

theorem Value.scalar_plus (u v : Value) : (u.plus v).Scalar := by
  rw [Value.plus_eq]
  cases u.number? with
  | none => exact .string _
  | some x =>
    cases v.number? with
    | none => exact .string _
    | some y => exact .number _

theorem Value.Resembles.plus (hu : u.Resembles u') (hv : v.Resembles v') : u'.plus v' = u.plus v := by
  rw [Value.plus_eq, Value.plus_eq, hu.number, hv.number, hu.text, hv.text]

theorem withNumbers_alike {f : Float → Float → Value} (hf : ∀ x y, (f x y).Scalar) (hu : u.Resembles u')
    (hv : v.Resembles v') (line line' : Nat) :
    Action.ComputeAlike line line' (withNumbers f line u v) (withNumbers f line' u' v') := by
  rw [withNumbers_eq, withNumbers_eq, hu.number, hv.number]
  cases u.number? with
  | none => exact .fault _
  | some x =>
    cases v.number? with
    | none => exact .fault _
    | some y => exact .value (hf x y)

theorem UnaryOp.apply_alike (op : UnaryOp) (h : v.Resembles v') (line line' : Nat) :
    Action.ComputeAlike line line' (op.apply line v) (op.apply line' v') := by
  cases op with
  | not =>
    simp only [UnaryOp.apply, h.truthy]
    exact .value (.bool _)
  | negate =>
    rw [negate_eq, negate_eq, h.number]
    cases v.number? with
    | none => exact .fault _
    | some x => exact .value (.number _)

theorem BinaryOp.apply_alike (op : BinaryOp) (hu : u.Resembles u') (hv : v.Resembles v')
    (he : u'.equals v' = u.equals v) (line line' : Nat) :
    Action.ComputeAlike line line' (op.apply line u v) (op.apply line' u' v') := by
  cases op with
  | equal | notEqual =>
    simp only [BinaryOp.apply, he]
    exact .value (.bool _)
  | add =>
    simp only [BinaryOp.apply, hu.plus hv]
    exact .value (u.scalar_plus v)
  | subtract | multiply | divide => exact withNumbers_alike (fun _ _ => .number _) hu hv line line'
  | greater | greaterEqual | less | lessEqual => exact withNumbers_alike (fun _ _ => .bool _) hu hv line line'

theorem UnaryOp.computes (op : UnaryOp) (line : Nat) (v : Value) : (op.apply line v).Computes line :=
  (op.apply_alike (.refl v) line line).computes

theorem BinaryOp.computes (op : BinaryOp) (line : Nat) (u v : Value) : (op.apply line u v).Computes line :=
  (op.apply_alike (.refl u) (.refl v) rfl line line).computes

end operators

/-- What an operator on truth values asks of its first operand. -/
theorem LogicalOp.settledBy_resembling (op : LogicalOp) {v v' : Value} (h : v.Resembles v') :
    op.settledBy v' = op.settledBy v := by
  cases op <;> simp only [LogicalOp.settledBy, h.truthy]

end Lox
