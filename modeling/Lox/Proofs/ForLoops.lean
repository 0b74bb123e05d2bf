import Lox.Proofs.Mirroring
import Lox.Proofs.ParserComplete

/-! # Loops with three clauses

A `for` statement as it is written (`ForLoop`), and what it means: one scope around all of it, in which the first
clause runs once; then rounds, as long as the condition holds, of the body and after it the step (`ForLoop.run`).  Its
names stand where its parts would stand in one block, the body last (`ForLoop.distances`).

The grammar writes it with a block and a `while` (`ForLoop.lowered`).  The tree has one scope more around body and step
if there is a step, and one less around all if there is no first clause.  Where the distances know of these scopes, the
tree does what the loop means (`ForLoop.lowered_together`, `ForLoop.rounds_together`, `ForLoop.run_together`). -/

namespace Lox

open Lox.Action

/-- A `for` statement as it is written: a first clause, a condition and a step, each of which may be absent, and a
body. -/
structure ForLoop (ι : Type) where
  start : Option (Stmt ι)
  condition : Option (Expr ι)
  step : Option (Expr ι)
  body : Stmt ι

namespace ForLoop

/-! ### Trees -/

section trees

variable {ι κ : Type} (l : ForLoop ι)

/-- One round as a statement: the body, or a block of the body and the step. -/
def round : Stmt ι :=
  match l.step with
  | some e => .block [l.body, .expression e]
  | none => l.body

/-- The condition, or `true` at a node with a given label. -/
def test (i : ι) : Expr ι := l.condition.getD (.literal i (.bool true))

/-- The rounds as a statement. -/
def rounds (i : ι) : Stmt ι := .while (l.test i) l.round

/-- The statement that the grammar writes for the loop.  The label is that of an absent condition. -/
def lowered (i : ι) : Stmt ι :=
  match l.start with
  | some s => .block [s, l.rounds i]
  | none => l.rounds i

/-- A loop with other labels and lexemes. -/
def map (f : ι → κ) (g : Lexeme → Lexeme) : ForLoop κ where
  start := l.start.map (·.map f g)
  condition := l.condition.map (·.map f g)
  step := l.step.map (·.map f g)
  body := l.body.map f g

theorem lowered_map (f : ι → κ) (g : Lexeme → Lexeme) (i : ι) : (l.lowered i).map f g = (l.map f g).lowered (f i) := by
  obtain ⟨start, condition, step, body⟩ := l
  cases start <;> cases condition <;> cases step <;> rfl

theorem lowered_eq (l : ForLoop Unit) : l.lowered () = Parser.forLoop l.start l.condition l.step l.body := by
  obtain ⟨start, condition, step, body⟩ := l
  cases start <;> cases step <;> rfl

/-- A loop declares nothing in the scope around it. -/
theorem declared?_lowered (i : ι) : (l.lowered i).declared? = none := by
  unfold lowered
  split <;> rfl

/-- Numbers the nodes of a loop from `next` on, in the order of the tree; gives the number of the condition as well. -/
def number (next : NodeId) (l : ForLoop Unit) : ForLoop NodeId × NodeId :=
  let (start, i) := match l.start with
    | some s => (some (s.number next).1, (s.number next).2)
    | none => (none, next)
  let middle := ((l.test ()).number i).2
  let (body, last) := l.body.number middle
  (⟨start, (Expr.number? i l.condition).1, (Expr.number? last l.step).1, body⟩, i)

theorem lowered_number (next : NodeId) (l : ForLoop Unit) :
    ((l.lowered ()).number next).1 = (l.number next).1.lowered (l.number next).2 := by
  obtain ⟨start, condition, step, body⟩ := l
  cases start <;> cases condition <;> cases step <;> rfl

theorem map_number (next : NodeId) (l : ForLoop Unit) : (l.number next).1.map unnumbered id = l := by
  obtain ⟨start, condition, step, body⟩ := l
  cases start <;> simp [map, number, Stmt.map_number, Expr.map?_number]

end trees

end ForLoop

/-! ### Texts -/

/-- `ForText dangling ts l`: the tokens `ts` are a text of the loop `l`; when it is dangling, no `else` may follow. -/
inductive ForText : Bool → List Token → ForLoop Unit → Prop
  | mk {dangling : Bool} {k l s r : Token} {is cs us bs : List Token} {start : Option PlainStmt}
      {c step : Option PlainExpr} {body : PlainStmt} (hk : k.kind = .keyword .for_) (hl : l.kind = .leftParen)
      (hi : StartText is start) (hc : ExprText? cs c) (hs : s.kind = .semicolon) (hu : ExprText? us step)
      (hr : r.kind = .rightParen) (hb : StmtText dangling bs body) :
      ForText dangling (k :: l :: (is ++ (cs ++ s :: (us ++ r :: bs)))) ⟨start, c, step, body⟩

/-- A statement that starts with the word is a loop. -/
theorem StmtText.forText {dangling : Bool} {ts : List Token} {s : PlainStmt} (h : StmtText dangling ts s)
    (hfor : ∀ t ∈ ts.head?, t.kind = .keyword .for_) : ∃ l, ForText dangling ts l ∧ s = l.lowered () := by
  cases h with
  | «for» hk hl hi hc hs hu hr hb => exact ⟨_, .mk hk hl hi hc hs hu hr hb, (ForLoop.lowered_eq ⟨_, _, _, _⟩).symm⟩
  | @expression ts s e h hs =>
      obtain ⟨t, us, hts⟩ := List.exists_cons_of_ne_nil (List.append_ne_nil_of_right_ne_nil ts (List.cons_ne_nil s []))
      have hnext := h.notNext (k := .keyword .for_) rfl [s]
      rw [hts] at hfor hnext
      exact absurd (hfor t rfl) (hnext t rfl)
  | print h | ret h | block h | ite h | iteElse h | «while» h => cases h.symm.trans (hfor _ rfl)

/-- The body of a loop is no declaration. -/
theorem ForText.body_declares {dangling : Bool} {ts : List Token} {l : ForLoop Unit} (h : ForText dangling ts l) :
    l.body.declared? = none := by
  cases h with
  | mk _ _ _ _ _ _ _ hb => exact hb.declared?

namespace ForLoop

/-! ### Places -/

section places

/-- What every turn of a loop runs, as statements: what stands in the parentheses first, and then the body. -/
def repeated (l : ForLoop NodeId) : List (Stmt NodeId) :=
  l.condition.toList.map .expression ++ (l.step.toList.map .expression ++ [l.body])

/-- The parts of a loop in the order in which their names are resolved. -/
def parts (l : ForLoop NodeId) : List (Stmt NodeId) := l.start.toList ++ l.repeated

/-- The scopes around the first clause. -/
def scope (l : ForLoop NodeId) (outer : Surroundings) : Surroundings :=
  .names (Stmt.declarations l.start.toList) [] :: outer

/-- The scopes around all that comes after the first clause: whatever is declared there, the body does not declare. -/
def header (l : ForLoop NodeId) (outer : Surroundings) : Surroundings := Stmt.afterAll (l.scope outer) l.start.toList

/-- The expressions of the condition in some scopes, and of step and body in others. -/
def clauses (l : ForLoop NodeId) (around inner : Surroundings) : List Placed :=
  l.condition.toList.map (⟨around, none, ·⟩) ++
    (l.step.toList.map (⟨inner, none, ·⟩) ++ l.body.expressions inner)

/-- The expressions of a loop, in the scopes around it and one of its own. -/
def expressions (l : ForLoop NodeId) (outer : Surroundings) : List Placed := (Stmt.block l.parts).expressions outer

/-- The distances of the uses of names in a loop. -/
def distances (l : ForLoop NodeId) (outer : Surroundings) : Distances :=
  distancesOf ((l.expressions outer).flatMap Placed.uses)

variable (l : ForLoop NodeId)

theorem repeated_expressions (around : Surroundings) :
    Stmt.expressionsAll around l.repeated = l.clauses around around := by
  unfold repeated clauses
  cases l.condition <;> cases l.step <;>
    simp [Stmt.expressionsAll, Stmt.expressions, Stmt.after, Stmt.declared?, Surroundings.declare?]

variable (hd : l.body.declared? = none)

include hd

theorem declarations_repeated : Stmt.declarations l.repeated = [] := by
  have hnone (e : Option (Expr NodeId)) : Stmt.declarations (e.toList.map .expression) = [] := by cases e <;> rfl
  have hbody : Stmt.declarations [l.body] = [] := by
    rw [Stmt.declarations_cons, hd]
    rfl
  rw [repeated, Stmt.declarations, List.filterMap_append, List.filterMap_append]
  exact congrArg₂ (· ++ ·) (hnone l.condition) (congrArg₂ (· ++ ·) (hnone l.step) hbody)

theorem expressions_eq (outer : Surroundings) : l.expressions outer =
    Stmt.expressionsAll (l.scope outer) l.start.toList ++ l.clauses (l.header outer) (l.header outer) := by
  have hdecls : Stmt.declarations l.parts = Stmt.declarations l.start.toList := by
    rw [Stmt.declarations, parts, List.filterMap_append]
    exact (congrArg _ (l.declarations_repeated hd)).trans (List.append_nil _)
  rw [expressions, Stmt.expressions, hdecls, ← repeated_expressions]
  unfold parts header scope
  cases l.start <;> simp [Stmt.expressionsAll, Stmt.afterAll]

/-- The scopes around the rounds of the tree. -/
def base (outer : Surroundings) : Surroundings :=
  match l.start with
  | some _ => l.header outer
  | none => outer

/-- The scopes around body and step in the tree. -/
def inside (around : Surroundings) : Surroundings :=
  match l.step with
  | some _ => .names [] [] :: around
  | none => around

theorem round_expressions (around : Surroundings) : l.round.expressions around =
    l.body.expressions (l.inside around) ++ l.step.toList.map (⟨l.inside around, none, ·⟩) := by
  unfold round inside
  cases l.step with
  | none => simp
  | some e =>
      have hnone : Stmt.declarations [l.body, .expression e] = [] := by
        rw [Stmt.declarations_cons, hd]
        rfl
      simp [Stmt.expressions, hnone, Stmt.expressionsAll, Stmt.after, hd, Surroundings.declare?]

omit hd in
theorem lowered_expressions (i : NodeId) (outer : Surroundings) : (l.lowered i).expressions outer =
    Stmt.expressionsAll (l.scope outer) l.start.toList ++ (l.rounds i).expressions (l.base outer) := by
  unfold lowered base scope header
  cases hs : l.start with
  | none => simp [Stmt.expressionsAll]
  | some s =>
      have hdecls : Stmt.declarations [s, l.rounds i] = Stmt.declarations [s] :=
        (Stmt.declarations_cons s [l.rounds i]).trans (Stmt.declarations_cons s []).symm
      simp [Stmt.expressions, hdecls, Stmt.expressionsAll, Stmt.afterAll, scope, hs]

end places

/-! ### Meaning -/

section meaning

variable (S : Settings) (fuel : Nat) (l : ForLoop NodeId)

/-- The value of the condition; one that is absent holds. -/
def check : Action Value :=
  match l.condition with
  | some e => eval S fuel e
  | none => pure (.bool true)

/-- One turn: the body, and then the step for its effects. -/
def turn : Action Unit := do
  exec S fuel l.body
  if let some e := l.step then
    let _ ← eval S fuel e

/-- Turns as long as the condition holds. -/
def turnAll : Action Unit := repeatWhile (l.check S fuel) (l.turn S fuel) fuel

/-- The meaning of a loop: in a scope of its own the first clause once, and then turns.  What leaves a part of the loop
leaves the loop. -/
def run : Action Unit := do
  let scope ← nest [] (← get).env
  within scope do
    if let some s := l.start then
      exec S fuel s
    l.turnAll S fuel

end meaning

/-! ### The tree does what the loop means -/

/-- The distances of the uses in condition, step and body fit the layers around them. -/
structure Fits (U : Tables) (Γ Γ' : Layers) (l : ForLoop NodeId) : Prop where
  condition : ∀ e ∈ l.condition, U.FitsAll Γ e.references
  step : ∀ e ∈ l.step, U.FitsAll Γ' e.references
  body : BracedNode U Γ' l.body l.body

/-- The layers around body and step in the tree, where there is a scope more if there is a step. -/
def layers (l : ForLoop NodeId) (Γ : Layers) : Layers :=
  match l.step with
  | some _ => .extra :: Γ
  | none => Γ

section together

variable {U : Tables} {S : Settings} {p q : Prop} {w : Partners} {env env' : Env} {f g units : Nat} {Γ : Layers}

/-- The second action is a node that only the second run has. -/
theorem exec_spends {α : Type} {act : Action α} {s : Stmt NodeId} {Q : Partners → α → Unit → Prop}
    (hg : Spare p q (units + 1) f g)
    (h : ∀ n, Spare p q units f n → Together U p q w env env' act (s.execWith S (eval S n) (exec S n) n) Q) :
    Together U p q w env env' act (exec S g s) Q := by
  cases g with
  | zero =>
      have hq : q := hg.right.resolve_right (Nat.not_succ_le_zero _)
      exact fun m m' _ _ _ => .right hq _ m'
  | succ n =>
      rw [exec_succ]
      exact h n hg.spend

variable {l : ForLoop NodeId} (hS : S.lookup = .byDistance)

include hS

/-- Expressions and statements go together, whatever fuel the settings name. -/
theorem eval_goes (hg : Spare p q units f g) {e : Expr NodeId} (he : U.FitsAll Γ e.references)
    (ha : Aligned w Γ env env') : Together U p q w env env' (eval S f e) (eval S g e) (ValueBeside U) :=
  (alongside (G := S.fuel) hS f).1 hg.supplied.lend he ha

theorem exec_goes (hg : Spare p q units f g) {s : Stmt NodeId} (hs : BracedNode U Γ s s) (ha : Aligned w Γ env env') :
    Together U p q w env env' (exec S f s) (exec S g s) (fun _ _ _ => True) :=
  (alongside (G := S.fuel) hS f).2 hg.supplied (.same hs) ha

/-- The condition, as the loop and as the tree has it. -/
theorem check_together (hg : Spare p q (units + 1) f g) (hc : ∀ e ∈ l.condition, U.FitsAll Γ e.references)
    (ha : Aligned w Γ env env') (i : NodeId) :
    Together U p q w env env' (l.check S f) (eval S g (l.test i)) (ValueBeside U) := by
  unfold check test
  cases hcond : l.condition with
  | some e => exact eval_goes hS hg (hc e hcond) ha
  | none =>
      cases g with
      | zero =>
          have hq : q := hg.right.resolve_right (Nat.not_succ_le_zero _)
          exact fun m m' _ _ _ => .right hq _ m'
      | succ n =>
          rw [Option.getD_none, eval_succ]
          exact .pure (.bool true)

/-- A turn, and what the tree has for it. -/
theorem round_together (hg : Spare p q (units + 2) f g) (h : l.Fits U Γ (l.layers Γ)) (ha : Aligned w Γ env env') :
    Together U p q w env env' (l.turn S f) (exec S g l.round) (fun _ _ _ => True) := by
  have hbody := h.body
  have hstep := h.step
  unfold turn round
  unfold layers at hbody hstep
  cases hs : l.step with
  | none =>
      rw [hs] at hbody
      dsimp only at hbody ⊢
      rw [bind_pure_unit]
      exact exec_goes hS hg hbody ha
  | some e =>
      rw [hs] at hbody hstep
      refine exec_spends hg fun n hn => .inExtra fun f' => ?_
      refine .bind (exec_goes hS hn hbody (.extra f' ha)) fun w₁ hw _ _ _ => ?_
      rw [runAll_singleton]
      refine exec_spends hn fun k hk => .bind (eval_goes hS hk (hstep e rfl) ((Aligned.extra f' ha).mono hw)) ?_
      exact fun _ _ _ _ _ => .pure trivial

/-- The turns of a loop, and the rounds of its tree. -/
theorem rounds_together (hg : Spare p q (units + 3) f g) (h : l.Fits U Γ (l.layers Γ)) (ha : Aligned w Γ env env')
    (i : NodeId) :
    Together U p q w env env' (l.turnAll S f) (exec S g (l.rounds i)) (fun _ _ _ => True) :=
  exec_spends hg fun _ hn => repeatWhile_together (fun ha => check_together hS hn h.condition ha i)
    (fun ha => round_together hS hn h ha) f hn.supplied.limit ha

/-- A loop with a first clause, and its tree. -/
theorem lowered_together (hg : Spare p q (units + 4) f g) {s : Stmt NodeId} (hs : l.start = some s)
    (hstart : BracedNode U (.shared :: Γ) s s) (h : l.Fits U (.shared :: Γ) (l.layers (.shared :: Γ)))
    (ha : Aligned w Γ env env') (i : NodeId) :
    Together U p q w env env' (l.run S f) (exec S g (l.lowered i)) (fun _ _ _ => True) := by
  unfold run lowered
  rw [hs]
  refine exec_spends hg fun n hn => .get fun m m' _ hm hm' => ?_
  rw [hm, hm']
  refine .bind (.nest ha .nil) fun w₁ _ inner inner' hin => .within ?_
  refine .bind (exec_goes hS hn hstart hin) fun w₂ hw _ _ _ => ?_
  rw [runAll_singleton]
  exact rounds_together hS hn h (hin.mono hw) i

/-- The turns of a loop, and the same turns one scope further in. -/
theorem turnAll_together (hg : Spare p q units f g) (h : l.Fits U Γ Γ) (ha : Aligned w Γ env env') :
    Together U p q w env env' (l.turnAll S f) (l.turnAll S g) (fun _ _ _ => True) := by
  refine repeatWhile_together (fun ha => ?_) (fun ha => ?_) f hg.supplied.limit ha
  · unfold check
    cases hcond : l.condition with
    | some e => exact eval_goes hS hg (h.condition e hcond) ha
    | none => exact .pure (.bool true)
  · refine .bind (exec_goes hS hg h.body ha) fun w₁ hw _ _ _ => ?_
    cases hs : l.step with
    | some e => exact .bind (eval_goes hS hg (h.step e hs) (ha.mono hw)) fun _ _ _ _ _ => .pure trivial
    | none => exact .pure trivial

/-- The turns of a loop without a first clause, and the loop itself, which has a scope of its own. -/
theorem run_together (hg : Spare p q units f g) (hs : l.start = none) (h : l.Fits U (.extra :: Γ) (.extra :: Γ))
    (ha : Aligned w Γ env env') :
    Together U p q w env env' (l.turnAll S f) (l.run S g) (fun _ _ _ => True) := by
  unfold run
  rw [hs]
  exact .inExtra fun f' => turnAll_together hS hg h (.extra f' ha)

end together

end ForLoop

end Lox
