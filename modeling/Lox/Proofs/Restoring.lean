import Lox.Proofs.Elementary
import Lox.Proofs.Sessions

/-! # What every exit restores

However an action ends, it leaves the scope chain, the number of open calls and the distances as it found
them, and no frame goes away, that of the globals included (`Action.Restores`).  `within`, `deeper` and
`defineClass` change the chain or the number on the way; each sets it back on every exit.  So between the
steps of a session the chain is the frame of globals alone and no call is open
(`Session.restored`). -/

namespace Lox

/-- What holds of a machine after an action that found the machine `m`. -/
structure Machine.Restored (m n : Machine) : Prop where
  env : n.env = m.env
  depth : n.depth = m.depth
  distances : n.distances = m.distances
  frames : m.heap.frames.size ≤ n.heap.frames.size

namespace Machine.Restored

variable {m n k : Machine}

theorem refl (m : Machine) : m.Restored m := ⟨rfl, rfl, rfl, Nat.le_refl _⟩

theorem trans (h : m.Restored n) (h' : n.Restored k) : m.Restored k :=
  ⟨h'.env.trans h.env, h'.depth.trans h.depth, h'.distances.trans h.distances, Nat.le_trans h.frames h'.frames⟩

end Machine.Restored

namespace Action

variable {α β : Type}

/-- The machine after an action, however it ends. -/
def after (act : Action α) (m : Machine) : Machine :=
  match act m with
  | .ok _ n => n
  | .error _ n => n

/-- An action that restores what it changes, on every exit. -/
def Restores (act : Action α) : Prop := ∀ m : Machine, m.Restored (act.after m)

/-! ### Combinators -/

namespace Restores

theorem pure (a : α) : (Pure.pure a : Action α).Restores := fun m => .refl m

theorem throw (e : Exit) : (MonadExcept.throw e : Action α).Restores := fun m => .refl m

theorem get : (MonadState.get : Action Machine).Restores := fun m => .refl m

theorem bind {act : Action α} {f : α → Action β} (h : act.Restores) (hf : ∀ a, (f a).Restores) :
    (act >>= f).Restores := by
  intro m
  have hm := h m
  change m.Restored (after (EStateM.bind act f) m)
  unfold after EStateM.bind
  unfold after at hm
  cases hr : act m with
  | error e n =>
      rw [hr] at hm
      exact hm
  | ok a n =>
      rw [hr] at hm
      exact hm.trans (hf a n)

/-- The chain of an action within another is the one that was there before. -/
theorem within {act : Action α} (h : act.Restores) (env : Env) : (Action.within env act).Restores := by
  intro m
  have hm := h { m with env := env }
  unfold after at hm ⊢
  unfold Action.within
  dsimp only
  cases hr : act { m with env := env } <;> rw [hr] at hm <;> exact ⟨rfl, hm.depth, hm.distances, hm.frames⟩

/-- A call counts up and down again. -/
theorem deeper {act : Action α} (h : act.Restores) : (Action.deeper act).Restores := by
  intro m
  have hm := h { m with depth := m.depth + 1 }
  unfold after at hm ⊢
  unfold Action.deeper
  cases hr : act { m with depth := m.depth + 1 } <;> rw [hr] at hm <;>
    exact ⟨hm.env, congrArg (· - 1) hm.depth, hm.distances, hm.frames⟩

theorem returning {body : Action Unit} (h : body.Restores) : (Action.returning body).Restores := by
  intro m
  have hm := h m
  unfold after at hm ⊢
  unfold Action.returning
  cases hr : body m with
  | ok a n =>
      rw [hr] at hm
      exact hm
  | error e n =>
      rw [hr] at hm
      cases e <;> exact hm

theorem modifyHeap {f : Heap → Heap} (hf : ∀ h, h.frames.size ≤ (f h).frames.size) :
    (Action.modifyHeap f).Restores := fun m => ⟨rfl, rfl, rfl, hf m.heap⟩

theorem updateHeap {f : Heap → α × Heap} (hf : ∀ h, h.frames.size ≤ (f h).2.frames.size) :
    (Action.updateHeap f).Restores := fun m => ⟨rfl, rfl, rfl, hf m.heap⟩

theorem readClock (clock : Nat → Nat) : (Action.readClock clock).Restores :=
  fun _ => ⟨rfl, rfl, rfl, Nat.le_refl _⟩

/-! ### Single steps -/

theorem elementary {act : Action α} (h : act.Elementary) : act.Restores := by
  induction h with
  | pure a => exact pure a
  | throw _ => exact throw _
  | bind _ _ ih ihf => exact bind ih ihf
  | get _ _ ih => exact bind get ih
  | modifyHeap h => exact modifyHeap h
  | updateHeap h => exact updateHeap h
  | readClock clock => exact readClock clock

theorem printLine (value : Value) : (Action.printLine value).Restores := by
  intro m
  unfold after Action.printLine
  dsimp only
  cases m.sink.write (value.text ++ "\n").toUTF8 with
  | mk fault sink => cases fault <;> exact ⟨rfl, rfl, rfl, Nat.le_refl _⟩

end Restores

end Action

open Lox.Action

/-! ### Evaluation -/

section evaluation

variable {settings : Settings} {ev : Expr NodeId → Action Value} {ex : Stmt NodeId → Action Unit}

theorem runAll_restores (hx : ∀ s, (ex s).Restores) (body : List (Stmt NodeId)) : (runAll ex body).Restores := by
  induction body with
  | nil => exact .pure _
  | cons s body ih => exact .bind (hx s) fun _ => ih

theorem evalEach_restores (he : ∀ e, (ev e).Restores) (es : List (Expr NodeId)) : (evalEach ev es).Restores := by
  induction es with
  | nil => exact .pure _
  | cons e es ih => exact .bind (he e) fun _ => .bind ih fun _ => .pure _

theorem evalOptional_restores (he : ∀ e, (ev e).Restores) : ∀ e, (evalOptional ev e).Restores
  | none => .pure _
  | some e => he e

theorem Closure.invoke_restores (hx : ∀ s, (ex s).Restores) (f : Closure) (values : List Value) :
    (f.invoke ex values).Restores := by
  refine .bind (.elementary (.nest _ _)) fun _ => .bind (.returning (.within (runAll_restores hx _) _)) fun _ => ?_
  split
  · exact .bind .get fun _ => .elementary (.sound _)
  · exact .pure _

theorem Class.construct_restores (hx : ∀ s, (ex s).Restores) (c : Class) (values : List Value) :
    (c.construct ex values).Restores := by
  refine .bind (.elementary .newInstance) fun _ => ?_
  cases c.find? initializerName with
  | none => exact .pure _
  | some f =>
      exact .bind (.elementary (.bindTo _ f)) fun _ => .bind (Closure.invoke_restores hx _ _) fun _ => .pure _

theorem Callable.call_restores (hx : ∀ s, (ex s).Restores) (callee : Callable) (values : List Value) :
    (callee.call settings ex values).Restores := by
  cases callee with
  | clock => exact .readClock _
  | function f => exact f.invoke_restores hx values
  | cls c => exact c.construct_restores hx values

theorem Value.call_restores (hx : ∀ s, (ex s).Restores) (v : Value) (line : Nat) (values : List Value) :
    (v.call settings ex line values).Restores := by
  unfold Value.call
  split
  · exact .elementary (.fail _ _)
  · split
    · exact .elementary (.fail _ _)
    · refine .bind .get fun _ => ?_
      split
      · exact .elementary (.fail _ _)
      · exact .deeper (Callable.call_restores hx _ _)

theorem repeatWhile_restores {condition : Action Value} {body : Action Unit} (hc : condition.Restores)
    (hb : body.Restores) (limit : Nat) : (repeatWhile condition body limit).Restores := by
  induction limit with
  | zero => exact .throw _
  | succ limit ih =>
      refine .bind hc fun v => ?_
      split
      · exact .bind hb fun _ => ih
      · exact .pure _

theorem Expr.evalWith_restores (he : ∀ e, (ev e).Restores) (hx : ∀ s, (ex s).Restores)
    (e : Expr NodeId) : (e.evalWith settings ev ex).Restores := by
  cases e with
  | literal id v => exact .pure _
  | group id inner => exact he inner
  | unary id op sign operand => exact .bind (he _) fun _ => .elementary (.computes (op.computes _ _))
  | binary id op sign left right =>
      exact .bind (he _) fun _ => .bind (he _) fun _ => .elementary (.computes (op.computes _ _ _))
  | logical id op sign left right =>
      refine .bind (he _) fun _ => ?_
      split
      · exact .pure _
      · exact he right
  | name ref => exact .elementary (.read _ _)
  | assign target value => exact .bind (he _) fun _ => .bind (.elementary (.write _ _ _)) fun _ => .pure _
  | call id callee closing arguments =>
      exact .bind (he _) fun _ => .bind (evalEach_restores he _) fun _ => Value.call_restores hx _ _ _
  | get id object property => exact .bind (he _) fun _ => .elementary (.property _ _)
  | set id object property value =>
      refine .bind (he _) fun _ => ?_
      split
      · exact .bind (he _) fun _ => .bind (.elementary (.setField _ _ _)) fun _ => .pure _
      · exact .elementary (.fail _ _)
  | this ref => exact .elementary (.read _ _)
  | super ref method => exact .elementary (.bind (.readSuper _ _ _) fun _ => .superMethod _ _ _)

theorem Stmt.execWith_restores (he : ∀ e, (ev e).Restores) (hx : ∀ s, (ex s).Restores) (limit : Nat)
    (s : Stmt NodeId) : (s.execWith settings ev ex limit).Restores := by
  cases s with
  | expression value => exact .bind (he _) fun _ => .pure _
  | print value => exact .bind (he _) fun _ => .printLine _
  | var name initializer => exact .bind (evalOptional_restores he _) fun _ => .elementary (.define _ _)
  | block body =>
      exact .bind .get fun _ => .bind (.elementary (.nest _ _)) fun _ => .within (runAll_restores hx _) _
  | ite condition yes no =>
      refine .bind (he _) fun _ => ?_
      split
      · exact hx yes
      · split
        · exact hx _
        · exact .pure _
  | «while» condition body => exact repeatWhile_restores (he _) (hx _) limit
  | function decl => exact .bind .get fun _ => .elementary (.bind (.newFunction _) fun _ => .define _ _)
  | ret keyword value => exact .bind (evalOptional_restores he _) fun _ => .throw _
  | cls name superclass methods => exact .elementary (.defineClass settings name superclass methods)

/-- Expressions and statements restore what they change, however deep they nest. -/
theorem restores (settings : Settings) (fuel : Nat) :
    (∀ e, (eval settings fuel e).Restores) ∧ ∀ s, (exec settings fuel s).Restores := by
  induction fuel with
  | zero => exact ⟨fun _ => .throw _, fun _ => .throw _⟩
  | succ fuel ih =>
      obtain ⟨he, hx⟩ := ih
      refine ⟨fun e => ?_, fun s => ?_⟩
      · rw [eval_succ]
        exact e.evalWith_restores he hx
      · rw [exec_succ]
        exact s.execWith_restores he hx fuel

end evaluation

/-! ### Sessions -/

/-- The faults for which a step is rejected, if it is. -/
def Ending.rejected? : Ending → Option (List Diagnostic)
  | ran (.rejected faults) => some faults
  | evaluated (.rejected faults) => some faults
  | _ => none

theorem Ending.rejected?_ran {o : Outcome Unit} {faults : List Diagnostic}
    (h : (ran o).rejected? = some faults) : o = .rejected faults := by
  cases o with
  | rejected faults' => exact congrArg _ (Option.some.inj h)
  | _ => exact nomatch h

theorem Ending.rejected?_evaluated {o : Outcome Value} {faults : List Diagnostic}
    (h : (evaluated o).rejected? = some faults) : o = .rejected faults := by
  cases o with
  | rejected faults' => exact congrArg _ (Option.some.inj h)
  | _ => exact nomatch h

namespace Session

variable {settings : Settings} {s : Session}

/-- A session between two steps: the frame of globals is all of the chain, and no call is open. -/
structure Idle (s : Session) : Prop where
  env : s.machine.env = [globalFrame]
  depth : s.machine.depth = 0

theorem start_idle (sink : Sink) : (Session.start sink).Idle := ⟨rfl, rfl⟩

theorem Idle.of_restored (h : s.Idle) {m n : Machine} {next : NodeId} (hm : m.env = s.machine.env)
    (hd : m.depth = s.machine.depth) (hn : m.Restored n) : Idle ⟨n, next⟩ :=
  ⟨hn.env.trans (hm.trans h.env), hn.depth.trans (hd.trans h.depth)⟩

theorem interpret_restored (body : List (Stmt NodeId)) (m : Machine) :
    m.Restored (interpret settings body m).2 := by
  have h := runAll_restores (restores settings settings.fuel).2 body m
  unfold Action.after at h
  unfold interpret
  cases hr : runAll (exec settings settings.fuel) body m with
  | ok a n =>
      rw [hr] at h
      exact h
  | error e n =>
      rw [hr] at h
      cases e <;> exact h

theorem run_idle (h : s.Idle) (source : String) : (s.run settings source).2.Idle := by
  unfold run
  cases analyze s.nextNode source with
  | error faults => exact h
  | ok r =>
      obtain ⟨p, next⟩ := r
      exact h.of_restored (m := learn s.machine p.distances) rfl rfl (interpret_restored p.statements _)

theorem evaluate_idle (h : s.Idle) (source : String) : (s.evaluate settings source).2.Idle := by
  unfold evaluate
  cases analyzeExpression s.nextNode source with
  | error faults => exact h
  | ok r =>
      obtain ⟨e, next⟩ := r
      have hm := (restores settings settings.fuel).1 e.expr (learn s.machine e.distances)
      unfold Action.after at hm
      dsimp only
      cases hr : eval settings settings.fuel e.expr (learn s.machine e.distances) <;> rw [hr] at hm <;>
        exact h.of_restored (m := learn s.machine e.distances) rfl rfl hm

/-- However a step ends, the session is idle after it. -/
theorem step_idle (h : s.Idle) (st : Step) : (s.step settings st).2.Idle := by
  cases st with
  | run source => exact run_idle h source
  | evaluate source => exact evaluate_idle h source

theorem perform_idle (h : s.Idle) (steps : List Step) : (s.perform settings steps).2.Idle := by
  induction steps generalizing s with
  | nil => exact h
  | cons st steps ih => exact ih (step_idle h st)

theorem outcomeOf_ne_rejected {α : Type} (e : Exit) (faults : List Diagnostic) :
    (outcomeOf e : Outcome α) ≠ .rejected faults := by
  cases e <;> nofun

theorem flushed_ne_rejected (m : Machine) (faults : List Diagnostic) : flushed m ≠ .rejected faults := by
  unfold flushed
  split <;> nofun

theorem interpret_ne_rejected (body : List (Stmt NodeId)) (m : Machine) (faults : List Diagnostic) :
    (interpret settings body m).1 ≠ .rejected faults := by
  unfold interpret
  split
  · exact flushed_ne_rejected _ _
  · exact flushed_ne_rejected _ _
  · exact outcomeOf_ne_rejected _ _

/-- A step that is rejected changes nothing. -/
theorem step_rejected {st : Step} {faults : List Diagnostic}
    (h : (s.step settings st).1.rejected? = some faults) : (s.step settings st).2 = s := by
  cases st with
  | run source =>
      have h := Ending.rejected?_ran h
      change (s.run settings source).2 = s
      unfold run at h ⊢
      cases ha : analyze s.nextNode source with
      | error faults => rfl
      | ok r =>
          rw [ha] at h
          exact absurd h (interpret_ne_rejected _ _ _)
  | evaluate source =>
      have h := Ending.rejected?_evaluated h
      change (s.evaluate settings source).2 = s
      unfold evaluate at h ⊢
      cases ha : analyzeExpression s.nextNode source with
      | error faults => rfl
      | ok r =>
          rw [ha] at h
          dsimp only at h
          split at h
          · exact nomatch h
          · exact absurd h (outcomeOf_ne_rejected _ _)

/-- Every exit restores the machine: an expression or statement leaves the scope chain, the number of open
calls and the distances as it found them, and the frame of globals in place, however it ends.  So after any
steps of a session, however they end, the chain is the frame of globals alone and no call is open; and a step
that is rejected changes nothing. -/
theorem restored (settings : Settings) :
    (∀ fuel (e : Expr NodeId) (m : Machine), m.Restored ((eval settings fuel e).after m)) ∧
    (∀ fuel (s : Stmt NodeId) (m : Machine), m.Restored ((exec settings fuel s).after m)) ∧
    ∀ (sink : Sink) (steps : List Step),
      let s := Session.reached settings sink steps
      s.machine.env = [globalFrame] ∧ s.machine.depth = 0 ∧
        ∀ st faults, (s.step settings st).1.rejected? = some faults → (s.step settings st).2 = s := by
  refine ⟨fun fuel => (restores settings fuel).1, fun fuel => (restores settings fuel).2, ?_⟩
  intro sink steps s
  have hs : s.Idle := perform_idle (start_idle sink) steps
  exact ⟨hs.env, hs.depth, fun st faults => step_rejected⟩

end Session

end Lox
