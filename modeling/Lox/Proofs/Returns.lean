import Lox.Proofs.Receivers
import Lox.Proofs.Unwinding

/-! # No `return` escapes

A `return` ends the innermost call in progress, which is of the function in whose body it stands, and nothing else
(`Session.returns_consumed`).  No expression leaves by a `return`, and a statement does only if it has one among its
parts; so the statements of an accepted program, which has none outside of functions, all run to their end when a run
is done.
The evaluator keeps account of its statements, one construct after the other (`accounts_evaluation`), and so does a
session, one step after the other. -/

namespace Lox

open Traced

/-! ### Evaluation -/

/-- Evaluation with given fuel accounts for statements: an expression runs none of the code that it stands in, and a
statement only its parts. -/
structure AccountedBy (S : Settings) (fuel : Nat) : Prop where
  expr (e : Expr NodeId) {own : Stmt NodeId → Prop} : (Traced.eval S fuel e).Accounts S own
  stmt (s : Stmt NodeId) (own : Stmt NodeId → Prop) :
    (∀ u ∈ s.parts, own u) → (Traced.exec S fuel s).Accounts S own

namespace AccountedBy

variable {S : Settings} {fuel : Nat} {own : Stmt NodeId → Prop}

theorem evalEach (h : AccountedBy S fuel) (es : List (Expr NodeId)) :
    (Traced.evalEach (Traced.eval S fuel) es).Accounts S own := by
  induction es with
  | nil => exact .pure []
  | cons e es ih => exact .bind (h.expr e) fun _ => .bind ih fun _ => .pure _

theorem evalOptional (h : AccountedBy S fuel) (e : Option (Expr NodeId)) :
    (Traced.evalOptional (Traced.eval S fuel) e).Accounts S own := by
  cases e with
  | none => exact .pure _
  | some e => exact h.expr e

/-! #### Calls -/

theorem invoke (h : AccountedBy S fuel) (f : Closure) (values : List Value) :
    (Traced.invoke (Traced.exec S fuel) f values).Calls S := invoke_calls h.stmt f values

theorem construct (h : AccountedBy S fuel) (c : Class) (values : List Value) :
    (Traced.construct (Traced.exec S fuel) c values).Calls S := by
  refine .lift_bind (.elementary .newInstance) fun id => ?_
  cases c.find? initializerName with
  | none => exact .lift (.elementary (.pure _))
  | some initializer =>
      unfold Traced.bindTo
      simp only [bind_assoc, pure_bind]
      exact .note_bind (fun _ _ => rfl) nofun (.lift_bind (.elementary (.nest _ _)) fun env =>
        .bind_pure (h.invoke _ values) _)

theorem callValue (h : AccountedBy S fuel) (callee : Value) (closing : Lexeme) (values : List Value) :
    (Traced.callValue S (Traced.exec S fuel) callee closing values).Accounts S own := by
  have hcall (c : Callable) : (Traced.call S (Traced.exec S fuel) c values).Calls S := by
    cases c with
    | clock => exact .lift (.elementary (.readClock _))
    | function f => exact h.invoke f values
    | cls c => exact h.construct c values
  unfold Traced.callValue
  cases callee.callable? with
  | none => exact .fail _ _
  | some c =>
      dsimp only
      split
      · exact .fail _ _
      · exact attempt_accounts (hcall c) c values closing

/-! #### Properties -/

theorem bound (object : Value) (f : Closure) : (Traced.bound object f).Accounts S own := by
  unfold Traced.bound Traced.bindTo
  simp only [bind_assoc, pure_bind]
  exact .note (fun _ _ => rfl) nofun (.bind (.lift (.elementary (.nest _ _))) fun _ =>
    .lift (.elementary (.newFunction _)))

theorem property (object : Value) (name : Lexeme) : (Traced.property object name).Accounts S own := by
  cases object with
  | instance_ id c =>
      refine .bind (.lift (.elementary (fieldOf_elementary id name))) fun found => ?_
      cases found with
      | some value => exact .pure _
      | none =>
          dsimp only
          cases c.find? name.text with
          | some method => exact bound _ _
          | none => exact .fail _ _
  | _ => exact .fail _ _

theorem superMethod (superclass object : Value) (method : Lexeme) :
    (Traced.superMethod superclass object method).Accounts S own := by
  cases superclass with
  | cls c =>
      cases object with
      | instance_ id c' =>
          unfold Traced.superMethod
          dsimp only
          cases c.find? method.text with
          | some found => exact bound _ _
          | none => exact .fail _ _
      | _ => exact .lift (.elementary (.throw nofun))
  | _ => exact .lift (.elementary (.throw nofun))

/-! #### Expressions -/

theorem evalWith (h : AccountedBy S fuel) (e : Expr NodeId) :
    (Traced.evalWith S (Traced.eval S fuel) (Traced.exec S fuel) e).Accounts S own := by
  cases e with
  | literal id value => exact .pure _
  | group id inner => exact h.expr inner
  | unary id op sign operand =>
      exact .bind (h.expr _) fun _ => .lift (.elementary (.computes (op.computes _ _)))
  | binary id op sign left right =>
      exact .bind (h.expr _) fun _ => .bind (h.expr _) fun _ => .lift (.elementary (.computes (op.computes _ _ _)))
  | logical id op sign left right =>
      refine .bind (h.expr _) fun _ => ?_
      split
      · exact .pure _
      · exact h.expr right
  | name ref => exact .lift (.elementary (.read _ _))
  | assign target value =>
      exact .bind (h.expr _) fun _ => .bind (.lift (.elementary (.write _ _ _))) fun _ => .pure _
  | call id callee closing arguments =>
      exact .bind (h.expr _) fun _ => .bind (h.evalEach _) fun _ => h.callValue _ _ _
  | get id object name => exact .bind (h.expr _) fun _ => property _ _
  | set id object name value =>
      refine .bind (h.expr _) fun o => ?_
      cases o with
      | instance_ id c =>
          exact .bind (h.expr _) fun _ => .bind (.lift (.elementary (.setField _ _ _))) fun _ => .pure _
      | _ => exact .fail _ _
  | this ref => exact .lift (.elementary (.read _ _))
  | super ref method =>
      exact .bind (.lift (.elementary (.readSuper _ _ _))) fun _ => superMethod _ _ _

/-! #### Statements -/

theorem print (value : Value) : (Traced.print value).Accounts S own :=
  .note (fun _ _ => rfl) nofun (.lift ⟨.printLine _, .printLine _⟩)

/-- A loop, which a `return` of its body ends. -/
theorem repeatWhile {condition : Traced Value} {body : Traced Unit} (hc : condition.Accounts S own)
    (hb : body.Accounts S own) (limit : Nat) : (Traced.repeatWhile condition body limit).Accounts S own := by
  induction limit with
  | zero => exact .lift (.elementary (.throw nofun))
  | succ limit ih =>
      refine .bind hc fun v => ?_
      split
      · exact .bind hb fun _ => ih
      · exact .pure _

theorem defineClass (name : Lexeme) (superclass : Option (Reference NodeId)) (methods : List (FunDecl NodeId)) :
    (Traced.defineClass S name superclass methods).Accounts S own :=
  .bind (.lift (.elementary (.superclass S superclass))) fun parent =>
    .note (fun _ _ => rfl) nofun
      (.lift (.elementary (bindClass_elementary name methods parent)))

theorem execWith (h : AccountedBy S fuel) {s : Stmt NodeId} (hown : ∀ u ∈ s.parts, own u)
    (hret : ∀ keyword e, s ≠ .ret keyword e) :
    (Traced.execWith S (Traced.eval S fuel) (Traced.exec S fuel) fuel s).Accounts S own := by
  cases s with
  | expression value => exact .bind (h.expr _) fun _ => .pure _
  | print value => exact .bind (h.expr _) fun _ => print _
  | var name initializer => exact .bind (h.evalOptional _) fun _ => .lift (.elementary (.define _ _))
  | block body =>
      exact .bind (.lift (.elementary openBlock_elementary)) fun env =>
        .within env (runAll_accounts h.stmt body fun u hu => hown u (List.mem_cons_of_mem _ hu))
  | ite condition yes no =>
      refine .bind (h.expr _) fun _ => ?_
      cases no with
      | none =>
          split
          · exact h.stmt yes own fun u hu => hown u (List.mem_cons_of_mem _ hu)
          · exact .pure _
      | some no =>
          split
          · exact h.stmt yes own fun u hu => hown u (List.mem_cons_of_mem _ (List.mem_append_left _ hu))
          · exact h.stmt no own fun u hu => hown u (List.mem_cons_of_mem _ (List.mem_append_right _ hu))
  | «while» condition body =>
      exact repeatWhile (h.expr _) (h.stmt body own fun u hu => hown u (List.mem_cons_of_mem _ hu)) fuel
  | function decl =>
      exact .lift (.elementary (bindFunction_elementary decl))
  | ret keyword value => exact absurd rfl (hret keyword value)
  | cls name superclass methods => exact defineClass name superclass methods

end AccountedBy

/-- Evaluation accounts for statements, with any amount of fuel. -/
theorem accounts_evaluation (S : Settings) (fuel : Nat) : AccountedBy S fuel := by
  induction fuel with
  | zero => exact ⟨fun _ _ => .lift (.elementary (.throw nofun)), fun _ _ _ => .lift (.elementary (.throw nofun))⟩
  | succ fuel h =>
      refine ⟨fun e own => .note (fun _ _ => rfl) nofun (h.evalWith e), fun s own hown => ?_⟩
      have hs := hown s s.mem_parts
      by_cases hret : ∃ keyword e, s = .ret keyword e
      · obtain ⟨keyword, e, rfl⟩ := hret
        exact .ret (h.evalOptional e) hs
      · have hne : ∀ keyword e, s ≠ .ret keyword e := fun keyword e he => hret ⟨keyword, e, he⟩
        refine .note (fun _ _ => rfl) (fun u hu => ?_) (h.execWith hown hne)
        cases hu
        exact ⟨hs, hne⟩

/-! ### Sessions -/

/-- The statements of what is run. -/
def Code.parts : Code → List (Stmt NodeId)
  | program body => Stmt.partsAll body
  | expression _ => []

theorem Code.trace_accounts (S : Settings) (code : Code) : (code.trace S).Accounts S (· ∈ code.parts) := by
  have h := accounts_evaluation S S.fuel
  cases code with
  | program body => exact .bind (runAll_accounts h.stmt body fun _ hu => hu) fun _ => .pure _
  | expression e => exact h.expr e

/-- What analysis accepts has no `return` outside of functions. -/
theorem Step.job_returnFree {st : Step} {next : NodeId} {job : Job} (h : st.job next = .ok job) (keyword : Lexeme)
    (e : Option (Expr NodeId)) : .ret keyword e ∉ job.code.parts := by
  cases st with
  | run source =>
      obtain ⟨p, last, ha, rfl⟩ := job_run h
      obtain ⟨-, -, -, haccepted⟩ := analyze_ok ha
      exact Stmt.returnFreeAll_not_mem haccepted.returns
  | evaluate source =>
      obtain ⟨e, last, -, rfl⟩ := job_evaluate h
      exact List.not_mem_nil

/-- A statement at a moment of a session: one outside of calls, which is no `return`, or one of the function that the
innermost call runs, which is over and left, in the whole history, if the statement is a `return`. -/
def Moment.Contained (S : Settings) (whole : History) (k : Moment) (early : History) : Prop :=
  ∀ s, k.what = .executes s →
    (running early = [] ∧ ∀ keyword e, s ≠ .ret keyword e) ∨ InCall S [] (fun _ => LeftIn whole) k early s

section sessions

variable {S : Settings} {past : History}

theorem Session.history_contained (s : Session) (h : running past = []) (st : Step) :
    running (s.history S past st) = [] ∧
      Since (Moment.Contained S (s.history S past st)) past (s.history S past st) := by
  unfold Session.history
  cases hjob : st.job s.nextNode with
  | error faults => exact ⟨h, .start⟩
  | ok job =>
      have hcode := Code.trace_accounts S job.code ⟨s.prepared job, past⟩
      refine ⟨hcode.level.trans h, hcode.moments.imp fun k early hk u hu => ?_⟩
      rcases hk u hu with ⟨hrun, ho, -⟩ | hk
      · refine .inl ⟨hrun.trans h, ?_⟩
        rintro keyword e rfl
        exact Step.job_returnFree hjob keyword e ho
      · rw [show running (Recorder.mk (s.prepared job) past).past = [] from h] at hk
        exact .inr hk

/-- A session keeps account of its statements, from a moment on at which no call is in progress. -/
theorem Session.historyDuring_contained (s : Session) (h : running past = []) (steps : List Step) :
    Since (Moment.Contained S (s.historyDuring S past steps)) past (s.historyDuring S past steps) := by
  induction steps generalizing s past with
  | nil => exact .start
  | cons st steps ih =>
      obtain ⟨hrun, hstep⟩ := s.history_contained h st
      have hrest := ih (s.step S st).2 hrun
      obtain ⟨new, hnew⟩ := hrest.extends_past
      refine .trans (hstep.imp fun k early hk u hu => (hk u hu).imp_right fun hk => hk.imp fun _ past hp => ?_) hrest
      rw [Session.historyDuring, hnew]
      exact hp.append new

end sessions

/-! ### Programs -/

section programs

variable {S : Settings}

/-- A statement without a `return` among its parts does not leave by one. -/
theorem exec_unreturned {s : Stmt NodeId} (h : ∀ keyword e, .ret keyword e ∉ s.parts) (fuel : Nat) :
    (exec S fuel s).Unreturned := by
  intro m v n hrun
  have hs := (accounts_evaluation S fuel).stmt s (· ∈ s.parts) (fun _ hu => hu) ⟨m, []⟩
  rw [Traced.exec_eq S fuel s ⟨m, []⟩] at hrun
  cases ht : Traced.exec S fuel s ⟨m, []⟩ with
  | ok a r =>
      rw [ht] at hrun
      exact nomatch hrun
  | error e r =>
      rw [ht] at hrun hs
      cases hrun
      obtain ⟨keyword, e, he⟩ := hs.raised v r rfl
      exact h keyword e he

/-- Statements in order that do not leave by a `return` do not, together. -/
theorem runAll_unreturned {ex : Stmt NodeId → Action Unit} :
    ∀ {body : List (Stmt NodeId)}, (∀ s ∈ body, (ex s).Unreturned) → (runAll ex body).Unreturned
  | [], _ => .pure ()
  | _ :: _, h => .bind (h _ List.mem_cons_self) fun _ => runAll_unreturned fun s hs => h s (List.mem_cons_of_mem _ hs)

/-- Statements that have run to their end have done so one after the other. -/
theorem runAll_split {ex : Stmt NodeId → Action Unit} {before rest : List (Stmt NodeId)} {s : Stmt NodeId}
    {m n : Machine} (h : runAll ex (before ++ s :: rest) m = .ok () n) :
    ∃ m₁ m₂, runAll ex before m = .ok () m₁ ∧ ex s m₁ = .ok () m₂ ∧ runAll ex rest m₂ = .ok () n := by
  induction before generalizing m with
  | nil =>
      change (ex s >>= fun _ => runAll ex rest) m = _ at h
      cases hs : ex s m with
      | ok _ m₂ =>
          rw [bind_ok hs] at h
          exact ⟨m, m₂, rfl, hs, h⟩
      | error e m₂ =>
          rw [bind_error hs] at h
          exact nomatch h
  | cons u before ih =>
      change (ex u >>= fun _ => runAll ex (before ++ s :: rest)) m = _ at h
      cases hu : ex u m with
      | ok _ m₀ =>
          rw [bind_ok hu] at h
          obtain ⟨m₁, m₂, hbefore, hs, hrest⟩ := ih h
          exact ⟨m₁, m₂, (bind_ok hu).trans hbefore, hs, hrest⟩
      | error e m₀ =>
          rw [bind_error hu] at h
          exact nomatch h

/-- A run that is done has come to the end of all its statements, unless one of them leaves by a `return`. -/
theorem Session.interpret_done {body : List (Stmt NodeId)} (h : ∀ s ∈ body, (exec S S.fuel s).Unreturned)
    {m : Machine} (hdone : (Session.interpret S body m).1 = .done ()) :
    runAll (exec S S.fuel) body m = .ok () (Session.interpret S body m).2 := by
  unfold Session.interpret at hdone ⊢
  cases hrun : runAll (exec S S.fuel) body m with
  | ok a n => rfl
  | error e n =>
      rw [hrun] at hdone
      cases e with
      | returned v => exact absurd hrun (runAll_unreturned h m v n)
      | _ => exact nomatch hdone

end programs

/-- No `return` escapes.  No statement of an accepted program leaves by a `return`, with whatever machine and fuel, so
that a run which is done has come to the end of all the statements of its program, in order.

The history of a session is that of the machines that it has: every run of a statement is on record, and statements and
functions are run as they are without a record.  Consider any moment of it at which a statement is run.  Either no call
is in progress, and the statement is no `return`; or the innermost call runs a function in whose body the statement
stands, at any depth of blocks, branches and loops.  If the statement is a `return`, this call is `Consumed`: all that
is run before the call is left are statements of later calls, for the expression of the `return`, and the call comes to
the value of this expression. -/
theorem Session.returns_consumed (S : Settings) (s : Session) :
    (∀ source p last, analyze s.nextNode source = .ok (p, last) →
      (∀ st ∈ p.statements, ∀ fuel m v n, exec S fuel st m ≠ .error (.returned v) n) ∧
      ((s.run S source).1 = .done () → ∀ before st rest, p.statements = before ++ st :: rest →
        ∃ m n, runAll (exec S S.fuel) before (Session.learn s.machine p.distances) = .ok () m ∧
          exec S S.fuel st m = .ok () n ∧
          runAll (exec S S.fuel) rest n = .ok () (s.run S source).2.machine)) ∧
    (∀ (t : Session) past st job, st.job t.nextNode = .ok job →
      (t.step S st).2.machine = (endState (job.code.trace S ⟨t.prepared job, past⟩)).machine) ∧
    (∀ fuel st r, exec S fuel st r.machine = mapState Recorder.machine (Traced.exec S fuel st r) ∧
      ∃ new, (endState (Traced.exec S (fuel + 1) st r)).past = new ++ ⟨r.machine, .executes st⟩ :: r.past) ∧
    (∀ fuel (f : Closure) values r, f.invoke (exec S fuel) values r.machine =
      mapState Recorder.machine (Traced.invoke (Traced.exec S fuel) f values r)) ∧
    ∀ steps late k early, s.historyDuring S [] steps = late ++ k :: early → ∀ st, k.what = .executes st →
      (running early = [] ∧ ∀ keyword e, st ≠ .ret keyword e) ∨
      ∃ call outer, running early = some call :: outer ∧ st ∈ Stmt.partsAll call.function.decl.body ∧
        ∀ keyword e, st = .ret keyword e → Consumed S (LeftIn (s.historyDuring S [] steps)) k early call e := by
  refine ⟨fun source p last ha => ?_, fun t past st job hjob => Session.machine_step S hjob past,
    fun fuel st r => ⟨Traced.exec_eq S fuel st r, Traced.exec_recorded S fuel st r⟩, fun fuel f values r => ?_,
    fun steps late k early hsplit st hst => ?_⟩
  · have hfree (st : Stmt NodeId) (hst : st ∈ p.statements) (fuel : Nat) : (exec S fuel st).Unreturned := by
      obtain ⟨-, -, -, haccepted⟩ := analyze_ok ha
      exact exec_unreturned (fun _ _ he => Stmt.returnFreeAll_not_mem haccepted.returns
        (Stmt.parts_subset hst he)) fuel
    refine ⟨hfree, fun hdone before st rest hbody => ?_⟩
    rw [Session.run_eq ha] at hdone ⊢
    have hrun := Session.interpret_done (fun st hst => hfree st hst S.fuel) hdone
    rw [hbody] at hrun
    obtain ⟨m, n, hbefore, hst, hrest⟩ := runAll_split hrun
    rw [← hbody] at hrest
    exact ⟨m, n, hbefore, hst, hrest⟩
  · have hsim := Cutoff.never_simulation S
    have hentered : (Happening.enters f).Fits [.function f] := .inl rfl
    exact Cutoff.never_eq (hsim.invoke ((hsim.evaluation fuel).2 _) hentered values) r
  · have hempty : running [] = [] := rfl
    have hk := throughout_iff.mp (s.historyDuring_contained hempty steps).throughout late k early hsplit
    rcases hk st hst with h | ⟨call, inner, hrun, hbody, hret⟩
    · exact .inl h
    · exact .inr ⟨call, _, hrun, hbody, hret⟩

end Lox
