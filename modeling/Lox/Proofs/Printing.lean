import Lox.Proofs.Beside
import Lox.Proofs.Embracing
import Lox.Proofs.Fuel
import Lox.Proofs.Returns
import Lox.Proofs.Truncation

/-! # Evaluating an expression and printing it

A text of an expression is made into a program that prints the expression (`printing`).  The two go different ways
through the parser, the resolver and the session.  They are analysed alike (`ReadsAsExpr.analyze_printing`), and to
run the program is to evaluate the expression and then to print its value, with the same history up to there
(`Session.run_printing`). -/

namespace Lox

/-! ### The text -/

/-- The text of a program that prints what a text stands for.  The semicolon is on a line of its own, where no comment
at the end of the text hides it. -/
def printing (source : String) : String := "print " ++ source ++ "\n;"

/-- The word `print`. -/
def printSpan : Span := ⟨['p', 'r', 'i', 'n', 't'], .token (.keyword .print)⟩

theorem spans_print (more : List Char) : spans ("print ".toList ++ more) = printSpan :: blankSpan :: spans more := by
  rw [← spans_blank]
  change spans ('p' :: 'r' :: 'i' :: 'n' :: 't' :: ' ' :: more) = _
  rw [spans]
  rfl

theorem printing_eq (source : String) : printing source = "print " ++ below source ";" := by
  unfold printing below
  rw [String.append_assoc, String.append_assoc]
  rfl

section text

variable {source : String} {e : PlainExpr}

theorem spans_printing :
    spans (printing source).toList = printSpan :: blankSpan :: spans (below source ";").toList := by
  rw [printing_eq, String.toList_append]
  exact spans_print _

theorem faultless_printing (h : faultsOf (scan source) = []) : faultsOf (scan (printing source)) = [] := by
  have hbelow : faultsOf (scan (below source ";")) = [] := faultless_below h (by cbv)
  rw [faultsOf_scan] at hbelow ⊢
  rw [spans_printing]
  exact List.forall_mem_cons.mpr ⟨by rintro _ ⟨⟩, List.forall_mem_cons.mpr ⟨by rintro _ ⟨⟩, hbelow⟩⟩

/-- The tokens of the expression stay where they are. -/
theorem textTokens_printing (h : faultsOf (scan source) = []) :
    ∃ s : Token, s.kind = .semicolon ∧
      textTokens (printing source) = ⟨⟨"print", 1⟩, .keyword .print⟩ :: (textTokens source ++ [s]) := by
  refine ⟨⟨⟨";", 1 + lineCount source⟩, .semicolon⟩, rfl, ?_⟩
  have hbelow : textTokens (below source ";") = textTokens source ++ _ := textTokens_below h
  have hsemi : textTokens ";" = [⟨⟨";", 1⟩, .semicolon⟩] := by cbv
  rw [hsemi] at hbelow
  unfold textTokens at hbelow ⊢
  rw [spans_printing]
  exact congrArg (List.cons _) hbelow

/-- A text of an expression is made into a text of a program. -/
theorem ReadsAsExpr.printing (h : ReadsAsExpr source e) : ReadsAs (printing source) [.print e] where
  clean := faultless_printing h.clean
  parsed := by
    obtain ⟨s, hs, htokens⟩ := textTokens_printing h.clean
    have he : ExprText .assignment (textTokens source) e := by
      rw [← textOf_scan]
      exact parseExpression_sound h.parsed
    refine parseProgram_complete ?_
    rw [textOf_scan, htokens, ← List.append_nil (_ :: _)]
    exact .cons (.statement (.print rfl he hs)) .nil

end text

/-! ### Analysis -/

section analysis

variable {source : String} {plain : PlainExpr}

/-- Names are resolved in a program that prints an expression as they are in the expression. -/
theorem resolveProgram_print (e : Expr NodeId) : resolveProgram [.print e] = resolveExpression e := rfl

/-- What analysis finds in the program that prints an expression: what it finds in the expression. -/
theorem analyze_printing (h : readExpression source = .ok plain) (next : NodeId) :
    analyze next (printing source) = match resolveExpression (plain.number next).1 with
      | .error faults => .error (faults.map .scope)
      | .ok distances => .ok (⟨[.print (plain.number next).1], distances⟩, (plain.number next).2) := by
  rw [← resolveProgram_print]
  exact analyze_of_reads (readsAsExpr_of_read h).printing next

end analysis

/-! ### Runs -/

namespace Session

/-- The outcome of the evaluation of an expression. -/
def evaluationOutcome {σ : Type} : EStateM.Result Exit σ Value → Outcome Value
  | .ok v _ => .done v
  | .error e _ => outcomeOf e

/-- The outcome of the run of a program. -/
def runOutcome : EStateM.Result Exit Recorder Value → Outcome Unit
  | .ok _ r => flushed r.machine
  | .error (.returned _) r => flushed r.machine
  | .error e _ => outcomeOf e

section recorded

variable {S : Settings} {s : Session} {source : String} {last : NodeId}

/-- What a session evaluates an expression to can be read off its record. -/
theorem evaluate_recorded {e : LoneExpr} (h : analyzeExpression s.nextNode source = .ok (e, last)) (past : History) :
    let res := Traced.eval S S.fuel e.expr ⟨learn s.machine e.distances, past⟩
    s.evaluate S source = (evaluationOutcome res, ⟨(endState res).machine, last⟩) ∧
      s.history S past (.evaluate source) = (endState res).past := by
  intro res
  have hplain : eval S S.fuel e.expr (learn s.machine e.distances) = mapState Recorder.machine res :=
    Code.run_eq S (.expression e.expr) ⟨_, past⟩
  constructor
  · rw [evaluate_eq h]
    unfold Session.evaluated
    rw [hplain]
    cases res <;> rfl
  · unfold history Step.job
    dsimp only
    rw [h]
    rfl

/-- What a session runs a program to can be read off its record. -/
theorem run_recorded {p : Program} (h : analyze s.nextNode source = .ok (p, last)) (past : History) :
    let res := (Code.program p.statements).trace S ⟨learn s.machine p.distances, past⟩
    s.run S source = (runOutcome res, ⟨(endState res).machine, last⟩) ∧
      s.history S past (.run source) = (endState res).past := by
  intro res
  have hplain : (Code.program p.statements).run S (learn s.machine p.distances) = mapState Recorder.machine res :=
    Code.run_eq S (.program p.statements) ⟨_, past⟩
  have hjob : (Step.run source).job s.nextNode = .ok ⟨.program p.statements, p.distances, last⟩ := by
    unfold Step.job
    dsimp only
    rw [h]
    rfl
  have hstep : ((Ending.ran (s.run S source).1, (s.run S source).2) : Ending × Session) = _ := step_eq S hjob
  unfold prepared at hstep
  rw [hplain] at hstep
  have hending : (Code.program p.statements).ending (mapState Recorder.machine res) = .ran (runOutcome res) := by
    cases res with
    | ok v r => rfl
    | error e r => cases e <;> rfl
  have hend : endState (mapState Recorder.machine res) = (endState res).machine := by cases res <;> rfl
  rw [hending, hend] at hstep
  refine ⟨Prod.ext (Ending.ran.inj (congrArg Prod.fst hstep)) (congrArg (·.2) hstep), ?_⟩
  unfold history
  rw [hjob]
  rfl

end recorded

end Session

/-- Of an expression, evaluation comes to a value or leaves by an exit that is no `return`. -/
theorem Traced.eval_unreturned (S : Settings) (fuel : Nat) (e : Expr NodeId) (r s : Recorder) (v : Value) :
    Traced.eval S fuel e r ≠ .error (.returned v) s := by
  intro hrun
  have haccounts : (Traced.eval S fuel e).Accounts S fun _ => False := (accounts_evaluation S fuel).expr e
  have h := haccounts r
  rw [hrun] at h
  obtain ⟨_, _, hfalse⟩ := h.raised v s rfl
  exact hfalse

/-- The outcome of an evaluation is that the fuel ran out only if it did. -/
theorem Session.unexhausted {σ : Type} {res : EStateM.Result Exit σ Value} (h : evaluationOutcome res ≠ .exhausted)
    (s : σ) :
    res ≠ .error .exhausted s := by
  rintro rfl
  exact h rfl

/-! ### Printing the value -/

/-- A sink that takes all that is written, and passes it on. -/
structure Sink.Unfailing (sink : Sink) : Prop where
  room : sink.room = none
  flushes : sink.flushFails = false

namespace Outcome

/-- The session after the value has been printed, if there is one. -/
def printedIn (s : Session) : Outcome Value → Session
  | .done v => { s with machine := { s.machine with sink := s.machine.sink.after v.line } }
  | _ => s

/-- The moment at which the value is printed, if there is one. -/
def printMoment (s : Session) : Outcome Value → History
  | .done v => [⟨s.machine, .prints v⟩]
  | _ => []

theorem map_eq_exhausted {α β : Type} {f : α → β} {o : Outcome α} : o.map f = .exhausted ↔ o = .exhausted := by
  cases o with
  | exhausted => exact ⟨fun _ => rfl, fun _ => rfl⟩
  | _ => exact ⟨nofun, nofun⟩

end Outcome

/-- A program that prints an expression evaluates it, and prints what comes out. -/
theorem Code.trace_print (S : Settings) (fuel : Nat) (e : Expr NodeId) (r : Recorder) :
    (Code.program [.print e]).trace { S with fuel := fuel + 1 } r =
      (Traced.eval S fuel e >>= fun v => Traced.print v >>= fun _ => pure .nil)
        ⟨r.machine, ⟨r.machine, .executes (.print e)⟩ :: r.past⟩ := by
  have hexec := (Traced.evaluation_withFuel S (fuel + 1) (fuel + 1)).2 (.print e)
  unfold Code.trace Traced.runAll
  dsimp only
  rw [hexec]
  unfold Traced.exec Traced.execWith Traced.runAll
  simp only [bind_assoc, pure_bind]
  exact Traced.note_bind _ _ _

/-- A value is printed to a sink that takes all that is written. -/
theorem Traced.print_unbounded {r : Recorder} (h : r.machine.sink.room = none) (v : Value) :
    Traced.print v r = .ok () ⟨{ r.machine with sink := r.machine.sink.after v.line },
      ⟨r.machine, .prints v⟩ :: r.past⟩ := by
  rw [Traced.print_eq]
  unfold Traced.lift
  rw [printLine_ok (Sink.write_unbounded h _)]
  rfl

/-- While an expression is evaluated, a sink that takes all that is written stays one. -/
theorem Traced.eval_unfailing {S : Settings} {e : Expr NodeId} {fuel : Nat} {r : Recorder}
    (h : r.machine.sink.Unfailing) : (endState (Traced.eval S fuel e r)).machine.sink.Unfailing := by
  have hinv : Traced.Invariant S fun _ r => r.machine.sink.Unfailing := {
    single := fun {_ r _ act} hact hr => by
      have hsink := Cutoff.sink_of_single hact r.machine
      unfold Traced.lift
      cases hrun : act r.machine <;> rw [hrun] at hsink <;> exact hsink ▸ hr
    note := fun _ hr => hr
    env := fun _ hr => hr
    begins := fun _ _ _ hr => hr
    leaves := fun hr => hr
    print := fun v hr => by
      rw [Traced.print_unbounded hr.room]
      exact ⟨hr.room, hr.flushes⟩ }
  exact (hinv.simulation.evaluation fuel).1 [] e r h

section runs

variable {S : Settings} {s : Session} {source : String} {plain : PlainExpr} {distances : Distances}

/-- What a session evaluates an expression to, with a record kept from a past on. -/
theorem Session.evaluate_traced (h : readExpression source = .ok plain)
    (hd : resolveExpression (plain.number s.nextNode).1 = .ok distances) (fuel : Nat) (past : History) :
    let res := Traced.eval S fuel (plain.number s.nextNode).1 ⟨learn s.machine distances, past⟩
    s.evaluate { S with fuel := fuel } source =
        (evaluationOutcome res, ⟨(endState res).machine, (plain.number s.nextNode).2⟩) ∧
      s.history { S with fuel := fuel } past (.evaluate source) = (endState res).past := by
  have ha := analyzeExpression_eq h s.nextNode
  rw [hd] at ha
  have hrec := Session.evaluate_recorded (S := { S with fuel := fuel }) ha past
  dsimp only at hrec
  rwa [(Traced.evaluation_withFuel S fuel fuel).1] at hrec

/-- What a session comes to that runs the program that prints an expression: what the expression comes to, and then
the value is printed. -/
theorem Session.run_traced (hsink : s.machine.sink.Unfailing) (h : readExpression source = .ok plain)
    (hd : resolveExpression (plain.number s.nextNode).1 = .ok distances) (fuel : Nat) :
    let e := (plain.number s.nextNode).1
    let m := learn s.machine distances
    let res := Traced.eval S fuel e ⟨m, [⟨m, .executes (.print e)⟩]⟩
    let t : Session := ⟨(endState res).machine, (plain.number s.nextNode).2⟩
    s.run { S with fuel := fuel + 1 } (printing source) =
        ((evaluationOutcome res).map fun _ => (), (evaluationOutcome res).printedIn t) ∧
      s.history { S with fuel := fuel + 1 } [] (.run (printing source)) =
        (evaluationOutcome res).printMoment t ++ (endState res).past := by
  intro e m res t
  have ha := analyze_printing h s.nextNode
  rw [hd] at ha
  have hrec := Session.run_recorded (S := { S with fuel := fuel + 1 }) ha []
  dsimp only at hrec
  rw [Code.trace_print] at hrec
  have hunfailing : (endState res).machine.sink.Unfailing := Traced.eval_unfailing hsink
  have hret := Traced.eval_unreturned S fuel e ⟨m, [⟨m, .executes (.print e)⟩]⟩
  dsimp only [t]
  cases hres : res with
  | error ex k =>
      rw [bind_error hres] at hrec
      cases ex with
      | returned v => exact absurd hres (hret k v)
      | _ => exact hrec
  | ok v k =>
      rw [hres] at hunfailing
      have hk : k.machine.sink.Unfailing := hunfailing
      rw [bind_ok hres, bind_ok (Traced.print_unbounded hk.room v)] at hrec
      have hflushed : flushed { k.machine with sink := k.machine.sink.after v.line } = .done () := by
        unfold flushed Sink.flush
        rw [show (k.machine.sink.after v.line).flushFails = false from hk.flushes]
        rfl
      exact ⟨hrec.1.trans (Prod.ext hflushed rfl), hrec.2⟩

/-- Evaluation and running agree.  Consider a text that is read as an expression, and a session with a sink that does
not fail.  The resolver rejects the expression and the program that prints it alike.  Otherwise, as far as the fuel
reaches, the program does what the expression does, in the same order: what is recorded after the moment at which the
statement is begun is what is recorded in the evaluation of the expression after this moment.  The two end alike, with
the same fault or the same breach and in the same session, or the expression comes to a value, and the program is done
and has printed it in a last moment.  Of the fuel that suffices for the expression, the program needs one more. -/
theorem Session.run_printing (S : Settings) {s : Session} (hsink : s.machine.sink.Unfailing) {source : String}
    {plain : PlainExpr} (h : readExpression source = .ok plain) :
    let e := (plain.number s.nextNode).1
    (∀ faults, resolveExpression e = .error faults →
      s.evaluate S source = (.rejected (faults.map .scope), s) ∧
        s.run S (printing source) = (.rejected (faults.map .scope), s)) ∧
    ∀ distances, resolveExpression e = .ok distances → ∀ f g,
      let begun : Moment := ⟨learn s.machine distances, .executes (.print e)⟩
      let x := s.evaluate { S with fuel := f } source
      let x' := s.run { S with fuel := g } (printing source)
      let history := s.history { S with fuel := f } [begun] (.evaluate source)
      let history' := s.history { S with fuel := g } [] (.run (printing source))
      (x.1 ≠ .exhausted → x'.1 ≠ .exhausted →
        x'.1 = x.1.map (fun _ => ()) ∧ x'.2 = x.1.printedIn x.2 ∧ history' = x.1.printMoment x.2 ++ history) ∧
      (f < g → x.1 ≠ .exhausted → x'.1 ≠ .exhausted) ∧
      (g ≤ f + 1 → x'.1 ≠ .exhausted → x.1 ≠ .exhausted) := by
  intro e
  refine ⟨fun faults hfaults => ⟨Session.evaluate_rejected ?_, Session.run_rejected ?_⟩, ?_⟩
  · rw [analyzeExpression_eq h, hfaults]
  · rw [analyze_printing h, hfaults]
  intro distances hd f g begun x x' history history'
  obtain ⟨hx, hhistory⟩ := Session.evaluate_traced (S := S) h hd f [begun]
  dsimp only [x, x', history, history']
  rw [hx, hhistory]
  cases g with
  | zero =>
      have hx' : (s.run { S with fuel := 0 } (printing source)).1 = .exhausted := by
        have ha := analyze_printing h s.nextNode
        rw [hd] at ha
        exact congrArg Prod.fst (Session.run_recorded (S := { S with fuel := 0 }) ha []).1
      exact ⟨fun _ hne => absurd hx' hne, fun hlt => absurd hlt (Nat.not_lt_zero f), fun _ hne => absurd hx' hne⟩
  | succ g =>
      obtain ⟨hx', hhistory'⟩ := Session.run_traced (S := S) hsink h hd g
      rw [hx', hhistory']
      dsimp only
      rw [Ne, Ne, Outcome.map_eq_exhausted]
      refine ⟨fun hne hne' => ?_, fun hlt hne => ?_, fun hle hne => ?_⟩
      · rw [Traced.eval_settled S (Session.unexhausted hne) (Session.unexhausted hne')]
        exact ⟨rfl, rfl, rfl⟩
      · rcases Traced.eval_reaches S (Nat.le_of_lt_succ hlt) e ⟨learn s.machine distances, [begun]⟩ with ⟨t, ht⟩ | heq
        · exact absurd ht (Session.unexhausted hne t)
        · exact heq.symm ▸ hne
      · rcases Traced.eval_reaches S (Nat.le_of_succ_le_succ hle) e ⟨learn s.machine distances, [begun]⟩ with ⟨t, ht⟩ | heq
        · exact absurd ht (Session.unexhausted hne t)
        · exact heq.symm ▸ hne

end runs

/-- An expression that ends in a comment, and the program that prints it. -/
theorem Session.run_printing_comment :
    let s := Session.start .unlimited
    let x := s.evaluate { Settings.standard with fuel := 3 } "true or nil // c"
    let x' := s.run { Settings.standard with fuel := 4 } (printing "true or nil // c")
    s.machine.sink.Unfailing ∧ x.1 = .done (.bool true) ∧ x'.1 = .done () ∧ x'.2 = x.1.printedIn x.2 := by
  intro s x x'
  have hsink : s.machine.sink.Unfailing := ⟨rfl, rfl⟩
  have h : readExpression "true or nil // c" =
      .ok (.logical () .or ⟨"or", 1⟩ (.literal () (.bool true)) (.literal () .nil)) := by cbv
  have hd : resolveExpression
      (Expr.number 0 (.logical () .or ⟨"or", 1⟩ (.literal () (.bool true)) (.literal () .nil))).1 = .ok [] := by cbv
  have hx : (s.evaluate { Settings.standard with fuel := 3 } "true or nil // c").1 = .done (.bool true) := by cbv
  obtain ⟨halike, hmore, -⟩ := (Session.run_printing .standard hsink h).2 [] hd 3 4
  rw [hx] at halike hmore
  obtain ⟨ho, hs, -⟩ := halike (by rintro ⟨⟩) (hmore (by decide) (by rintro ⟨⟩))
  exact ⟨hsink, hx, ho, by rw [hx]; exact hs⟩

end Lox
