import Lox.Proofs.History

/-! # Runs that are cut off

Two runs of the same code, one of which is stopped short: by a bound on open calls, or by a sink without
room.  A `Cutoff` says which moment of the run that goes on is the one at which the other run stops, and how.
Up to that moment the runs agree; the other run then leaves every bracket it is in, with the machine as it
was at that moment but for the scope chain and the number of open calls, which are as before
(`Cutoff.simulation`).  A cutoff that never happens is the case of a recorded run beside a plain one
(`Code.run_eq`). -/

namespace Lox

/-! ### What a step runs -/

/-- What an accepted source text runs. -/
inductive Code where
  | program (body : List (Stmt NodeId))
  | expression (e : Expr NodeId)

namespace Code

/-- Runs a program, which yields nothing, or evaluates an expression. -/
def run (settings : Settings) : Code → Action Value
  | program body => do
    runAll (exec settings settings.fuel) body
    return .nil
  | expression e => eval settings settings.fuel e

/-- Runs it and keeps a record. -/
def trace (settings : Settings) : Code → Traced Value
  | program body => do
    Traced.runAll (Traced.exec settings settings.fuel) body
    return .nil
  | expression e => Traced.eval settings settings.fuel e

/-- How the step ends, after what the run ended in. -/
def ending : Code → EStateM.Result Exit Machine Value → Ending
  | program _, .ok _ m => .ran (Session.flushed m)
  | program _, .error (.returned _) m => .ran (Session.flushed m)
  | program _, .error e _ => .ran (Session.outcomeOf e)
  | expression _, .ok value _ => .evaluated (.done value)
  | expression _, .error e _ => .evaluated (Session.outcomeOf e)

end Code

/-- What a step does if its text is accepted: code, the distances of its uses of names, and the next
number for a node. -/
structure Job where
  code : Code
  distances : Distances
  next : NodeId

namespace Step

/-- The job of a step, or the faults of its text. -/
def job (next : NodeId) : Step → Except (List Diagnostic) Job
  | run source => do
    let (p, last) ← analyze next source
    return ⟨.program p.statements, p.distances, last⟩
  | evaluate source => do
    let (e, last) ← analyzeExpression next source
    return ⟨.expression e.expr, e.distances, last⟩

/-- The step ends as rejected. -/
def rejected (faults : List Diagnostic) : Step → Ending
  | run _ => .ran (.rejected faults)
  | evaluate _ => .evaluated (.rejected faults)

/-- The step ends with a fault of the program or of the output. -/
def failed (fault : Diagnostic) : Step → Ending
  | run _ => .ran (.failed fault)
  | evaluate _ => .evaluated (.failed fault)

/-- The step ends by an exit. -/
def left (e : Exit) : Step → Ending
  | run _ => .ran (Session.outcomeOf e)
  | evaluate _ => .evaluated (Session.outcomeOf e)

theorem left_failed (st : Step) (e : RuntimeError) : st.left (.failed e) = st.failed (.runtime e) := by
  cases st <;> rfl

theorem left_refused (st : Step) (fault : SinkFault) : st.left (.refused fault) = st.failed (.sink fault) := by
  cases st <;> rfl

section job

variable {next : NodeId} {source : String} {job : Job} {faults : List Diagnostic}

/-- The job of a program that is accepted. -/
theorem job_run (h : (run source).job next = .ok job) : ∃ p last, analyze next source = .ok (p, last) ∧
    job = ⟨.program p.statements, p.distances, last⟩ := by
  unfold Step.job at h
  dsimp only at h
  cases ha : analyze next source with
  | error faults =>
      rw [ha] at h
      exact nomatch h
  | ok r =>
      rw [ha] at h
      cases h
      exact ⟨r.1, r.2, rfl, rfl⟩

/-- The job of an expression that is accepted. -/
theorem job_evaluate (h : (evaluate source).job next = .ok job) : ∃ e last,
    analyzeExpression next source = .ok (e, last) ∧ job = ⟨.expression e.expr, e.distances, last⟩ := by
  unfold Step.job at h
  dsimp only at h
  cases ha : analyzeExpression next source with
  | error faults =>
      rw [ha] at h
      exact nomatch h
  | ok r =>
      rw [ha] at h
      cases h
      exact ⟨r.1, r.2, rfl, rfl⟩

theorem job_run_error (h : (run source).job next = .error faults) : analyze next source = .error faults := by
  unfold Step.job at h
  dsimp only at h
  cases ha : analyze next source with
  | error faults' =>
      rw [ha] at h
      cases h
      rfl
  | ok r =>
      rw [ha] at h
      exact nomatch h

theorem job_evaluate_error (h : (evaluate source).job next = .error faults) :
    analyzeExpression next source = .error faults := by
  unfold Step.job at h
  dsimp only at h
  cases ha : analyzeExpression next source with
  | error faults' =>
      rw [ha] at h
      cases h
      rfl
  | ok r =>
      rw [ha] at h
      exact nomatch h

end job

/-- A job that leaves by an exit ends the step by it. -/
theorem ending_error {st : Step} {next : NodeId} {job : Job} (h : st.job next = .ok job) {e : Exit}
    (he : ∀ value, e ≠ .returned value) (m : Machine) : job.code.ending (.error e m) = st.left e := by
  cases st with
  | run source =>
      obtain ⟨p, last, -, rfl⟩ := job_run h
      cases e with
      | returned value => exact absurd rfl (he value)
      | _ => rfl
  | evaluate source =>
      obtain ⟨e, last, -, rfl⟩ := job_evaluate h
      rfl

end Step

namespace Session

/-- The machine that a job begins with. -/
def prepared (s : Session) (job : Job) : Machine := learn s.machine job.distances

theorem step_rejected_eq (settings : Settings) {s : Session} {st : Step} {faults : List Diagnostic}
    (h : st.job s.nextNode = .error faults) : s.step settings st = (st.rejected faults, s) := by
  cases st with
  | run source =>
      change (Ending.ran (s.run settings source).1, (s.run settings source).2) = _
      rw [run_rejected (Step.job_run_error h)]
      rfl
  | evaluate source =>
      change (Ending.evaluated (s.evaluate settings source).1, (s.evaluate settings source).2) = _
      rw [evaluate_rejected (Step.job_evaluate_error h)]
      rfl

/-- A step runs its job. -/
theorem step_eq (settings : Settings) {s : Session} {st : Step} {job : Job}
    (h : st.job s.nextNode = .ok job) :
    s.step settings st = (job.code.ending (job.code.run settings (s.prepared job)),
      ⟨endState (job.code.run settings (s.prepared job)), job.next⟩) := by
  cases st with
  | run source =>
      change (Ending.ran (s.run settings source).1, (s.run settings source).2) = _
      obtain ⟨p, last, ha, rfl⟩ := Step.job_run h
      rw [run_eq ha, interpret]
      unfold prepared Code.run
      dsimp only [bind, EStateM.bind]
      cases runAll (exec settings settings.fuel) p.statements (learn s.machine p.distances) with
      | ok _ n => rfl
      | error e n => cases e <;> rfl
  | evaluate source =>
      change (Ending.evaluated (s.evaluate settings source).1, (s.evaluate settings source).2) = _
      obtain ⟨e, last, ha, rfl⟩ := Step.job_evaluate h
      rw [evaluate_eq ha, evaluated]
      unfold prepared Code.run
      dsimp only
      cases eval settings settings.fuel e.expr (learn s.machine e.distances) <;> rfl

end Session

/-! ### Cutoffs -/

/-- How a run is cut off that another run goes on with. -/
structure Cutoff where
  /-- What the sink of the run that goes on is in the other run. -/
  shown : Sink → Sink
  /-- The sinks for which the two runs agree. -/
  fits : Sink → Prop
  /-- Is the other run cut off at this moment? -/
  cuts : Moment → Bool
  /-- The exit by which it then leaves. -/
  exit : Moment → Exit
  /-- The machine it then has, but for the scope chain and the number of open calls. -/
  halted : Moment → Machine

namespace Cutoff

variable {α β : Type} (D : Cutoff)

/-- A machine of the run that goes on, as it is in the other run. -/
def view (m : Machine) : Machine := m.seen (D.shown m.sink) m.depth

/-- The first moment at which the other run is cut off, if it is. -/
def first? (past : History) : Option Moment := past.reverse.find? D.cuts

/-- What the other run ends in, beside a run that begins at `r`, adds moments `new`, and ends in `res`. -/
def result (r : Recorder) (new : History) (res : EStateM.Result Exit Recorder α) :
    EStateM.Result Exit Machine α :=
  match D.first? new with
  | none => mapState (fun s => D.view s.machine) res
  | some k => .error (D.exit k) { D.halted k with env := r.machine.env, depth := r.machine.depth }

/-- Beside the recorded action, which goes on, the plain one is cut off. -/
def Rel (_ : List Callable) {α : Type} (t : Traced α) (act : Action α) : Prop :=
  ∀ r : Recorder, ∃ new, (endState (t r)).past = new ++ r.past ∧
    (endState (t r)).machine.env = r.machine.env ∧ (endState (t r)).machine.depth = r.machine.depth ∧
    (D.fits r.machine.sink → (D.first? new = none → D.fits (endState (t r)).machine.sink) ∧
      act (D.view r.machine) = D.result r new (t r))

/-- What a cutoff must be: it cuts at calls and prints only, and not by an exit that a function catches. -/
structure Proper : Prop where
  cuts {k : Moment} : D.cuts k = true → (∃ callee values closing, k.what = .calls callee values closing) ∨
    ∃ value, k.what = .prints value
  exit (k : Moment) (value : Value) : D.exit k ≠ .returned value

variable {D}

theorem first?_append (new early : History) : D.first? (new ++ early) = (D.first? early).or (D.first? new) := by
  unfold first?
  rw [List.reverse_append, List.find?_append]

theorem first?_single (k : Moment) : D.first? [k] = if D.cuts k then some k else none := by
  unfold first?
  rw [List.reverse_singleton, List.find?_singleton]

theorem first?_cons (k : Moment) (early : History) : D.first? (k :: early) = (D.first? early).or (D.first? [k]) :=
  first?_append [k] early

theorem uncut_of_first? {past : History} (h : D.first? past = none) : ∀ k ∈ past, D.cuts k = false :=
  fun k hk => Bool.eq_false_iff.mpr (List.find?_eq_none.mp h k (List.mem_reverse.mpr hk))

/-- At the first cut, nothing before was one. -/
theorem split_first? {past : History} {k : Moment} (h : D.first? past = some k) :
    ∃ late early, past = late ++ k :: early ∧ D.cuts k = true ∧ ∀ k' ∈ early, D.cuts k' = false := by
  obtain ⟨hk, before, after, hsplit, hbefore⟩ := List.find?_eq_some_iff_append.mp h
  refine ⟨after.reverse, before.reverse, ?_, hk, fun k' hk' => ?_⟩
  · have hpast := congrArg List.reverse hsplit
    simpa using hpast
  · simpa using hbefore k' (List.mem_reverse.mp hk')

variable {calls : List Callable} {t : Traced α} {act : Action α}

/-- A single step leaves the sink as it is. -/
theorem sink_of_single (h : act.Single) (m : Machine) : (endState (act m)).sink = m.sink := by
  have hself : act m = mapState (·.seen m.sink m.depth) (act m) := h.quiet m m.sink m.depth
  rw [hself]
  cases act m <;> rfl

/-- A single step does the same in both runs. -/
theorem view_of_single (h : act.Single) (m : Machine) : act (D.view m) = mapState D.view (act m) := by
  have hsink := sink_of_single h m
  have hdepth := (h.restores m).depth
  unfold Action.after at hdepth
  unfold view
  rw [h.quiet]
  cases hr : act m with
  | ok a n | error e n =>
      rw [hr] at hsink hdepth
      change n.sink = m.sink at hsink
      simp only [mapState, hsink, hdepth]

theorem Rel.single (h : act.Single) : D.Rel calls (Traced.lift act) act := by
  intro r
  have hsink := sink_of_single h r.machine
  have hview := view_of_single (D := D) h r.machine
  have hrest := h.restores r.machine
  unfold Action.after at hrest
  unfold Traced.lift result
  cases hr : act r.machine with
  | ok a n | error e n =>
      rw [hr] at hsink hview hrest
      exact ⟨[], rfl, hrest.env, hrest.depth, fun hfits => ⟨fun _ => hsink.symm ▸ hfits, hview⟩⟩

theorem Rel.bind {f : α → Traced β} {g : α → Action β} (h : D.Rel calls t act)
    (hf : ∀ a, D.Rel calls (f a) (g a)) : D.Rel calls (t >>= f) (act >>= g) := by
  intro r
  obtain ⟨new, hpast, henv, hdepth, h⟩ := h r
  cases ht : t r with
  | error e s =>
      rw [bind_error ht]
      rw [ht] at hpast henv hdepth h
      refine ⟨new, hpast, henv, hdepth, fun hfits => ⟨(h hfits).1, ?_⟩⟩
      have hres := (h hfits).2
      unfold result at *
      cases hc : D.first? new <;> rw [hc] at hres <;> exact bind_error hres
  | ok a s =>
      rw [bind_ok ht]
      rw [ht] at hpast henv hdepth h
      obtain ⟨new', hpast', henv', hdepth', h'⟩ := hf a s
      refine ⟨new' ++ new, ?_, henv'.trans henv, hdepth'.trans hdepth, fun hfits => ?_⟩
      · rw [List.append_assoc, ← hpast]
        exact hpast'
      · obtain ⟨hgoes, hres⟩ := h hfits
        unfold result at *
        rw [first?_append]
        cases hc : D.first? new with
        | some k =>
            rw [hc] at hres
            exact ⟨nofun, bind_error hres⟩
        | none =>
            rw [hc] at hres
            obtain ⟨hgoes', hres'⟩ := h' (hgoes hc)
            refine ⟨hgoes', (bind_ok hres).trans ?_⟩
            rw [Option.none_or]
            change s.machine.env = _ at henv
            change s.machine.depth = _ at hdepth
            rwa [henv, hdepth] at hres'

/-- Something is recorded at which the other run is not cut off. -/
theorem Rel.note {what : Happening} (hw : ∀ m, D.cuts ⟨m, what⟩ = false) (h : D.Rel calls t act) :
    D.Rel calls (Traced.note what >>= fun _ => t) act := by
  intro r
  obtain ⟨new, hpast, henv, hdepth, h⟩ := h ⟨r.machine, ⟨r.machine, what⟩ :: r.past⟩
  have hfirst : D.first? (new ++ [⟨r.machine, what⟩]) = D.first? new := by
    rw [first?_append, first?_single, hw, if_neg Bool.false_ne_true, Option.none_or]
  rw [Traced.note_bind]
  refine ⟨new ++ [⟨r.machine, what⟩], ?_, henv, hdepth, fun hfits => ?_⟩
  · rw [hpast, List.append_assoc]
    rfl
  · unfold result at *
    rw [hfirst]
    exact h hfits

theorem Rel.within (env : Env) (h : D.Rel calls t act) :
    D.Rel calls (Traced.within env t) (Action.within env act) := by
  intro r
  obtain ⟨new, hpast, henv, hdepth, h⟩ := h ⟨{ r.machine with env := env }, r.past⟩
  unfold Traced.within
  refine ⟨new, ?_, ?_, ?_, fun hfits => ?_⟩
  · cases ht : t ⟨{ r.machine with env := env }, r.past⟩ <;> rw [ht] at hpast <;> exact hpast
  · cases t ⟨{ r.machine with env := env }, r.past⟩ <;> rfl
  · cases ht : t ⟨{ r.machine with env := env }, r.past⟩ <;> rw [ht] at hdepth <;> exact hdepth
  · obtain ⟨hgoes, hres⟩ := h hfits
    have hact : Action.within env act (D.view r.machine) =
        mapState (fun n => { n with env := r.machine.env }) (act (D.view { r.machine with env := env })) :=
      Action.within_eq env act (D.view r.machine)
    rw [hact, hres]
    unfold result
    cases ht : t ⟨{ r.machine with env := env }, r.past⟩ <;> rw [ht] at hgoes <;>
      refine ⟨hgoes, ?_⟩ <;> cases D.first? new <;> rfl

theorem Rel.returning {t : Traced Unit} {act : Action Unit} (hD : D.Proper) (h : D.Rel calls t act) :
    D.Rel calls (Traced.returning t) (Action.returning act) := by
  intro r
  obtain ⟨new, hpast, henv, hdepth, h⟩ := h r
  have hend : endState (Traced.returning t r) = endState (t r) := by
    unfold Traced.returning
    cases t r with
    | ok _ s => rfl
    | error e s => cases e <;> rfl
  rw [hend]
  refine ⟨new, hpast, henv, hdepth, fun hfits => ⟨(h hfits).1, ?_⟩⟩
  have hres := (h hfits).2
  unfold Action.returning
  rw [hres]
  unfold result Traced.returning
  cases D.first? new with
  | none =>
      cases t r with
      | ok _ s => rfl
      | error e s => cases e <;> rfl
  | some k =>
      -- a function does not catch the exit of a run that is cut off
      have hexit := hD.exit k
      dsimp only
      cases he : D.exit k with
      | returned value => exact absurd he (hexit value)
      | _ => rfl

theorem Proper.cuts_leaves (hD : D.Proper) (m : Machine) : D.cuts ⟨m, .leaves⟩ = false := by
  refine Bool.eq_false_iff.mpr fun h => ?_
  obtain ⟨_, _, _, h⟩ | ⟨_, h⟩ := hD.cuts h <;> exact nomatch h

/-- A call, beside a plain action that makes the same call unless it is cut off there. -/
theorem Rel.calling {callee : Callable} {values : List Value} {closing : Lexeme} (hD : D.Proper)
    {act' : Action α} (h : D.Rel (callee :: calls) t act)
    (hcut : ∀ m, D.fits m.sink → act' (D.view m) = if D.cuts ⟨m, .calls callee values closing⟩
      then .error (D.exit ⟨m, .calls callee values closing⟩)
        { D.halted ⟨m, .calls callee values closing⟩ with env := m.env, depth := m.depth }
      else Action.deeper act (D.view m)) :
    D.Rel calls (Traced.calling callee values closing t) act' := by
  intro r
  obtain ⟨new, hpast, henv, hdepth, h⟩ :=
    h ⟨{ r.machine with depth := r.machine.depth + 1 }, ⟨r.machine, .calls callee values closing⟩ :: r.past⟩
  have hfirst (m : Machine) : D.first? (⟨m, .leaves⟩ :: (new ++ [⟨r.machine, .calls callee values closing⟩])) =
      if D.cuts ⟨r.machine, .calls callee values closing⟩ then some ⟨r.machine, .calls callee values closing⟩
      else D.first? new := by
    rw [first?_cons, first?_append, first?_single, first?_single, hD.cuts_leaves, if_neg Bool.false_ne_true,
      Option.or_none]
    split <;> rfl
  unfold Traced.calling
  cases ht : t ⟨{ r.machine with depth := r.machine.depth + 1 },
    ⟨r.machine, .calls callee values closing⟩ :: r.past⟩ with
  | ok a s | error e s =>
      rw [ht] at hpast henv hdepth h
      refine ⟨⟨s.machine, .leaves⟩ :: (new ++ [⟨r.machine, .calls callee values closing⟩]), ?_, henv, ?_, ?_⟩
      · change _ :: s.past = _
        rw [show s.past = _ from hpast, List.cons_append, List.append_assoc]
        rfl
      · change s.machine.depth - 1 = _
        rw [show s.machine.depth = _ from hdepth]
        rfl
      · intro hfits
        obtain ⟨hgoes, hres⟩ := h hfits
        unfold result at hres ⊢
        rw [hfirst, hcut r.machine hfits]
        cases hc : D.cuts ⟨r.machine, .calls callee values closing⟩ with
        | true => exact ⟨nofun, rfl⟩
        | false =>
            refine ⟨hgoes, ?_⟩
            have hact : Action.deeper act (D.view r.machine) =
                mapState (fun n => { n with depth := n.depth - 1 })
                  (act (D.view { r.machine with depth := r.machine.depth + 1 })) :=
              Action.deeper_eq act (D.view r.machine)
            rw [if_neg Bool.false_ne_true, if_neg Bool.false_ne_true, hact, hres]
            cases D.first? new <;> rfl

/-- A print, beside a plain one that is cut off there or does the same. -/
theorem Rel.print {value : Value} (hcut : ∀ m, D.fits m.sink →
      (D.cuts ⟨m, .prints value⟩ = false → D.fits (endState (Action.printLine value m)).sink) ∧
      Action.printLine value (D.view m) = if D.cuts ⟨m, .prints value⟩
        then .error (D.exit ⟨m, .prints value⟩)
          { D.halted ⟨m, .prints value⟩ with env := m.env, depth := m.depth }
        else mapState D.view (Action.printLine value m)) :
    D.Rel calls (Traced.print value) (Action.printLine value) := by
  intro r
  have hrest := Action.Restores.printLine value r.machine
  unfold Action.after at hrest
  rw [Traced.print_eq]
  unfold Traced.lift result
  refine ⟨[⟨r.machine, .prints value⟩], ?_, ?_, ?_, fun hfits => ?_⟩
  · cases Action.printLine value r.machine <;> rfl
  · cases hr : Action.printLine value r.machine <;> rw [hr] at hrest <;> exact hrest.env
  · cases hr : Action.printLine value r.machine <;> rw [hr] at hrest <;> exact hrest.depth
  · obtain ⟨hfit, hres⟩ := hcut r.machine hfits
    rw [first?_single, hres]
    cases hc : D.cuts ⟨r.machine, .prints value⟩ with
    | true => exact ⟨nofun, rfl⟩
    | false =>
        have hfit := hfit hc
        cases hr : Action.printLine value r.machine <;> rw [hr] at hfit <;> exact ⟨fun _ => hfit, rfl⟩

/-- A call under the same bound in both runs, at which the other run is not cut off. -/
theorem Rel.attempt {S : Settings} {callee : Callable} {values : List Value} {closing : Lexeme} (hD : D.Proper)
    (hcut : ∀ m, D.cuts ⟨m, .calls callee values closing⟩ = false) {t : Traced Value} {act : Action Value}
    (h : D.Rel (callee :: calls) t act) :
    D.Rel calls (Traced.attempt S callee values closing t) (Traced.attempted S closing.line act) := by
  intro r
  cases hlimit : S.callLimit.any (· ≤ r.machine.depth) with
  | true =>
      rw [Traced.attempt_full hlimit, Traced.attempted_full (m := D.view r.machine) hlimit]
      have hfail : D.Rel calls (Traced.lift (Action.fail .stackOverflow closing.line : Action Value)) _ :=
        .single (.elementary (.fail _ _))
      exact hfail r
  | false =>
      rw [Traced.attempt_room hlimit, Traced.attempted_room (m := D.view r.machine) hlimit]
      exact Rel.calling hD h (fun m _ => by rw [hcut, if_neg Bool.false_ne_true]) r

/-- The run that is cut off, beside the one that goes on, whatever they run. -/
theorem simulation (hD : D.Proper) {S S' : Settings} (hlookup : S'.lookup = S.lookup)
    (hclock : S'.clock = S.clock)
    (hattempt : ∀ {calls} {callee : Callable} {values : List Value} {t : Traced Value} {act : Action Value}
      (closing : Lexeme), values.length = callee.arity → D.Rel (callee :: calls) t act →
      D.Rel calls (Traced.attempt S callee values closing t) (Traced.attempted S' closing.line act))
    (hprint : ∀ {calls} value, D.Rel calls (Traced.print value) (Action.printLine value)) :
    Traced.Simulation S S' D.Rel where
  lookup := hlookup
  clock := hclock
  single h := .single h
  bind h hf := .bind h hf
  note {_ _ what _ _} hw h := by
    refine .note (fun m => Bool.eq_false_iff.mpr fun hc => ?_) h
    obtain ⟨callee, values, closing, rfl⟩ | ⟨value, rfl⟩ := hD.cuts hc <;> exact hw
  within env h := .within env h
  returning h := .returning hD h
  attempt closing hn h := hattempt closing hn h
  print value := hprint value

/-- The cutoff that never happens. -/
def never : Cutoff where
  shown sink := sink
  fits _ := True
  cuts _ := false
  exit _ := .exhausted
  halted := Moment.machine

theorem never_simulation (S : Settings) : Traced.Simulation S S never.Rel := by
  have hD : never.Proper := ⟨nofun, fun _ _ => nofun⟩
  refine simulation hD rfl rfl (fun _ _ h => .attempt hD (fun _ => rfl) h) fun value => .print fun m _ =>
    ⟨fun _ => trivial, ?_⟩
  have hview : ∀ m, never.view m = m := fun _ => rfl
  change Action.printLine value (never.view m) = mapState never.view (Action.printLine value m)
  rw [hview]
  cases Action.printLine value m <;> rfl

end Cutoff

/-! ### Runs and their histories -/

theorem Code.simulated {S S' : Settings} {rel : List Callable → ∀ {α : Type}, Traced α → Action α → Prop}
    (h : Traced.Simulation S S' rel) (hfuel : S'.fuel = S.fuel) (code : Code) :
    rel [] (code.trace S) (code.run S') := by
  obtain ⟨he, hx⟩ := h.evaluation S.fuel
  cases code with
  | program body =>
      unfold Code.trace Code.run
      rw [hfuel]
      exact h.bind (h.runAll (hx []) body) fun _ => h.pure _
  | expression e =>
      unfold Code.trace Code.run
      rw [hfuel]
      exact he [] e

/-- What every step keeps holds at the end. -/
theorem Code.invariant {S : Settings} {I : List Callable → Recorder → Prop} (h : Traced.Invariant S I)
    (code : Code) {r : Recorder} (hr : I [] r) : I [] (endState (code.trace S r)) :=
  Code.simulated h.simulation rfl code r hr

/-- An action that is never cut off does what the recorded one does. -/
theorem Cutoff.never_eq {calls : List Callable} {α : Type} {t : Traced α} {act : Action α}
    (h : Cutoff.never.Rel calls t act) (r : Recorder) : act r.machine = mapState Recorder.machine (t r) := by
  obtain ⟨new, -, -, -, h⟩ := h r
  have hnone : Cutoff.never.first? new = none := List.find?_eq_none.mpr fun _ _ => Bool.false_ne_true
  have hres := (h trivial).2
  unfold Cutoff.result at hres
  rw [hnone] at hres
  exact hres

/-- To keep a record changes nothing. -/
theorem Code.run_eq (S : Settings) (code : Code) (r : Recorder) :
    code.run S r.machine = mapState Recorder.machine (code.trace S r) :=
  Cutoff.never_eq (Code.simulated (Cutoff.never_simulation S) rfl code) r

/-- To keep a record of a statement changes nothing. -/
theorem Traced.exec_eq (S : Settings) (fuel : Nat) (s : Stmt NodeId) (r : Recorder) :
    Lox.exec S fuel s r.machine = mapState Recorder.machine (Traced.exec S fuel s r) :=
  Cutoff.never_eq (((Cutoff.never_simulation S).evaluation fuel).2 [] s) r

/-- Every evaluation of an expression is on record. -/
theorem Traced.eval_recorded (S : Settings) (fuel : Nat) (e : Expr NodeId) (r : Recorder) :
    ∃ new, (endState (Traced.eval S (fuel + 1) e r)).past = new ++ ⟨r.machine, .evaluates e⟩ :: r.past := by
  have hsim := Cutoff.never_simulation S
  obtain ⟨he, hx⟩ := hsim.evaluation fuel
  obtain ⟨new, hpast, -⟩ := (hsim.evalWith he hx e : Cutoff.never.Rel [] _ _)
    ⟨r.machine, ⟨r.machine, .evaluates e⟩ :: r.past⟩
  exact ⟨new, hpast⟩

/-- Every run of a statement is on record. -/
theorem Traced.exec_recorded (S : Settings) (fuel : Nat) (s : Stmt NodeId) (r : Recorder) :
    ∃ new, (endState (Traced.exec S (fuel + 1) s r)).past = new ++ ⟨r.machine, .executes s⟩ :: r.past := by
  have hsim := Cutoff.never_simulation S
  obtain ⟨he, hx⟩ := hsim.evaluation fuel
  obtain ⟨new, hpast, -⟩ := (hsim.execWith he hx fuel s : Cutoff.never.Rel [] _ _)
    ⟨r.machine, ⟨r.machine, .executes s⟩ :: r.past⟩
  exact ⟨new, hpast⟩

/-- The recorded machine at the end is that of the run. -/
theorem Code.endState_run (S : Settings) (code : Code) (r : Recorder) :
    endState (code.run S r.machine) = (endState (code.trace S r)).machine := by
  rw [Code.run_eq S code r]
  cases code.trace S r <;> rfl

/-- The machine after a step of a session is the recorded one. -/
theorem Session.machine_step (S : Settings) {s : Session} {st : Step} {job : Job}
    (h : st.job s.nextNode = .ok job) (past : History) :
    (s.step S st).2.machine = (endState (job.code.trace S ⟨s.prepared job, past⟩)).machine := by
  rw [Session.step_eq S h, Code.endState_run S job.code ⟨s.prepared job, past⟩]

/-- The history of a step of a session, which begins with the moments of the past. -/
def Session.history (settings : Settings) (s : Session) (past : History) (st : Step) : History :=
  match st.job s.nextNode with
  | .error _ => past
  | .ok job => (endState (job.code.trace settings ⟨s.prepared job, past⟩)).past

/-- What every step keeps holds at the end of a step of a session, whose machine is the recorded one. -/
theorem Session.invariant {S : Settings} {I : List Callable → Recorder → Prop} (h : Traced.Invariant S I)
    {s : Session} {past : History} (hr : ∀ distances, I [] ⟨learn s.machine distances, past⟩)
    (hs : I [] ⟨s.machine, past⟩) (st : Step) :
    I [] ⟨(s.step S st).2.machine, s.history S past st⟩ := by
  unfold Session.history
  cases hjob : st.job s.nextNode with
  | error faults =>
      rw [Session.step_rejected_eq S hjob]
      exact hs
  | ok job =>
      have hend := job.code.invariant h (hr job.distances)
      rw [Session.machine_step S hjob past]
      exact hend

namespace Cutoff

variable {D : Cutoff} {S S' : Settings}

/-- What code ends in, when the run of it is cut off or is not. -/
theorem run_eq (h : Traced.Simulation S S' D.Rel) (hfuel : S'.fuel = S.fuel) (code : Code) {m : Machine}
    (hfits : D.fits m.sink) :
    code.run S' (D.view m) = match D.first? (endState (code.trace S ⟨m, []⟩)).past with
      | none => mapState D.view (code.run S m)
      | some k => .error (D.exit k) { D.halted k with env := m.env, depth := m.depth } := by
  obtain ⟨new, hpast, -, -, hrel⟩ := Code.simulated h hfuel code ⟨m, []⟩
  rw [List.append_nil] at hpast
  have hplain : code.run S m = mapState Recorder.machine (code.trace S ⟨m, []⟩) := Code.run_eq S code ⟨m, []⟩
  rw [hpast, hplain]
  refine (hrel hfits).2.trans ?_
  unfold result
  cases D.first? new with
  | some k => rfl
  | none => cases code.trace S ⟨m, []⟩ <;> rfl

/-- A session of the run that goes on, as it is in the other run. -/
def viewed (D : Cutoff) (s : Session) : Session := ⟨D.view s.machine, s.nextNode⟩

/-- What the code of a step ends in, when the step is cut off or is not. -/
theorem run_viewed (h : Traced.Simulation S S' D.Rel) (hfuel : S'.fuel = S.fuel) {s : Session}
    (hfits : D.fits s.machine.sink) {st : Step} {job : Job} (hjob : st.job s.nextNode = .ok job) :
    job.code.run S' ((D.viewed s).prepared job) = match D.first? (s.history S [] st) with
      | none => mapState D.view (job.code.run S (s.prepared job))
      | some k => .error (D.exit k) { D.halted k with env := s.machine.env, depth := s.machine.depth } := by
  have hhistory : s.history S [] st = (endState (job.code.trace S ⟨s.prepared job, []⟩)).past := by
    unfold Session.history
    rw [hjob]
  rw [hhistory]
  exact run_eq h hfuel job.code (m := s.prepared job) hfits

/-- A step that is not cut off. -/
theorem step_uncut (h : Traced.Simulation S S' D.Rel) (hfuel : S'.fuel = S.fuel)
    (hflush : ∀ sink, (D.shown sink).flush = sink.flush) {s : Session} (hfits : D.fits s.machine.sink)
    {st : Step} (hcut : D.first? (s.history S [] st) = none) :
    (D.viewed s).step S' st = ((s.step S st).1, D.viewed (s.step S st).2) := by
  cases hjob : st.job s.nextNode with
  | error faults =>
      have hjob' : st.job (D.viewed s).nextNode = .error faults := hjob
      rw [Session.step_rejected_eq S hjob, Session.step_rejected_eq S' hjob']
  | ok job =>
      have hjob' : st.job (D.viewed s).nextNode = .ok job := hjob
      have hrun := run_viewed h hfuel hfits hjob
      rw [hcut] at hrun
      have hflushed (m : Machine) : Session.flushed (D.view m) = Session.flushed m := by
        unfold Session.flushed
        rw [show (D.view m).sink.flush = m.sink.flush from hflush m.sink]
      rw [Session.step_eq S hjob, Session.step_eq S' hjob', hrun]
      unfold Code.ending viewed
      cases job.code.run S (s.prepared job) with
      | ok a m => cases job.code <;> simp only [mapState, endState, hflushed]
      | error e m => cases job.code <;> cases e <;> simp only [mapState, endState, hflushed]

/-- A step that is cut off. -/
theorem step_cut (hD : D.Proper) (h : Traced.Simulation S S' D.Rel) (hfuel : S'.fuel = S.fuel) {s : Session}
    (hfits : D.fits s.machine.sink) {st : Step} {k : Moment} (hcut : D.first? (s.history S [] st) = some k) :
    (D.viewed s).step S' st = (st.left (D.exit k),
      ⟨{ D.halted k with env := s.machine.env, depth := s.machine.depth }, (s.step S st).2.nextNode⟩) := by
  cases hjob : st.job s.nextNode with
  | error faults =>
      unfold Session.history at hcut
      rw [hjob] at hcut
      exact nomatch hcut
  | ok job =>
      have hjob' : st.job (D.viewed s).nextNode = .ok job := hjob
      have hrun := run_viewed h hfuel hfits hjob
      rw [hcut] at hrun
      rw [Session.step_eq S hjob, Session.step_eq S' hjob', hrun, Step.ending_error hjob (hD.exit k)]
      rfl

end Cutoff

end Lox
