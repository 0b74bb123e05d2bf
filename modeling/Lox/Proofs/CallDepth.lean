import Lox.Proofs.Cutoffs

/-! # The bound on open calls

The number of open calls that a machine keeps is at every moment the number of call expressions whose callee
is being run (`Accounted`).  A run under a bound is the run without one, cut off at the first call that would
be one too many (`Session.callLimit_transparent`). -/

namespace Lox

/-! ### Calls in progress -/

/-- The number of open calls is that of the calls in progress, and within the bound.  A call has the right
number of arguments.  A function that is entered is the one that is called last, or the initializer of the
class that is called last, which is no call of its own. -/
structure Accounted (settings : Settings) (k : Moment) (past : History) : Prop where
  depth : k.machine.depth = (inProgress past).length
  bounded : ∀ limit, settings.callLimit = some limit → (inProgress past).length ≤ limit
  called : ∀ callee values closing, k.what = .calls callee values closing → values.length = callee.arity
  entered : ∀ f, k.what = .enters f → (inProgress past).head? = some (.function f) ∨
    ∃ c init env, (inProgress past).head? = some (.cls c) ∧ c.find? initializerName = some init ∧
      f = { init with env := env }

/-- All moments so far are accounted for, and these calls are in progress. -/
structure Balance (settings : Settings) (calls : List Callable) (r : Recorder) : Prop where
  current : inProgress r.past = calls
  depth : r.machine.depth = calls.length
  bounded : ∀ limit, settings.callLimit = some limit → calls.length ≤ limit
  accounted : Throughout (Accounted settings) r.past

section balances

variable {settings : Settings} {calls : List Callable} {r : Recorder}

theorem Balance.machine (h : Balance settings calls r) {m : Machine} (hm : m.depth = r.machine.depth) :
    Balance settings calls ⟨m, r.past⟩ := ⟨h.current, hm.trans h.depth, h.bounded, h.accounted⟩

/-- A moment that neither begins nor ends a call. -/
theorem Balance.note (h : Balance settings calls r) {what : Happening}
    (hcalls : inProgress (⟨r.machine, what⟩ :: r.past) = inProgress r.past)
    (hcalled : ∀ callee values closing, what ≠ .calls callee values closing)
    (hentered : ∀ f, what = .enters f → (Happening.enters f).Fits calls) :
    Balance settings calls ⟨r.machine, ⟨r.machine, what⟩ :: r.past⟩ where
  current := hcalls.trans h.current
  depth := h.depth
  bounded := h.bounded
  accounted := by
    refine ⟨⟨h.depth.trans (congrArg _ h.current.symm), ?_, fun _ _ _ hw => absurd hw (hcalled _ _ _), ?_⟩,
      h.accounted⟩
    · rw [h.current]
      exact h.bounded
    · rw [h.current]
      exact hentered

/-- Evaluation accounts for all its moments. -/
theorem balance_invariant (settings : Settings) : Traced.Invariant settings (Balance settings) where
  single {_ r _ act} hact hr := by
    have hdepth := (hact.restores r.machine).depth
    unfold Action.after at hdepth
    unfold Traced.lift
    cases hrun : act r.machine <;> rw [hrun] at hdepth <;> exact hr.machine hdepth
  note {_ _ what} hw hr := by
    refine hr.note ?_ ?_ ?_
    · cases what <;> first | rfl | exact hw.elim
    · rintro _ _ _ rfl
      exact hw
    · rintro f rfl
      exact hw
  env _ hr := hr.machine rfl
  begins {calls r callee values} closing hn hlimit hr := by
    refine ⟨congrArg _ hr.current, congrArg (· + 1) hr.depth, fun limit hl => ?_,
      ⟨⟨?_, ?_, ?_, nofun⟩, hr.accounted⟩⟩
    · have hroom : r.machine.depth < limit := by
        rw [hl] at hlimit
        simpa using hlimit
      rw [List.length_cons, ← hr.depth]
      exact hroom
    · rw [hr.current]
      exact hr.depth
    · rw [hr.current]
      exact hr.bounded
    · rintro _ _ _ ⟨⟩
      exact hn
  leaves {calls callee r} hr := by
    refine ⟨congrArg List.tail hr.current, congrArg (· - 1) hr.depth,
      fun limit hl => Nat.le_of_succ_le (hr.bounded limit hl), ⟨⟨?_, ?_, nofun, nofun⟩, hr.accounted⟩⟩
    · rw [hr.current]
      exact hr.depth
    · rw [hr.current]
      exact hr.bounded
  print {_ r} value hr := by
    have hnote : Balance settings _ ⟨r.machine, ⟨r.machine, .prints value⟩ :: r.past⟩ :=
      hr.note rfl nofun nofun
    have hdepth := (Action.Restores.printLine value r.machine).depth
    unfold Action.after at hdepth
    rw [Traced.print_eq]
    unfold Traced.lift
    cases hprint : Action.printLine value r.machine <;> rw [hprint] at hdepth <;> exact hnote.machine hdepth

end balances

/-- Every moment of a step of a session is accounted for. -/
theorem Session.history_accounted {settings : Settings} {s : Session} (hs : s.machine.depth = 0) (st : Step) :
    Throughout (Accounted settings) (s.history settings [] st) := by
  have hbegin (m : Machine) (hm : m.depth = 0) : Balance settings [] ⟨m, []⟩ :=
    ⟨rfl, hm, fun _ _ => Nat.zero_le _, trivial⟩
  exact (Session.invariant (balance_invariant settings) (fun _ => hbegin _ hs) (hbegin _ hs) st).accounted

/-! ### The cutoff -/

/-- The run under a bound is cut off at a call for which as many calls are open as the bound allows. -/
def callCutoff (limit : Nat) : Cutoff where
  shown sink := sink
  fits _ := True
  cuts k :=
    match k.what with
    | .calls _ _ _ => limit ≤ k.machine.depth
    | _ => false
  exit k :=
    match k.what with
    | .calls _ _ closing => .failed ⟨.stackOverflow, closing.line⟩
    | _ => .exhausted
  halted := Moment.machine

theorem callCutoff_proper (limit : Nat) : (callCutoff limit).Proper where
  cuts {k} h := by
    obtain ⟨m, what⟩ := k
    cases what with
    | calls callee values closing => exact .inl ⟨callee, values, closing, rfl⟩
    | _ => exact nomatch h
  exit k value := by
    obtain ⟨m, what⟩ := k
    cases what <;> exact nofun

/-- The run under a bound beside the run without one. -/
theorem callCutoff_simulation (settings : Settings) (limit : Nat) :
    Traced.Simulation { settings with callLimit := none } { settings with callLimit := some limit }
      (callCutoff limit).Rel := by
  have hD := callCutoff_proper limit
  have hview : ∀ m, (callCutoff limit).view m = m := fun _ => rfl
  refine Cutoff.simulation hD rfl rfl (fun {_ callee values _ act} closing _ h => ?_) fun value =>
    .print fun m _ => ⟨fun _ => trivial, ?_⟩
  · refine Cutoff.Rel.calling hD h fun m _ => ?_
    rw [hview]
    change _ = if decide (limit ≤ m.depth) then
      EStateM.Result.error (Exit.failed ⟨.stackOverflow, closing.line⟩) m else _
    cases hd : decide (limit ≤ m.depth) with
    | true => exact Traced.attempted_full hd
    | false => exact Traced.attempted_room hd
  · change Action.printLine value ((callCutoff limit).view m) =
      mapState (callCutoff limit).view (Action.printLine value m)
    rw [hview]
    cases Action.printLine value m <;> rfl

section limit

variable {settings : Settings} {limit : Nat}

/-- At most so many calls are in progress after every moment. -/
abbrev Shallow (limit : Nat) : History → Prop := Throughout fun k past => (inProgress (k :: past)).length ≤ limit

theorem Shallow.length_le {past : History} (h : Shallow limit past) : (inProgress past).length ≤ limit := by
  cases past with
  | nil => exact Nat.zero_le _
  | cons k past => exact h.1

/-- A moment at which the run under the bound is not cut off, after moments at which it was not. -/
theorem inProgress_cons_le {k : Moment} {past : History} (hk : Accounted settings k past)
    (hcut : (callCutoff limit).cuts k = false) (hpast : (inProgress past).length ≤ limit) :
    (inProgress (k :: past)).length ≤ limit := by
  have hdepth := hk.depth
  obtain ⟨m, what⟩ := k
  cases what with
  | calls callee values closing =>
      have hroom : ¬ limit ≤ m.depth := of_decide_eq_false hcut
      change (inProgress past).length + 1 ≤ limit
      rw [← hdepth]
      exact Nat.lt_of_not_le hroom
  | leaves =>
      change (inProgress past).tail.length ≤ limit
      rw [List.length_tail]
      exact Nat.le_trans (Nat.sub_le _ _) hpast
  | _ => exact hpast

/-- While the run under the bound is not cut off, there are at most as many calls in progress as the bound
allows. -/
theorem shallow_of_uncut {past : History} (h : Throughout (Accounted settings) past)
    (hcut : ∀ k ∈ past, (callCutoff limit).cuts k = false) : Shallow limit past := by
  induction past with
  | nil => trivial
  | cons k past ih =>
      have hpast := ih h.2 fun k' hk' => hcut k' (List.mem_cons_of_mem _ hk')
      exact ⟨inProgress_cons_le h.1 (hcut k List.mem_cons_self) hpast.length_le, hpast⟩

/-- The moment at which the run under the bound is cut off is a call, as many calls being in progress as the
bound allows, for the first time. -/
theorem first_call {past : History} (h : Throughout (Accounted settings) past) {k : Moment}
    (hcut : (callCutoff limit).first? past = some k) :
    ∃ late m callee values closing early, past = late ++ ⟨m, .calls callee values closing⟩ :: early ∧
      k = ⟨m, .calls callee values closing⟩ ∧ Shallow limit early ∧ (inProgress early).length = limit ∧
      values.length = callee.arity := by
  obtain ⟨late, early, rfl, hk, huncut⟩ := Cutoff.split_first? hcut
  obtain ⟨hacc, hearly⟩ := h.before
  have hshallow : Shallow limit early := shallow_of_uncut hearly huncut
  obtain ⟨callee, values, closing, hwhat⟩ | ⟨value, hwhat⟩ := (callCutoff_proper limit).cuts hk
  · obtain ⟨m, what⟩ := k
    cases hwhat
    have hdepth : limit ≤ m.depth := of_decide_eq_true hk
    rw [hacc.depth] at hdepth
    exact ⟨late, m, callee, values, closing, early, rfl, rfl, hshallow,
      Nat.le_antisymm hshallow.length_le hdepth, hacc.called _ _ _ rfl⟩
  · obtain ⟨m, what⟩ := k
    cases hwhat
    exact nomatch hk

end limit

/-- The bound on open calls is transparent.  At every moment of a step under the bound, the number of open
calls is that of the calls in progress, which the bound allows.  If the step without the bound never has more
calls in progress, it is the same under the bound.  Otherwise the step under the bound fails at the first
call that would be one too many, with the machine that the step without the bound has at this moment. -/
theorem Session.callLimit_transparent (settings : Settings) (limit : Nat) (sink : Sink) (steps : List Step)
    (st : Step) :
    let s := Session.reached settings sink steps
    let free := { settings with callLimit := none }
    let bounded := { settings with callLimit := some limit }
    Throughout (Accounted bounded) (s.history bounded [] st) ∧
    (Shallow limit (s.history free [] st) → s.step bounded st = s.step free st) ∧
    (¬ Shallow limit (s.history free [] st) → ∃ late m callee values closing early,
      s.history free [] st = late ++ ⟨m, .calls callee values closing⟩ :: early ∧
      Shallow limit early ∧ (inProgress early).length = limit ∧ values.length = callee.arity ∧
      s.step bounded st = (st.failed (.runtime ⟨.stackOverflow, closing.line⟩),
        ⟨{ m with env := [globalFrame], depth := 0 }, (s.step free st).2.nextNode⟩)) ∧
    Settings.standard.callLimit = some 16384 := by
  intro s free bounded
  have hidle : s.Idle := Session.perform_idle (Session.start_idle sink) steps
  have hsim := callCutoff_simulation settings limit
  have hfree : Throughout (Accounted free) (s.history free [] st) := Session.history_accounted hidle.depth st
  have hviewed : ∀ s, (callCutoff limit).viewed s = s := fun _ => rfl
  refine ⟨Session.history_accounted hidle.depth st, fun hshallow => ?_, fun hdeep => ?_, rfl⟩
  · cases hcut : (callCutoff limit).first? (s.history free [] st) with
    | none => exact Cutoff.step_uncut hsim rfl (fun _ => rfl) trivial hcut
    | some k =>
        -- at the cutoff there is one call more in progress than the bound allows
        obtain ⟨late, m, callee, values, closing, early, hsplit, -, -, hlength, -⟩ := first_call hfree hcut
        rw [hsplit] at hshallow
        have hle : (inProgress early).length + 1 ≤ limit := hshallow.before.1
        rw [hlength] at hle
        exact absurd hle (Nat.not_succ_le_self limit)
  · cases hcut : (callCutoff limit).first? (s.history free [] st) with
    | none => exact absurd (shallow_of_uncut hfree (Cutoff.uncut_of_first? hcut)) hdeep
    | some k =>
        obtain ⟨late, m, callee, values, closing, early, hsplit, rfl, hshallow, hlength, hn⟩ :=
          first_call hfree hcut
        refine ⟨late, m, callee, values, closing, early, hsplit, hshallow, hlength, hn, ?_⟩
        have hstep := Cutoff.step_cut (callCutoff_proper limit) hsim rfl trivial hcut
        rw [hviewed, hidle.env, hidle.depth] at hstep
        exact hstep.trans (congrArg (·, _) (Step.left_failed st _))

end Lox
