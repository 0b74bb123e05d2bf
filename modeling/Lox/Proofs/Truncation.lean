import Lox.Proofs.Cutoffs

/-! # A sink without room

What a run prints can be read off its history (`printed`).  A run that prints to a sink with little room is
the run that prints to a sink without bound, cut off at the first print that does not fit
(`Session.room_truncates`). -/

namespace Lox

/-! ### What a run prints -/

/-- The bytes of a value on a line of its own. -/
def Value.line (v : Value) : ByteArray := (v.text ++ "\n").toUTF8

/-- What has been printed, in order. -/
def printed : History → ByteArray
  | [] => .empty
  | ⟨_, .prints value⟩ :: past => printed past ++ value.line
  | _ :: past => printed past

theorem printed_append (late early : History) : printed (late ++ early) = printed early ++ printed late := by
  induction late with
  | nil => exact ByteArray.append_empty.symm
  | cons k late ih =>
      obtain ⟨m, what⟩ := k
      cases what with
      | prints value =>
          change printed (late ++ early) ++ value.line = printed early ++ (printed late ++ value.line)
          rw [ih, ByteArray.append_assoc]
      | _ => exact ih

/-- A sink that has taken more bytes. -/
def Sink.after (sink : Sink) (bytes : ByteArray) : Sink := { sink with taken := sink.taken ++ bytes }

theorem Sink.after_append (sink : Sink) (a b : ByteArray) : (sink.after a).after b = sink.after (a ++ b) := by
  unfold after
  rw [ByteArray.append_assoc]

theorem Sink.write_unbounded {sink : Sink} (h : sink.room = none) (bytes : ByteArray) :
    sink.write bytes = (none, sink.after bytes) := by
  unfold write after
  rw [h]

theorem Sink.write_fits {sink : Sink} {room : Nat} (h : sink.room = some room) {bytes : ByteArray}
    (hfits : bytes.size ≤ room) :
    sink.write bytes = (none, { sink.after bytes with room := some (room - bytes.size) }) := by
  rw [write, h]
  exact if_pos hfits

theorem Sink.write_full {sink : Sink} {room : Nat} (h : sink.room = some room) {bytes : ByteArray}
    (hfull : ¬ bytes.size ≤ room) :
    sink.write bytes = (some .full, { sink.after (bytes.extract 0 room) with room := some 0 }) := by
  rw [write, h]
  exact if_neg hfull

theorem printLine_eq (value : Value) (m : Machine) :
    Action.printLine value m = match m.sink.write value.line with
      | (none, sink) => .ok () { m with sink := sink }
      | (some fault, sink) => .error (.refused fault) { m with sink := sink } := rfl

theorem printLine_ok {m : Machine} {value : Value} {sink : Sink} (h : m.sink.write value.line = (none, sink)) :
    Action.printLine value m = .ok () { m with sink := sink } := by
  rw [printLine_eq, h]

theorem printLine_error {m : Machine} {value : Value} {fault : SinkFault} {sink : Sink}
    (h : m.sink.write value.line = (some fault, sink)) :
    Action.printLine value m = .error (.refused fault) { m with sink := sink } := by
  rw [printLine_eq, h]

/-- At every moment, the sink has taken what has been printed. -/
structure Written (base : Sink) (r : Recorder) : Prop where
  now : r.machine.sink = base.after (printed r.past)
  always : Throughout (fun k past => k.machine.sink = base.after (printed past)) r.past

theorem Written.sink {base : Sink} {r : Recorder} (h : Written base r) {m : Machine}
    (hm : m.sink = r.machine.sink) : Written base ⟨m, r.past⟩ := ⟨hm.trans h.now, h.always⟩

/-- A moment at which nothing is printed. -/
theorem Written.note {base : Sink} {r : Recorder} (h : Written base r) (what : Happening)
    (hw : ∀ value, what ≠ .prints value) {m : Machine} (hm : m.sink = r.machine.sink) :
    Written base ⟨m, ⟨r.machine, what⟩ :: r.past⟩ := by
  have hprinted : printed (⟨r.machine, what⟩ :: r.past) = printed r.past := by
    cases what with
    | prints value => exact absurd rfl (hw value)
    | _ => rfl
  exact ⟨by rw [hprinted]; exact hm.trans h.now, h.now, h.always⟩

/-- To a sink without bound, everything that is printed is written. -/
theorem written_invariant (settings : Settings) {base : Sink} (hbase : base.room = none) :
    Traced.Invariant settings fun _ => Written base where
  single {_ r _ act} hact hr := by
    have hsink := Cutoff.sink_of_single hact r.machine
    unfold Traced.lift
    cases hrun : act r.machine <;> rw [hrun] at hsink <;> exact hr.sink hsink
  note {_ _ what} hw hr := by
    refine hr.note what ?_ rfl
    rintro value rfl
    exact hw
  env _ hr := hr.sink rfl
  begins {_ _ callee values} closing _ _ hr := hr.note (.calls callee values closing) nofun rfl
  leaves hr := hr.note .leaves nofun rfl
  print {_ r} value hr := by
    have hroom : r.machine.sink.room = none := by
      rw [hr.now]
      exact hbase
    have hrun : Traced.print value r =
        .ok () ⟨{ r.machine with sink := r.machine.sink.after value.line },
          ⟨r.machine, .prints value⟩ :: r.past⟩ := by
      rw [Traced.print_eq]
      unfold Traced.lift
      rw [printLine_ok (Sink.write_unbounded hroom _)]
      rfl
    rw [hrun]
    refine ⟨?_, hr.now, hr.always⟩
    change r.machine.sink.after value.line = base.after (printed r.past ++ value.line)
    rw [hr.now, Sink.after_append]

/-! ### The cutoff -/

/-- The sink with room for so many bytes in all, beside the one without bound. -/
def roomCutoff (capacity : Nat) : Cutoff where
  shown sink := { sink with room := some (capacity - sink.taken.size) }
  fits sink := sink.room = none ∧ sink.taken.size ≤ capacity
  cuts k :=
    match k.what with
    | .prints value => capacity < k.machine.sink.taken.size + value.line.size
    | _ => false
  exit _ := .refused .full
  halted k :=
    match k.what with
    | .prints value => { k.machine with sink :=
        { k.machine.sink.after (value.line.extract 0 (capacity - k.machine.sink.taken.size)) with room := some 0 } }
    | _ => k.machine

theorem roomCutoff_proper (capacity : Nat) : (roomCutoff capacity).Proper where
  cuts {k} h := by
    obtain ⟨m, what⟩ := k
    cases what with
    | prints value => exact .inr ⟨value, rfl⟩
    | _ => exact nomatch h
  exit _ _ := nofun

/-- The run that prints to a sink with bounded room beside the run that prints to one without bound. -/
theorem roomCutoff_simulation (settings : Settings) (capacity : Nat) :
    Traced.Simulation settings settings (roomCutoff capacity).Rel := by
  have hD := roomCutoff_proper capacity
  refine Cutoff.simulation hD rfl rfl (fun _ _ h => .attempt hD (fun _ => rfl) h) fun value =>
    .print fun m hfits => ?_
  obtain ⟨hroom, hsize⟩ := hfits
  have hshown : ((roomCutoff capacity).view m).sink.room = some (capacity - m.sink.taken.size) := rfl
  have hbytes : (m.sink.after value.line).taken.size = m.sink.taken.size + value.line.size :=
    ByteArray.size_append
  have hcuts : (roomCutoff capacity).cuts ⟨m, .prints value⟩ =
      decide (capacity < m.sink.taken.size + value.line.size) := rfl
  rw [printLine_ok (Sink.write_unbounded hroom _), hcuts]
  by_cases hfull : capacity < m.sink.taken.size + value.line.size
  · refine ⟨fun h => absurd hfull (of_decide_eq_false h), ?_⟩
    rw [if_pos (decide_eq_true hfull), printLine_error (Sink.write_full hshown (by omega))]
    rfl
  · refine ⟨fun _ => ⟨hroom, ?_⟩, ?_⟩
    · change (m.sink.after value.line).taken.size ≤ capacity
      omega
    · rw [decide_eq_false hfull, if_neg Bool.false_ne_true,
        printLine_ok (Sink.write_fits hshown (by omega))]
      change EStateM.Result.ok () _ = EStateM.Result.ok () ((roomCutoff capacity).view
        { m with sink := m.sink.after value.line })
      unfold Cutoff.view Machine.seen roomCutoff
      dsimp only
      rw [hbytes, Nat.sub_sub]
      rfl

/-- A session that prints to a sink with other room. -/
def Session.withRoom (s : Session) (room : Option Nat) : Session :=
  { s with machine := { s.machine with sink := { s.machine.sink with room := room } } }

section room

variable {base : Sink} {room : Nat}

/-- All of the bytes, if they are so many or fewer. -/
theorem extract_of_size_le {bytes : ByteArray} (h : bytes.size ≤ room) : bytes.extract 0 room = bytes := by
  rw [← Nat.max_eq_left h]
  exact ByteArray.extract_zero_max_size

/-- What fits of what is printed is what is printed before the print that does not fit, and what fits of
this. -/
theorem extract_printed {late early : History} {m : Machine} {value : Value}
    (h : (printed early).size ≤ room) (h' : room ≤ (printed early).size + value.line.size) :
    (printed (late ++ ⟨m, .prints value⟩ :: early)).extract 0 room =
      printed early ++ value.line.extract 0 (room - (printed early).size) := by
  rw [printed_append]
  change (printed early ++ value.line ++ printed late).extract 0 room = _
  have hsize : (printed early ++ value.line).size = (printed early).size + value.line.size :=
    ByteArray.size_append
  rw [ByteArray.extract_append, hsize, Nat.zero_sub, Nat.sub_eq_zero_of_le h', ByteArray.extract_same,
    ByteArray.append_empty, ByteArray.extract_append, Nat.zero_sub, extract_of_size_le h]

/-- While the run is not cut off, what it prints fits. -/
theorem printed_le {past : History} (h : Throughout (fun k past => k.machine.sink = base.after (printed past)) past)
    (hcut : ∀ k ∈ past, (roomCutoff (base.taken.size + room)).cuts k = false) : (printed past).size ≤ room := by
  induction past with
  | nil => exact Nat.zero_le _
  | cons k past ih =>
      have hpast := ih h.2 fun k' hk' => hcut k' (List.mem_cons_of_mem _ hk')
      have hsink := h.1
      have hk := hcut k List.mem_cons_self
      obtain ⟨m, what⟩ := k
      cases what with
      | prints value =>
          have hfits : ¬ base.taken.size + room < m.sink.taken.size + value.line.size := of_decide_eq_false hk
          change (printed past ++ value.line).size ≤ room
          rw [show m.sink = _ from hsink] at hfits
          unfold Sink.after at hfits
          rw [ByteArray.size_append] at hfits ⊢
          omega
      | _ => exact hpast

/-- The moment at which the run is cut off is the first print that does not fit. -/
theorem first_print {past : History}
    (h : Throughout (fun k past => k.machine.sink = base.after (printed past)) past) {k : Moment}
    (hcut : (roomCutoff (base.taken.size + room)).first? past = some k) :
    ∃ late m value early, past = late ++ ⟨m, .prints value⟩ :: early ∧ k = ⟨m, .prints value⟩ ∧
      m.sink = base.after (printed early) ∧ (printed early).size ≤ room ∧
      room < (printed early).size + value.line.size := by
  obtain ⟨late, early, rfl, hk, huncut⟩ := Cutoff.split_first? hcut
  obtain ⟨hsink, hearly⟩ := h.before
  have hle : (printed early).size ≤ room := printed_le hearly huncut
  obtain ⟨_, _, _, hwhat⟩ | ⟨value, hwhat⟩ := (roomCutoff_proper _).cuts hk
  · obtain ⟨m, what⟩ := k
    cases hwhat
    exact nomatch hk
  · obtain ⟨m, what⟩ := k
    cases hwhat
    refine ⟨late, m, value, early, rfl, rfl, hsink, hle, ?_⟩
    have hover : base.taken.size + room < m.sink.taken.size + value.line.size := of_decide_eq_true hk
    rw [show m.sink = _ from hsink] at hover
    unfold Sink.after at hover
    rw [ByteArray.size_append] at hover
    omega

end room

/-! ### One step beside another -/

section steps

variable (settings : Settings) (s : Session) (st : Step) (room : Nat)

/-- The session that prints to a sink with bounded room, as the cutoff has it. -/
theorem Session.viewed_withRoom :
    (roomCutoff (s.machine.sink.taken.size + room)).viewed (s.withRoom none) = s.withRoom (some room) := by
  unfold Cutoff.viewed Cutoff.view Machine.seen roomCutoff Session.withRoom
  dsimp only
  rw [Nat.add_sub_cancel_left]

/-- Where there is no bound, the sink has taken what is printed, at every moment of a step and at its end. -/
theorem Session.step_written :
    Written (s.withRoom none).machine.sink
      ⟨((s.withRoom none).step settings st).2.machine, (s.withRoom none).history settings [] st⟩ := by
  have hbegin (m : Machine) (hm : m.sink = (s.withRoom none).machine.sink) :
      Written (s.withRoom none).machine.sink ⟨m, []⟩ := by
    refine ⟨?_, trivial⟩
    rw [hm, Sink.after, printed, ByteArray.append_empty]
  exact Session.invariant (written_invariant settings rfl) (fun _ => hbegin _ rfl) (hbegin _ rfl) st

/-- Where there is no bound, the sink takes what the step prints. -/
theorem Session.step_taken : ((s.withRoom none).step settings st).2.machine.sink.taken =
    s.machine.sink.taken ++ printed ((s.withRoom none).history settings [] st) :=
  congrArg Sink.taken (s.step_written settings st).now

/-- The sink without bound has taken no more than the bytes that there is room for. -/
theorem Session.withRoom_fits :
    (roomCutoff (s.machine.sink.taken.size + room)).fits (s.withRoom none).machine.sink :=
  ⟨rfl, Nat.le_add_right _ _⟩

variable {settings s st room}

/-- A step is the same if what it prints fits. -/
theorem Session.step_fits
    (hcut : (roomCutoff (s.machine.sink.taken.size + room)).first? ((s.withRoom none).history settings [] st) = none) :
    let free := (s.withRoom none).step settings st
    let history := (s.withRoom none).history settings [] st
    (printed history).size ≤ room ∧
      (s.withRoom (some room)).step settings st =
        (free.1, free.2.withRoom (some (room - (printed history).size))) := by
  intro free history
  refine ⟨printed_le (s.step_written settings st).always (Cutoff.uncut_of_first? hcut), ?_⟩
  have hroom : s.machine.sink.taken.size + room - free.2.machine.sink.taken.size =
      room - (printed history).size := by
    rw [s.step_taken settings st, ByteArray.size_append, Nat.add_sub_add_left]
  have hstep := Cutoff.step_uncut (roomCutoff_simulation settings _) rfl (fun _ => rfl) (s.withRoom_fits room) hcut
  rw [s.viewed_withRoom room] at hstep
  rw [← hroom]
  exact hstep

/-- A step stops at the first print that does not fit. -/
theorem Session.step_full (hidle : s.Idle) {k : Moment}
    (hcut : (roomCutoff (s.machine.sink.taken.size + room)).first? ((s.withRoom none).history settings [] st) =
      some k) :
    let history := (s.withRoom none).history settings [] st
    room < (printed history).size ∧ ∃ late m value early,
      history = late ++ ⟨m, .prints value⟩ :: early ∧
      (printed early).size ≤ room ∧ room < (printed early).size + value.line.size ∧
      (s.withRoom (some room)).step settings st = (st.failed (.sink .full), ⟨{ m with
        env := [globalFrame]
        depth := 0
        sink := { s.machine.sink with
          taken := s.machine.sink.taken ++ (printed history).extract 0 room
          room := some 0 } }, ((s.withRoom none).step settings st).2.nextNode⟩) := by
  intro history
  obtain ⟨late, m, value, early, hsplit, rfl, hsink, hle, hover⟩ :=
    first_print (s.step_written settings st).always hcut
  change history = _ at hsplit
  have hsize : room < (printed history).size := by
    rw [hsplit, printed_append]
    change room < (printed early ++ value.line ++ printed late).size
    rw [ByteArray.size_append, ByteArray.size_append]
    omega
  refine ⟨hsize, late, m, value, early, hsplit, hle, hover, ?_⟩
  -- what the sink has taken when the print is refused, and how much of it still fits
  have hbytes : (printed history).extract 0 room =
      printed early ++ value.line.extract 0 (room - (printed early).size) := by
    rw [hsplit]
    exact extract_printed hle (Nat.le_of_lt hover)
  have hroom : s.machine.sink.taken.size + room - m.sink.taken.size = room - (printed early).size := by
    rw [hsink]
    change s.machine.sink.taken.size + room - (s.machine.sink.taken ++ printed early).size = _
    rw [ByteArray.size_append, Nat.add_sub_add_left]
  have hhalted : (roomCutoff (s.machine.sink.taken.size + room)).halted ⟨m, .prints value⟩ =
      { m with sink := { s.machine.sink with
        taken := s.machine.sink.taken ++ (printed history).extract 0 room
        room := some 0 } } := by
    unfold roomCutoff
    dsimp only
    rw [hroom, hsink, Sink.after_append, ← hbytes]
    rfl
  have henv : (s.withRoom none).machine.env = [globalFrame] := hidle.env
  have hdepth : (s.withRoom none).machine.depth = 0 := hidle.depth
  have hstep := Cutoff.step_cut (roomCutoff_proper _) (roomCutoff_simulation settings _) rfl (s.withRoom_fits room) hcut
  rw [s.viewed_withRoom room, hhalted, henv, hdepth] at hstep
  exact hstep.trans (congrArg (·, _) (Step.left_refused st _))

end steps

/-- A sink without room only truncates.  A step that prints to a sink with room for so many bytes writes just
the first so many of the bytes that the same step prints to a sink without bound.  If these are all, the step
is the same.  Otherwise it stops at the first print that does not fit, with the fault of the sink, and with
the machine that the step has at this moment when it prints to a sink without bound, but for the sink. -/
theorem Session.room_truncates (settings : Settings) (sink : Sink) (steps : List Step) (st : Step) (room : Nat) :
    let s := Session.reached settings sink steps
    let free := (s.withRoom none).step settings st
    let tight := (s.withRoom (some room)).step settings st
    let history := (s.withRoom none).history settings [] st
    free.2.machine.sink.taken = s.machine.sink.taken ++ printed history ∧
    tight.2.machine.sink.taken = s.machine.sink.taken ++ (printed history).extract 0 room ∧
    ((printed history).size ≤ room →
      tight = (free.1, free.2.withRoom (some (room - (printed history).size)))) ∧
    (room < (printed history).size → ∃ late m value early,
      history = late ++ ⟨m, .prints value⟩ :: early ∧
      (printed early).size ≤ room ∧ room < (printed early).size + value.line.size ∧
      tight = (st.failed (.sink .full), ⟨{ m with
        env := [globalFrame]
        depth := 0
        sink := { s.machine.sink with
          taken := s.machine.sink.taken ++ (printed history).extract 0 room
          room := some 0 } }, free.2.nextNode⟩)) := by
  intro s free tight history
  have hidle : s.Idle := Session.perform_idle (Session.start_idle sink) steps
  have htaken := s.step_taken settings st
  refine ⟨htaken, ?_⟩
  cases hcut : (roomCutoff (s.machine.sink.taken.size + room)).first? history with
  | none =>
      obtain ⟨hle, hstep⟩ := Session.step_fits hcut
      refine ⟨?_, fun _ => hstep, fun h => absurd hle (Nat.not_le_of_lt h)⟩
      rw [extract_of_size_le hle, ← htaken]
      exact congrArg (·.2.machine.sink.taken) hstep
  | some k =>
      obtain ⟨hsize, late, m, value, early, hsplit, hle, hover, hstep⟩ := Session.step_full hidle hcut
      refine ⟨congrArg (·.2.machine.sink.taken) hstep, fun h => absurd hsize (Nat.not_lt_of_le h), fun _ => ?_⟩
      exact ⟨late, m, value, early, hsplit, hle, hover, hstep⟩

end Lox
