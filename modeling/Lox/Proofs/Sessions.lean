import Mathlib
import Lox.Session
import Lox.Proofs.Analysis
import Lox.Proofs.Growing

/-! # Sessions

A session stays in step with itself, looked up in two ways: what it holds, at every moment, is the work of
programs that were accepted, and the distances of their uses of names are on record (`Session.Sound`).  One
step keeps this (`Session.step_sound`), so any number of steps does (`Session.perform_sound`).

Two facts about whole sessions follow.  The one breach that a run can come to is an assignment to a local
variable in its own initializer (`Session.breach_is_early`), and where names are declared before they are
used, looking them up by search makes no difference (`Session.perform_bySearch`). -/

namespace Lox

open World

/-! ### Steps -/

/-- A step of a session: a source text that is run, or evaluated. -/
inductive Step where
  | run (source : String)
  | evaluate (source : String)
  deriving DecidableEq, Repr

/-- How a step ends. -/
inductive Ending where
  | ran (outcome : Outcome Unit)
  | evaluated (outcome : Outcome Value)

/-- The breach that a step comes to, if it does. -/
def Ending.breach? : Ending → Option Inconsistency
  | ran (.inconsistent breach) => some breach
  | evaluated (.inconsistent breach) => some breach
  | _ => none

theorem Ending.breach?_ran {o : Outcome Unit} {b : Inconsistency} (h : (ran o).breach? = some b) :
    o = .inconsistent b := by
  cases o with
  | inconsistent b' => exact congrArg _ (Option.some.inj h)
  | _ => exact nomatch h

theorem Ending.breach?_evaluated {o : Outcome Value} {b : Inconsistency}
    (h : (evaluated o).breach? = some b) : o = .inconsistent b := by
  cases o with
  | inconsistent b' => exact congrArg _ (Option.some.inj h)
  | _ => exact nomatch h

namespace Session

/-- Takes a step. -/
def step (settings : Settings) (s : Session) : Step → Ending × Session
  | .run source => (.ran (s.run settings source).1, (s.run settings source).2)
  | .evaluate source => (.evaluated (s.evaluate settings source).1, (s.evaluate settings source).2)

/-- Takes steps in order. -/
def perform (settings : Settings) (s : Session) : List Step → List Ending × Session
  | [] => ([], s)
  | st :: rest =>
    let (ending, s) := s.step settings st
    let (endings, s) := s.perform settings rest
    (ending :: endings, s)

end Session

/-- The uses of names in the program that a step runs, when it is accepted. -/
def Step.uses (next : NodeId) : Step → List Use
  | run source =>
    match analyze next source with
    | .ok (p, _) => usesOf p.statements
    | .error _ => []
  | evaluate source =>
    match analyzeExpression next source with
    | .ok (e, _) => usesAt [] none e.expr.references
    | .error _ => []

/-- The uses of names in the programs that steps run. -/
def Session.usesDuring (settings : Settings) (s : Session) : List Step → List Use
  | [] => []
  | st :: rest => st.uses s.nextNode ++ (s.step settings st).2.usesDuring settings rest

/-! ### Runs at the top level -/

/-- Outcomes that match, of a run that ends in the machine `n` on the left. -/
inductive OutcomeMatch (U : Links) (S : Settings) (n : Machine) {α : Type} (Q : α → α → Prop) :
    Outcome α → Outcome α → Prop
  | done {a a' : α} (h : Q a a') : OutcomeMatch U S n Q (.done a) (.done a')
  | runtime (fault : RuntimeFault) {i i' : NodeId} {l l' : Nat} (h : U.site i l i' l') :
      OutcomeMatch U S n Q (.failed (.runtime ⟨fault, l⟩)) (.failed (.runtime ⟨fault, l'⟩))
  | sink (fault : SinkFault) : OutcomeMatch U S n Q (.failed (.sink fault)) (.failed (.sink fault))
  | early {r r' : Reference NodeId} (h : U.early r r') (ht : TooEarly S r n) :
      OutcomeMatch U S n Q (.inconsistent (.unbound r.name.text 0))
        (.inconsistent (.unbound r'.name.text 0))
  | exhausted : OutcomeMatch U S n Q .exhausted .exhausted

section top

variable {U : Links} {S : Settings} {look : Lookup} {T T' : Std.HashMap NodeId Nat} {w : World}
  {m m' n : Machine}

theorem ExitMatch.outcome {α : Type} {Q : α → α → Prop} {e e' : Exit}
    (h : ExitMatch U S w false n e e') :
    OutcomeMatch U S n Q (Session.outcomeOf e) (Session.outcomeOf e') := by
  cases h with
  | returned hb _ => exact nomatch hb
  | failed fault h => exact .runtime fault h
  | refused fault => exact .sink fault
  | early h ht => exact .early h ht
  | exhausted => exact .exhausted

theorem flushed_match (h : m'.sink = m.sink) :
    OutcomeMatch U S n (fun _ _ => True) (Session.flushed m) (Session.flushed m') := by
  unfold Session.flushed
  rw [h]
  cases m.sink.flush with
  | none => exact .done trivial
  | some fault => exact .sink fault

/-- The machines that two runs end in, and their outcomes. -/
structure EndInStep (U : Links) (S : Settings) (T T' : Std.HashMap NodeId Nat) (w : World) (m : Machine)
    {α : Type} (Q : World → α → α → Prop) (p p' : Outcome α × Machine) : Prop where
  world : ∃ w₁, w ≤ w₁ ∧ InStep U T T' w₁ p.2 p'.2 ∧ OutcomeMatch U S p.2 (Q w₁) p.1 p'.1
  env : p.2.env = m.env

/-- Programs that match end alike. -/
theorem interpret_inStep (hU : U.Sound S look T T') (hm : InStep U T T' w m m')
    (hc : w.Chain [] m.env) {body body' : List (Stmt NodeId)} {Γ : Levels}
    (h : MatchStmts U false [] body body' Γ) :
    EndInStep U S T T' w m (fun _ _ _ => True) (Session.interpret S body m)
      (Session.interpret { S with lookup := look } body' m') := by
  have hrun := runAll_top_lockstep hU h hc m m' hm rfl
  unfold Session.interpret
  dsimp only
  revert hrun
  cases runAll (exec S S.fuel) body m <;>
    cases runAll (exec { S with lookup := look } S.fuel) body' m' <;> intro hrun
  · obtain ⟨w₁, hw, hs, hk, -⟩ := hrun
    exact ⟨⟨w₁, hw, hs, flushed_match hs.sink⟩, hk.env⟩
  · exact hrun.elim
  · exact hrun.elim
  · obtain ⟨w₁, hw, hs, hk, hx⟩ := hrun
    have ho := hx.outcome (Q := fun (_ _ : Unit) => True)
    cases hx with
    | returned hb _ => exact nomatch hb
    | _ => exact ⟨⟨w₁, hw, hs, ho⟩, hk.env⟩

/-- The outcome of an expression that stands alone, and the machine after it. -/
def Session.evaluated (settings : Settings) (e : Expr NodeId) (m : Machine) : Outcome Value × Machine :=
  match eval settings settings.fuel e m with
  | .ok value m => (.done value, m)
  | .error e m => (Session.outcomeOf e, m)

/-- Expressions that match end alike. -/
theorem evaluated_inStep (hU : U.Sound S look T T') (hm : InStep U T T' w m m')
    (hc : w.Chain [] m.env) {e e' : Expr NodeId} (h : MatchExpr U [] none e e') :
    EndInStep U S T T' w m (ValueMatch U) (Session.evaluated S e m)
      (Session.evaluated { S with lookup := look } e' m') := by
  have hl : Lockstep U S T T' w m.env false (eval S S.fuel e)
      (eval { S with lookup := look } S.fuel e') (ValueMatch U) := (lockstep hU S.fuel).1 h hc
  have hrun := hl m m' hm rfl
  unfold Session.evaluated
  dsimp only
  revert hrun
  cases eval S S.fuel e m <;> cases eval { S with lookup := look } S.fuel e' m' <;> intro hrun
  · obtain ⟨w₁, hw, hs, hk, hv⟩ := hrun
    exact ⟨⟨w₁, hw, hs, .done hv⟩, hk.env⟩
  · exact hrun.elim
  · exact hrun.elim
  · obtain ⟨w₁, hw, hs, hk, hx⟩ := hrun
    exact ⟨⟨w₁, hw, hs, hx.outcome⟩, hk.env⟩

end top

/-! ### A session beside itself -/

/-- A session beside itself, with its names looked up in a given way; the uses of names in its programs
so far are `us`. -/
def Session.comparison (look : Lookup) (us : List Use) (s : Session) : Comparison where
  look := look
  left := s.machine.distances
  right := s.machine.distances
  site i l i' l' := i < s.nextNode ∧ i' = i ∧ l' = l
  early r r' := r' = r ∧ ∃ u ∈ us, u.kind = .write ∧ u.isOwn = true ∧ u.ref = r
  decl d d' := d' = d
  renames twin := twin = id

/-- What holds of a session: its heap is in step with itself, it stands at the top level, and no distance
is on record for nodes to come. -/
structure Session.Sound (look : Lookup) (us : List Use) (s : Session) : Prop where
  world : ∃ w, InStep (s.comparison look us).links s.machine.distances s.machine.distances w s.machine
    s.machine ∧ w.Chain [] s.machine.env
  env : s.machine.env = [globalFrame]
  fresh : ∀ i, s.nextNode ≤ i → s.machine.distances[i]? = none

section sound

variable {S : Settings} {look : Lookup} {us vs : List Use} {s : Session}

/-- Machines in step are the same but for the heap and the distances. -/
theorem InStep.eq_heap {U : Links} {T T' : Std.HashMap NodeId Nat} {w : World} {m m' : Machine}
    (h : InStep U T T' w m m') : m' = { m with heap := m'.heap, distances := T' } := by
  have henv := h.env
  have hdepth := h.depth
  have hsink := h.sink
  have hreadings := h.readings
  have hdist := h.distances_right
  cases m
  cases m'
  cases henv
  cases hdepth
  cases hsink
  cases hreadings
  cases hdist
  rfl

/-- Machines in step are the same but for the distances when neither names nor declarations change. -/
theorem InStep.eq_learnt {U : Links} {T T' : Std.HashMap NodeId Nat} {w : World} {m m' : Machine}
    (hd : ∀ d d', U.decl d d' → d' = d) (hr : ∀ twin, U.renames twin → twin = id)
    (h : InStep U T T' w m m') : m' = { m with distances := T' } := by
  have hheap : m'.heap = m.heap := by rw [h.left, h.right, h.good.eq hd hr]
  have hm := h.eq_heap
  rwa [hheap] at hm

/-- Machines in step that know the same distances are the same. -/
theorem InStep.eq {U : Links} {T : Std.HashMap NodeId Nat} {w : World} {m m' : Machine}
    (hd : ∀ d d', U.decl d d' → d' = d) (hr : ∀ twin, U.renames twin → twin = id)
    (h : InStep U T T w m m') : m' = m := by
  have hm := h.eq_learnt hd hr
  rwa [← h.distances_left] at hm

/-- A new machine, which holds nothing but the clock, is in step with itself whatever the links. -/
theorem Machine.start_inStep (U : Links) (sink : Sink) :
    ∃ w, InStep U (Machine.start sink).distances (Machine.start sink).distances w (.start sink) (.start sink) ∧
      w.Chain [] (Machine.start sink).env := by
  refine ⟨⟨[.globals], (Machine.start sink).heap, (Machine.start sink).heap⟩,
    ⟨⟨rfl, rfl, ?_, ?_, rfl, fun i => ?_, rfl⟩, rfl, rfl, rfl, rfl, rfl, rfl, rfl, rfl⟩,
    .globals rfl⟩
  · rintro r hr
    rw [List.mem_singleton.mp hr]
    trivial
  · intro f r hr
    match f, hr with
    | 0, hr =>
        cases hr
        exact .cons ⟨trivial, trivial, rfl, .clock⟩ .nil
  · exact .nil

/-- A new session is in step with itself. -/
theorem Session.start_sound (look : Lookup) (sink : Sink) : (Session.start sink).Sound look [] where
  world := Machine.start_inStep _ sink
  env := rfl
  fresh i _ := by simp [Session.start, Machine.start]

/-- Uses of names with numbers of their own that a session has not given out yet. -/
abbrev Session.New (s : Session) (last : NodeId) (new : List Use) : Prop :=
  Within s.nextNode last (new.map (·.ref.id))

/-- A session that has learnt the distances of uses of names. -/
def Session.learnt (s : Session) (last : NodeId) (new : List Use) : Session :=
  ⟨Session.learn s.machine (distancesOf new), last⟩

/-- Uses of names that a session records can be looked up. -/
theorem Session.Sound.recorded (h : s.Sound look us) {new : List Use} {last : NodeId}
    (hn : s.New last new) (hfirst : look = .bySearch → ∀ u ∈ new, u.DeclaredFirst) :
    ∀ u ∈ new, Recorded ((s.learnt last new).comparison look (us ++ new)) (fun _ => id) id id u := by
  intro u hu
  have hid := hn.range u.ref.id (List.mem_map_of_mem hu)
  have hd : (s.learnt last new).machine.distances[u.ref.id]? = u.distance? :=
    getElem?_distancesOf hn.nodup hu (h.fresh _ hid.1)
  refine ⟨hd, ?_, fun _ => rfl, (Surroundings.twin_same _ _).symm, ⟨hid.2, rfl, rfl⟩,
    fun hk ho _ => ⟨rfl, u, List.mem_append_right _ hu, hk, ho, rfl⟩⟩
  unfold Session.comparison
  cases look with
  | byDistance => exact hd
  | bySearch => exact hfirst rfl u hu

/-- Recording new uses of names keeps a session in step with itself. -/
theorem Session.Sound.learnt (h : s.Sound look us) {new : List Use} {last : NodeId}
    (hn : s.New last new) : (s.learnt last new).Sound look (us ++ new) := by
  have hkeep : ∀ i, i < s.nextNode →
      (s.learnt last new).machine.distances[i]? = s.machine.distances[i]? := by
    refine fun i hi => getElem?_distancesOf_of_notMem fun u hu he => ?_
    exact Nat.not_lt.mpr (hn.range u.ref.id (List.mem_map_of_mem hu)).1 (he ▸ hi)
  have hext : (s.comparison look us).Extends ((s.learnt last new).comparison look (us ++ new)) := {
    look := rfl
    left := fun hs => hkeep _ hs.1
    right := by
      rintro i l _ _ ⟨hi, rfl, -⟩
      exact hkeep _ hi
    site := fun ⟨hi, he, hl⟩ => ⟨Nat.lt_of_lt_of_le hi hn.le, he, hl⟩
    early := fun ⟨he, u, hu, hx⟩ => ⟨he, u, List.mem_append_left _ hu, hx⟩
    decl := fun hd => hd
    renames := fun hr => hr }
  obtain ⟨w, hw, hc⟩ := h.world
  refine ⟨⟨w, { hw with
    good := hw.good.grow hext.le, distances_left := rfl, distances_right := rfl }, hc⟩, h.env, ?_⟩
  intro i hi
  refine (getElem?_distancesOf_of_notMem fun u hu he => ?_).trans
    (h.fresh i (Nat.le_trans hn.le hi))
  exact Nat.not_lt.mpr hi (he ▸ (hn.range u.ref.id (List.mem_map_of_mem hu)).2)

/-- Breaches of a run: assignments to local variables in their own initializers. -/
def EarlyOnly (S : Settings) (us : List Use) (n : Machine) (b : Inconsistency) : Prop :=
  ∃ u ∈ us, u.kind = .write ∧ u.isOwn = true ∧ b = .unbound u.ref.name.text 0 ∧ TooEarly S u.ref n

/-- The outcomes of a session beside itself are the same. -/
theorem OutcomeMatch.same {α : Type} {Q : α → α → Prop} (hQ : ∀ a a', Q a a' → a' = a) {n : Machine}
    {o o' : Outcome α} (h : OutcomeMatch (s.comparison look us).links S n Q o o') :
    o' = o ∧ ∀ b, o = .inconsistent b → EarlyOnly S us n b := by
  cases h with
  | done h => exact ⟨congrArg _ (hQ _ _ h), nofun⟩
  | runtime fault h =>
      obtain ⟨-, -, rfl⟩ := h
      exact ⟨rfl, nofun⟩
  | sink fault => exact ⟨rfl, nofun⟩
  | early h ht =>
      obtain ⟨rfl, u, hu, hk, ho, rfl⟩ := h
      refine ⟨rfl, ?_⟩
      rintro _ ⟨⟩
      exact ⟨u, hu, hk, ho, rfl, ht⟩
  | exhausted => exact ⟨rfl, nofun⟩

/-- A run leaves a session in step with itself, and ends as it does when names are looked up the other
way. -/
theorem Session.Sound.ends (h : s.Sound look us) {α : Type} {Q : World → α → α → Prop}
    (hQ : ∀ w a a', Q w a a' → a' = a) {w : World} (hc : w.Chain [] s.machine.env)
    {p p' : Outcome α × Machine}
    (he : EndInStep (s.comparison look us).links S s.machine.distances s.machine.distances w s.machine
      Q p p') :
    p' = p ∧ (⟨p.2, s.nextNode⟩ : Session).Sound look us ∧
      ∀ b, p.1 = .inconsistent b → EarlyOnly S us p.2 b := by
  obtain ⟨⟨w₁, hw, hs, ho⟩, henv⟩ := he
  obtain ⟨ho, hb⟩ := ho.same (hQ w₁)
  have hm := hs.eq (fun _ _ hd => hd) fun _ hr => hr
  have hd := hs.distances_left
  refine ⟨Prod.ext ho hm, ⟨?_, henv.trans h.env, ?_⟩, hb⟩
  · have hcomp : Session.comparison look us ⟨p.2, s.nextNode⟩ = s.comparison look us := by
      unfold Session.comparison
      dsimp only
      rw [hd]
    rw [hcomp]
    dsimp only
    rw [hd]
    rw [hm] at hs
    exact ⟨w₁, hs, henv ▸ hc.mono hw⟩
  · intro i hi
    dsimp only
    rw [hd]
    exact h.fresh i hi

/-! ### One step -/

/-- The rules on names that a program must obey for search to find what distances do. -/
def Step.DeclaredFirst (next : NodeId) (st : Step) : Prop := ∀ u ∈ st.uses next, u.DeclaredFirst

/-- What a step does to a session beside itself. -/
structure StepSound (S : Settings) (look : Lookup) (us : List Use) (s : Session) (st : Step) : Prop where
  same : s.step { S with lookup := look } st = s.step S st
  sound : (s.step S st).2.Sound look us
  early : ∀ b, (s.step S st).1.breach? = some b → EarlyOnly S us (s.step S st).2.machine b

theorem Session.evaluate_eq {source : String} {e : LoneExpr} {last : NodeId}
    (h : analyzeExpression s.nextNode source = .ok (e, last)) :
    s.evaluate S source =
      ((Session.evaluated S e.expr (Session.learn s.machine e.distances)).1,
        ⟨(Session.evaluated S e.expr (Session.learn s.machine e.distances)).2, last⟩) := by
  unfold Session.evaluate Session.evaluated
  rw [h]
  dsimp only
  cases eval S S.fuel e.expr (Session.learn s.machine e.distances) <;> rfl

theorem Session.run_eq {source : String} {p : Program} {last : NodeId}
    (h : analyze s.nextNode source = .ok (p, last)) :
    s.run S source =
      ((Session.interpret S p.statements (Session.learn s.machine p.distances)).1,
        ⟨(Session.interpret S p.statements (Session.learn s.machine p.distances)).2, last⟩) := by
  unfold Session.run
  rw [h]

theorem Session.run_rejected {source : String} {faults : List Diagnostic}
    (h : analyze s.nextNode source = .error faults) : s.run S source = (.rejected faults, s) := by
  unfold Session.run
  rw [h]

theorem Session.evaluate_rejected {source : String} {faults : List Diagnostic}
    (h : analyzeExpression s.nextNode source = .error faults) : s.evaluate S source = (.rejected faults, s) := by
  unfold Session.evaluate
  rw [h]

theorem Session.Sound.run (hS : S.lookup = .byDistance) (h : s.Sound look us) (source : String)
    (hfirst : look = .bySearch → (Step.run source).DeclaredFirst s.nextNode) :
    StepSound S look (us ++ (Step.run source).uses s.nextNode) s (.run source) := by
  unfold Step.DeclaredFirst at hfirst
  have huses : (Step.run source).uses s.nextNode = match analyze s.nextNode source with
    | .ok (p, _) => usesOf p.statements
    | .error _ => [] := rfl
  cases ha : analyze s.nextNode source with
  | error faults =>
      rw [ha] at huses
      rw [huses, List.append_nil]
      refine ⟨?_, ?_, ?_⟩ <;> unfold Session.step <;> simp only [Session.run_rejected ha]
      · exact h
      · exact nofun
  | ok r =>
      obtain ⟨p, last⟩ := r
      rw [ha] at huses
      rw [huses] at hfirst ⊢
      obtain ⟨body, hreads, hnum, hacc⟩ := analyze_ok ha
      have hn : s.New last (usesOf p.statements) := by
        have hw := usesOf_within body s.nextNode
        rwa [hnum] at hw
      have hmarks := marks_inside body s.nextNode
      rw [hnum] at hmarks
      have hl := h.learnt hn
      have hlearn : Session.learn s.machine p.distances =
          (s.learnt last (usesOf p.statements)).machine := by
        rw [hacc.distances]
        rfl
      obtain ⟨w, hw, hc⟩ := hl.world
      have hid : ∀ t : Lexeme, (id t).text = t.text := fun _ => rfl
      have hmatch := hacc.matches hid (.of_text hid hid (h.recorded hn hfirst)
        (fun x hx m hm => ⟨(hmarks x hx m hm).2, rfl, rfl⟩) (fun _ => rfl) rfl)
      rw [Stmt.mapAll_id] at hmatch
      have hend := interpret_inStep (Comparison.links_sound _ hS) hw hc hmatch
      obtain ⟨hsame, hsound, hearly⟩ := hl.ends (fun _ _ _ _ => rfl) hc hend
      refine ⟨?_, ?_, ?_⟩ <;> unfold Session.step <;> simp only [Session.run_eq ha, hlearn]
      · rw [← hsame]
        rfl
      · exact hsound
      · exact fun b hb => hearly b (Ending.breach?_ran hb)

theorem Session.Sound.evaluate (hS : S.lookup = .byDistance) (h : s.Sound look us) (source : String)
    (hfirst : look = .bySearch → (Step.evaluate source).DeclaredFirst s.nextNode) :
    StepSound S look (us ++ (Step.evaluate source).uses s.nextNode) s (.evaluate source) := by
  unfold Step.DeclaredFirst at hfirst
  have huses : (Step.evaluate source).uses s.nextNode =
      match analyzeExpression s.nextNode source with
      | .ok (e, _) => usesAt [] none e.expr.references
      | .error _ => [] := rfl
  cases ha : analyzeExpression s.nextNode source with
  | error faults =>
      rw [ha] at huses
      rw [huses, List.append_nil]
      refine ⟨?_, ?_, ?_⟩ <;> unfold Session.step <;> simp only [Session.evaluate_rejected ha]
      · exact h
      · exact nofun
  | ok r =>
      obtain ⟨e, last⟩ := r
      rw [ha] at huses
      rw [huses] at hfirst ⊢
      obtain ⟨plain, hreads, hnum, hfound⟩ := analyzeExpression_ok ha
      have hn : s.New last (usesAt [] none e.expr.references) := by
        have hw := Expr.number_within plain s.nextNode
        rw [hnum] at hw
        rw [Session.New, usesAt_ids]
        exact hw
      have hmarks := (Expr.number_marks plain s.nextNode).range
      rw [hnum] at hmarks
      have hspelled : e.expr.Spelled := by
        have hs := Expr.spelled_number hreads.spelled s.nextNode
        rwa [hnum] at hs
      have hl := h.learnt hn
      have hlearn : Session.learn s.machine e.distances =
          (s.learnt last (usesAt [] none e.expr.references)).machine := by
        rw [hfound.distances]
        rfl
      obtain ⟨w, hw, hc⟩ := hl.world
      have hplace : Placed.Sound ⟨[], none, e.expr⟩ := ⟨nofun, hspelled, nofun⟩
      have hrec := h.recorded hn hfirst
      have hmatch := @Expr.map_matches ((s.learnt last _).comparison look _).links (fun _ => id) id id
        [] none e.expr
        ⟨fun u hu => (hrec u hu).useMatch (hplace.uses u hu) (hfound.allowed u hu) fun _ => rfl,
          fun m hm => ⟨rfl, (hmarks m.id (List.mem_map_of_mem hm)).2, rfl, rfl⟩⟩
      rw [Expr.map_id] at hmatch
      have hend := evaluated_inStep (Comparison.links_sound _ hS) hw hc hmatch
      obtain ⟨hsame, hsound, hearly⟩ := hl.ends (fun _ _ _ hv => hv.eq fun _ _ hd => hd) hc hend
      refine ⟨?_, ?_, ?_⟩ <;> unfold Session.step <;> simp only [Session.evaluate_eq ha, hlearn]
      · rw [← hsame]
        rfl
      · exact hsound
      · exact fun b hb => hearly b (Ending.breach?_evaluated hb)

/-- A step keeps a session in step with itself. -/
theorem Session.step_sound (hS : S.lookup = .byDistance) (h : s.Sound look us) (st : Step)
    (hfirst : look = .bySearch → st.DeclaredFirst s.nextNode) :
    StepSound S look (us ++ st.uses s.nextNode) s st := by
  cases st with
  | run source => exact h.run hS source hfirst
  | evaluate source => exact h.evaluate hS source hfirst

/-! ### Many steps -/

/-- Steps in order keep a session in step with itself. -/
theorem Session.perform_sound (hS : S.lookup = .byDistance) (h : s.Sound look us) (steps : List Step)
    (hfirst : look = .bySearch → ∀ u ∈ s.usesDuring S steps, u.DeclaredFirst) :
    s.perform { S with lookup := look } steps = s.perform S steps ∧
      (s.perform S steps).2.Sound look (us ++ s.usesDuring S steps) := by
  induction steps generalizing s us with
  | nil =>
      refine ⟨rfl, ?_⟩
      rw [Session.usesDuring, List.append_nil]
      exact h
  | cons st steps ih =>
      obtain ⟨hsame, hsound, -⟩ := Session.step_sound hS h st fun hl u hu =>
        hfirst hl u (List.mem_append_left _ hu)
      obtain ⟨hsame', hsound'⟩ := ih hsound fun hl u hu => hfirst hl u (List.mem_append_right _ hu)
      rw [Session.usesDuring, ← List.append_assoc]
      refine ⟨?_, hsound'⟩
      unfold Session.perform
      rw [hsame]
      dsimp only
      rw [hsame']

end sound

/-! ### Whole sessions -/

theorem Settings.with_lookup {S : Settings} {look : Lookup} (h : S.lookup = look) :
    { S with lookup := look } = S := by
  rw [← h]

/-- The session that steps lead to from the start. -/
def Session.reached (settings : Settings) (sink : Sink) (steps : List Step) : Session :=
  ((Session.start sink).perform settings steps).2

/-- The uses of names in the programs that steps run from the start. -/
def Session.usesOfSteps (settings : Settings) (sink : Sink) (steps : List Step) : List Use :=
  (Session.start sink).usesDuring settings steps

theorem Session.reached_sound {S : Settings} (hS : S.lookup = .byDistance) (sink : Sink)
    (steps : List Step) :
    (Session.reached S sink steps).Sound .byDistance (Session.usesOfSteps S sink steps) :=
  (Session.perform_sound hS (Session.start_sound .byDistance sink) steps nofun).2

/-- Where names are declared before they are used, it makes no difference to the endings of the steps of a
session, nor to the session, whether names are looked up by distance or by search. -/
theorem Session.perform_bySearch {S : Settings} (hS : S.lookup = .byDistance) (sink : Sink)
    (steps : List Step)
    (hfirst : ∀ u ∈ Session.usesOfSteps S sink steps, u.DeclaredFirst) :
    (Session.start sink).perform { S with lookup := .bySearch } steps =
      (Session.start sink).perform S steps :=
  (Session.perform_sound hS (Session.start_sound .bySearch sink) steps fun _ => hfirst).1

/-- A program that declares its names before it uses them. -/
theorem Session.perform_bySearch_call :
    let st := Step.run "fun f(a) { var b = a; return b; } print f(2);"
    (Session.start .unlimited).perform { Settings.standard with lookup := .bySearch } [st] =
      (Session.start .unlimited).perform .standard [st] :=
  Session.perform_bySearch rfl .unlimited _ (by decide +kernel)

end Lox
